import Mathlib
import PlcTypes.Layout
import PlcTypes.Leaf
import PlcTypes.Proofs.Field.Tree

/-! # The plain layout is the sum of the leaves

    The plain size is computed along the tree, with a running total that
    saturates in every structure.  Flattening takes no notice of structures: it
    gives one leaf for each cell, among them one for each element of an array.

    The two agree: the plain size is the sum of the sizes of the leaves, which
    is taken without a bound, or the greatest size if that is less.  Where in
    the tree a sum saturates makes no difference, because a field counts only
    as far as the greatest size, and up to there it counts as its leaves do. -/

namespace PlcTypes

/-- The size of a leaf, taken as the field that it is. -/
def Leaf.plainSize (leaf : Leaf) : Nat :=
  leaf.toField.plainSize

/-- Every leaf takes at least one byte. -/
theorem Leaf.plainSize_pos (leaf : Leaf) : 1 ≤ leaf.plainSize := by
  cases leaf with
  | scalar f => exact f.type.bytes_pos
  | text f =>
      show 1 ≤ 2 + f.capacity
      omega

namespace Field

/-- The sizes of some leaves together, without a bound. -/
def leavesSize (leaves : List Leaf) : Nat :=
  (leaves.map Leaf.plainSize).sum

theorem leavesSize_append (as bs : List Leaf) :
    leavesSize (as ++ bs) = leavesSize as + leavesSize bs := by
  simp only [leavesSize, List.map_append, List.sum_append]

/-- There are no more leaves than bytes in them. -/
theorem length_le_leavesSize (leaves : List Leaf) : leaves.length ≤ leavesSize leaves := by
  have hsizes : ∀ size ∈ leaves.map Leaf.plainSize, 1 ≤ size := by
    intro size hsize
    obtain ⟨leaf, -, rfl⟩ := List.mem_map.mp hsize
    exact leaf.plainSize_pos
  have hlength := List.length_le_sum_of_one_le _ hsizes
  rwa [List.length_map] at hlength

/-- An array takes the bytes of its elements. -/
theorem leavesSize_array (a : ArrayField) : leavesSize (leaves (.array a)) = a.size := by
  have hsizes : (leaves (.array a)).map Leaf.plainSize
      = List.replicate a.count a.element.bytes := by
    simp only [leaves, ArrayField.elements, List.map_map]
    refine List.eq_replicate_iff.mpr ⟨?_, ?_⟩
    · rw [List.length_map, ArrayField.length_indices]
    · intro size hsize
      obtain ⟨index, -, rfl⟩ := List.mem_map.mp hsize
      rfl
  rw [leavesSize, hsizes, List.sum_replicate_nat, Nat.mul_comm]
  rfl

/-- Behind a total, the sum that is computed is that of the total and the leaves
    of the fields, as far as the greatest size, if each field counts as its
    leaves do. -/
theorem plainSizeFrom_eq {fs : List Field}
    (h : ∀ f ∈ fs, min (plainSize f) maxSize = min (leavesSize (leaves f)) maxSize)
    {total : Nat} (htotal : total ≤ maxSize) :
    plainSizeFrom total fs = min (total + leavesSize (leavesAll fs)) maxSize := by
  induction fs generalizing total with
  | nil => exact (Nat.min_eq_left htotal).symm
  | cons f fs ih =>
      have hf := h f (by simp)
      have hfs : ∀ g ∈ fs, min (plainSize g) maxSize = min (leavesSize (leaves g)) maxSize :=
        fun g hg => h g (by simp [hg])
      have hsum : addSize total (plainSize f) = min (total + plainSize f) maxSize := rfl
      rw [plainSizeFrom, leavesAll, leavesSize_append, hsum, ih hfs (Nat.min_le_right _ _)]
      omega

/-- A list of fields is computed as the sum of its leaves, if each field is, as
    far as the greatest size. -/
theorem plainSizeAll_of_forall {fs : List Field}
    (h : ∀ f ∈ fs, min (plainSize f) maxSize = min (leavesSize (leaves f)) maxSize) :
    plainSizeAll fs = min (leavesSize (leavesAll fs)) maxSize := by
  rw [plainSizeAll, plainSizeFrom_eq h (Nat.zero_le maxSize), Nat.zero_add]

/-- Every field counts as its leaves do, as far as the greatest size. -/
theorem min_plainSize (f : Field) :
    min (plainSize f) maxSize = min (leavesSize (leaves f)) maxSize := by
  induction f using Field.induction with
  | plain f hplain =>
      cases f with
      | scalar f | text f => rfl
      | array a =>
          rw [leavesSize_array]
          rfl
      | struct name comment members => exact nomatch hplain
  | struct name comment members ih =>
      show min (plainSizeAll members) maxSize = min (leavesSize (leavesAll members)) maxSize
      rw [plainSizeAll_of_forall ih]
      omega

/-- **THE PLAIN LAYOUT IS THE SUM OF THE LEAVES**: the plain size of every list
    of fields is the sum of the plain sizes of its leaves, or the greatest size
    if that is less.  So there are no more leaves than bytes, unless that sum
    is more than the greatest size. -/
theorem plainSizeAll_eq_min (fs : List Field) :
    plainSizeAll fs
        = min ((leavesAll fs).map fun leaf => leaf.toField.plainSize).sum maxSize ∧
      ((leavesAll fs).length ≤ plainSizeAll fs ∨
        maxSize < ((leavesAll fs).map fun leaf => leaf.toField.plainSize).sum) := by
  have hsum : plainSizeAll fs = min (leavesSize (leavesAll fs)) maxSize :=
    plainSizeAll_of_forall fun f _ => min_plainSize f
  refine ⟨hsum, ?_⟩
  show _ ∨ maxSize < leavesSize (leavesAll fs)
  have hlength := length_le_leavesSize (leavesAll fs)
  omega

end Field

end PlcTypes
