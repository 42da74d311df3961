import Mathlib
import PlcTypes.Proofs.Layout.Packed

/-! # Structures put one behind the other

    The packed size of two lists of fields that become one structure is the
    sum of their packed sizes, unless the cut between them falls into a run of
    booleans.  Then two runs become one: the byte that every run takes besides
    its booleans is needed once, and the bits that the two last bytes left
    over may come together to one byte less.

    Whether there is a run at the cut need not be asked for the sum itself.
    Every list consists of what stands before its last run, and of that run,
    which may be empty; and in the same way of its first run and the rest.  So
    the sizes before, between and behind are the same in the whole as in the
    parts, and all that changes is the size of the run in between. -/

namespace PlcTypes

open Layout

namespace Field

/-- The number of booleans that a list of fields ends with. -/
def trailingBools (fs : List Field) : Nat :=
  (fs.rtakeWhile isBool).length

/-- The number of booleans that a list of fields starts with. -/
def leadingBools (fs : List Field) : Nat :=
  (fs.takeWhile isBool).length

/-- Whether a list of fields ends with a boolean. -/
def EndsInBool (fs : List Field) : Prop :=
  ∃ f ∈ fs.getLast?, f.isBool = true

/-- Whether a list of fields starts with a boolean. -/
def StartsInBool (fs : List Field) : Prop :=
  ∃ f ∈ fs.head?, f.isBool = true

/-- What a run of `a` booleans and one of `b` take more than one run of
    both. -/
def savedBytes (a b : Nat) : Nat :=
  1 + a ⌈/⌉ 8 + b ⌈/⌉ 8 - (a + b) ⌈/⌉ 8

theorem trailingBools_pos {fs : List Field} : 0 < trailingBools fs ↔ EndsInBool fs := by
  cases fs using List.reverseRecOn with
  | nil => simp [trailingBools, EndsInBool]
  | append_singleton fs f =>
      cases hf : f.isBool <;> simp [trailingBools, EndsInBool, hf]

theorem leadingBools_pos {fs : List Field} : 0 < leadingBools fs ↔ StartsInBool fs := by
  cases fs with
  | nil => simp [leadingBools, StartsInBool]
  | cons f fs =>
      cases hf : f.isBool <;> simp [leadingBools, StartsInBool, hf]

/-! ## Runs -/

/-- A run that is not empty takes one byte for every eight booleans begun, and
    one more. -/
theorem runSize_of_pos {n : Nat} (h : 0 < n) : runSize n = n ⌈/⌉ 8 + 1 := by
  rw [Nat.ceilDiv_eq_add_pred_div, runSize, if_neg (by omega)]
  rfl

theorem runSize_pos {n : Nat} (h : 0 < n) : 0 < runSize n := by
  rw [runSize_of_pos h]
  exact Nat.succ_pos _

/-- What is saved when two runs become one is a byte or two. -/
theorem savedBytes_eq {a b : Nat} (ha : 0 < a) (hb : 0 < b) :
    runSize a + runSize b = runSize (a + b) + savedBytes a b ∧
      (savedBytes a b = 1 ∨ savedBytes a b = 2) := by
  rw [runSize_of_pos ha, runSize_of_pos hb, runSize_of_pos (Nat.add_pos_left ha b), savedBytes]
  simp only [Nat.ceilDiv_eq_add_pred_div]
  omega

/-! ## Exact sizes -/

/-- Fields that are all booleans are one run. -/
theorem exactSizeAll_bools {fs : List Field} (h : ∀ f ∈ fs, f.isBool = true) :
    exactSizeAll fs = runSize fs.length := by
  have hslots : slots fs = List.replicate fs.length .bit := by
    rw [slots_eq_map]
    refine List.eq_replicate_iff.mpr ⟨List.length_map .., fun slot hslot => ?_⟩
    obtain ⟨f, hf, rfl⟩ := List.mem_map.mp hslot
    exact if_pos (h f hf)
  rw [exactSizeAll, hslots, slotsSize_bits]

/-- A cut with a boolean on at most one side is a cut between pieces. -/
theorem exactSizeAll_append {before after : List Field}
    (h : ∀ f ∈ before.getLast?, ∀ g ∈ after.head?, f.isBool = false ∨ g.isBool = false) :
    exactSizeAll (before ++ after) = exactSizeAll before + exactSizeAll after := by
  rw [exactSizeAll, slots_append]
  refine slotsSize_append fun a ha b hb => ?_
  rw [slots_eq_map, List.getLast?_map] at ha
  rw [slots_eq_map, List.head?_map] at hb
  obtain ⟨f, hf, rfl⟩ := Option.map_eq_some_iff.mp ha
  obtain ⟨g, hg, rfl⟩ := Option.map_eq_some_iff.mp hb
  rcases h f hf g hg with hbool | hbool
  · rw [hbool]
    rfl
  · rw [hbool]
    exact Bool.and_false _

/-- Before the last run of a list there is no boolean. -/
theorem not_isBool_of_getLast?_rdropWhile {fs : List Field} {f : Field}
    (h : f ∈ (fs.rdropWhile isBool).getLast?) : f.isBool = false := by
  obtain ⟨hne, rfl⟩ := List.mem_getLast?_eq_getLast h
  exact Bool.eq_false_iff.mpr (List.rdropWhile_last_not isBool fs hne)

/-- Behind the first run of a list there is no boolean. -/
theorem not_isBool_of_head?_dropWhile {fs : List Field} {f : Field}
    (h : f ∈ (fs.dropWhile isBool).head?) : f.isBool = false := by
  have hnot := List.head?_dropWhile_not isBool fs
  rw [Option.mem_def.mp h] at hnot
  exact hnot

/-- A list consists of what stands before its last run, and of that run. -/
theorem exactSizeAll_trailing (fs : List Field) :
    exactSizeAll fs = exactSizeAll (fs.rdropWhile isBool) + runSize (trailingBools fs) := by
  have hrun : exactSizeAll (fs.rtakeWhile isBool) = runSize (trailingBools fs) :=
    exactSizeAll_bools fun f hf => List.mem_rtakeWhile_imp hf
  conv_lhs => rw [← List.rdropWhile_append_rtakeWhile (p := isBool) (l := fs)]
  rw [exactSizeAll_append, hrun]
  exact fun f hf g _ => Or.inl (not_isBool_of_getLast?_rdropWhile hf)

/-- A list consists of its first run, and of what stands behind it. -/
theorem exactSizeAll_leading (fs : List Field) :
    exactSizeAll fs = runSize (leadingBools fs) + exactSizeAll (fs.dropWhile isBool) := by
  have hrun : exactSizeAll (fs.takeWhile isBool) = runSize (leadingBools fs) :=
    exactSizeAll_bools fun f hf => List.mem_takeWhile_imp hf
  conv_lhs => rw [← List.takeWhile_append_dropWhile (p := isBool) (l := fs)]
  rw [exactSizeAll_append, hrun]
  exact fun f _ g hg => Or.inr (not_isBool_of_head?_dropWhile hg)

/-- Two lists put one behind the other consist of what stands before the last
    run of the first, of that run together with the first run of the second,
    and of what stands behind that. -/
theorem exactSizeAll_joined (xs ys : List Field) :
    exactSizeAll (xs ++ ys) = exactSizeAll (xs.rdropWhile isBool)
      + runSize (trailingBools xs + leadingBools ys) + exactSizeAll (ys.dropWhile isBool) := by
  have hwhole : xs ++ ys = xs.rdropWhile isBool
      ++ ((xs.rtakeWhile isBool ++ ys.takeWhile isBool) ++ ys.dropWhile isBool) := by
    rw [List.append_assoc, List.takeWhile_append_dropWhile, ← List.append_assoc,
      List.rdropWhile_append_rtakeWhile]
  have hrun : exactSizeAll (xs.rtakeWhile isBool ++ ys.takeWhile isBool)
      = runSize (trailingBools xs + leadingBools ys) := by
    rw [trailingBools, leadingBools, ← List.length_append]
    refine exactSizeAll_bools fun f hf => ?_
    rcases List.mem_append.mp hf with hf | hf
    · exact List.mem_rtakeWhile_imp hf
    · exact List.mem_takeWhile_imp hf
  rw [hwhole, exactSizeAll_append, exactSizeAll_append, hrun, Nat.add_assoc]
  · exact fun f _ g hg => Or.inr (not_isBool_of_head?_dropWhile hg)
  · exact fun f hf g _ => Or.inl (not_isBool_of_getLast?_rdropWhile hf)

/-- Only the size of the run at the cut is not the sum of its parts. -/
theorem exactSizeAll_add (xs ys : List Field) :
    exactSizeAll (xs ++ ys) + (runSize (trailingBools xs) + runSize (leadingBools ys))
      = exactSizeAll xs + exactSizeAll ys + runSize (trailingBools xs + leadingBools ys) := by
  rw [exactSizeAll_joined, exactSizeAll_trailing xs, exactSizeAll_leading ys]
  omega

/-! ## Computed sizes -/

/-- **STRUCTURES PUT ONE BEHIND THE OTHER**: lists of fields whose packed sizes
    together are below the bound of the sizes take as much together as apart,
    unless the first ends and the second starts with a boolean.  Then the
    whole takes a byte or two less, by exactly what the two runs of booleans
    at the cut save when they become one. -/
theorem packedSizeAll_append {xs ys : List Field}
    (h : packedSizeAll xs + packedSizeAll ys < 2 ^ 64) :
    (¬ (EndsInBool xs ∧ StartsInBool ys) →
        packedSizeAll (xs ++ ys) = packedSizeAll xs + packedSizeAll ys) ∧
      (EndsInBool xs ∧ StartsInBool ys →
        packedSizeAll (xs ++ ys) + savedBytes (trailingBools xs) (leadingBools ys)
            = packedSizeAll xs + packedSizeAll ys ∧
          (savedBytes (trailingBools xs) (leadingBools ys) = 1 ∨
            savedBytes (trailingBools xs) (leadingBools ys) = 2)) := by
  have hsize : ∀ fs, packedSizeAll fs = min (exactSizeAll fs) maxSize := fun fs =>
    packedSizeFrom_zero fun f _ => min_packedSize f
  have hadd := exactSizeAll_add xs ys
  have hmax : (2 : Nat) ^ 64 = maxSize + 1 := rfl
  rw [hsize xs, hsize ys, hmax] at h
  rw [hsize, hsize xs, hsize ys]
  constructor
  · intro hcut
    -- one of the two runs is empty, so the run at the cut is the other one
    have hruns : runSize (trailingBools xs + leadingBools ys)
        = runSize (trailingBools xs) + runSize (leadingBools ys) := by
      rw [← trailingBools_pos, ← leadingBools_pos] at hcut
      by_cases hxs : trailingBools xs = 0
      · rw [hxs, Nat.zero_add]
        exact (Nat.zero_add _).symm
      · have hys : leadingBools ys = 0 := by omega
        rw [hys]
        rfl
    omega
  · rintro ⟨hends, hstarts⟩
    have hlast := trailingBools_pos.mpr hends
    have hfirst := leadingBools_pos.mpr hstarts
    obtain ⟨hsaved, hbytes⟩ := savedBytes_eq hlast hfirst
    refine ⟨?_, hbytes⟩
    -- both lists have bytes, so neither has reached the bound
    have hxs : runSize (trailingBools xs) ≤ exactSizeAll xs := by
      rw [exactSizeAll_trailing xs]
      exact Nat.le_add_left ..
    have hys : runSize (leadingBools ys) ≤ exactSizeAll ys := by
      rw [exactSizeAll_leading ys]
      exact Nat.le_add_right ..
    have hlast := runSize_pos hlast
    have hfirst := runSize_pos hfirst
    omega

/-- A number of lamps, each a boolean. -/
def lamps (n : Nat) : List Field :=
  List.replicate n (.scalar ⟨"lamp", "", .bool, none⟩)

/-- Four lamps behind a word and five before an empty structure: the run of
    nine takes one byte less than the two runs. -/
theorem packedSizeAll_append_lamps :
    packedSizeAll (.scalar ⟨"code", "", .word, none⟩ :: lamps 4)
          + packedSizeAll (lamps 5 ++ [.struct "rest" "" []]) < 2 ^ 64 ∧
      packedSizeAll ((.scalar ⟨"code", "", .word, none⟩ :: lamps 4)
            ++ (lamps 5 ++ [.struct "rest" "" []])) + 1
        = packedSizeAll (.scalar ⟨"code", "", .word, none⟩ :: lamps 4)
          + packedSizeAll (lamps 5 ++ [.struct "rest" "" []]) := by
  have hbound : packedSizeAll (.scalar ⟨"code", "", .word, none⟩ :: lamps 4)
      + packedSizeAll (lamps 5 ++ [.struct "rest" "" []]) < 2 ^ 64 := by decide
  refine ⟨hbound, ?_⟩
  have hcut : EndsInBool (.scalar ⟨"code", "", .word, none⟩ :: lamps 4) ∧
      StartsInBool (lamps 5 ++ [.struct "rest" "" []]) :=
    ⟨⟨_, rfl, rfl⟩, ⟨_, rfl, rfl⟩⟩
  exact ((packedSizeAll_append hbound).2 hcut).1

end Field

end PlcTypes
