import Mathlib.Data.List.Basic
import PlcTypes.Leaf
import PlcTypes.Proofs.Field.Tree

/-! # One walk over the tree

    Flattening carries a path down the tree and gives each leaf with it;
    listing the leaves is a recursion of its own that carries nothing.  Both
    take a list field by field, so what holds of the fields holds of the list,
    and on one field they are compared along the tree, with the path above it
    kept general: a structure hands its members a longer path.

    The path above a field is only put in front.  What is found below it, in
    which order, and under which rest of a path does not depend on it. -/

namespace PlcTypes

namespace FieldPath

/-- The path that leads on from the end of another one. -/
instance : Append FieldPath := ⟨fun p q => ⟨p.segments ++ q.segments⟩⟩

/-- A segment that is added to a path is added behind what stands above it. -/
theorem append_nest (p q : FieldPath) (name : String) : p ++ q.nest name = (p ++ q).nest name :=
  congrArg FieldPath.mk (List.append_assoc p.segments q.segments [name]).symm

theorem append_root (p : FieldPath) : p ++ root = p :=
  congrArg FieldPath.mk (List.append_nil p.segments)

/-- Without its first segment a path is what follows it. -/
theorem popRoot_single_append (name : String) (p : FieldPath) : (single name ++ p).popRoot = p :=
  rfl

end FieldPath

namespace Field

/-! ## One field -/

/-- A leaf stands under its own name. -/
theorem flatten_toField (base : FieldPath) (leaf : Leaf) :
    flatten base leaf.toField = [(base.nest leaf.name, leaf)] := by
  cases leaf <;> rfl

/-- The elements of an array stand under its name. -/
theorem flatten_array (base : FieldPath) (a : ArrayField) :
    flatten base (.array a)
      = a.elements.map fun e => ((base.nest a.name).nest e.name, .scalar e) := rfl

/-- The members of a structure stand under its name. -/
theorem flatten_struct (base : FieldPath) (name comment : String) (members : List Field) :
    flatten base (.struct name comment members) = flattenAll (base.nest name) members := rfl

/-! ## Field by field -/

theorem flattenAll_eq_flatMap (base : FieldPath) (fs : List Field) :
    flattenAll base fs = fs.flatMap (flatten base) := by
  induction fs with
  | nil => rfl
  | cons f fs ih => rw [flattenAll, List.flatMap_cons, ih]

theorem leavesAll_eq_flatMap (fs : List Field) : leavesAll fs = fs.flatMap leaves := by
  induction fs with
  | nil => rfl
  | cons f fs ih => rw [leavesAll, List.flatMap_cons, ih]

/-- What is listed for some fields is listed for one of them. -/
theorem mem_flattenAll {base p : FieldPath} {leaf : Leaf} {fs : List Field} :
    (p, leaf) ∈ flattenAll base fs ↔ ∃ f ∈ fs, (p, leaf) ∈ flatten base f := by
  rw [flattenAll_eq_flatMap, List.mem_flatMap]

/-- The leaves of two lists, one behind the other, are those of the first and
    then those of the second. -/
theorem flattenAll_append (base : FieldPath) (xs ys : List Field) :
    flattenAll base (xs ++ ys) = flattenAll base xs ++ flattenAll base ys := by
  rw [flattenAll_eq_flatMap, List.flatMap_append, ← flattenAll_eq_flatMap,
    ← flattenAll_eq_flatMap]

/-- A field is flattened as the list that holds only this field. -/
theorem flattenAll_singleton (base : FieldPath) (f : Field) :
    flattenAll base [f] = flatten base f := by
  rw [flattenAll_eq_flatMap, List.flatMap_singleton]

/-! ## The leaves alone -/

/-- Flattening lists the leaves of a field in their order. -/
theorem map_snd_flatten (f : Field) : ∀ base, (flatten base f).map Prod.snd = leaves f := by
  induction f using Field.induction with
  | plain f hplain =>
      intro base
      cases f with
      | scalar f | text f => rfl
      | array a =>
          rw [flatten_array, List.map_map]
          rfl
      | struct name comment members => exact nomatch hplain
  | struct name comment members ih =>
      intro base
      rw [flatten_struct, leaves, flattenAll_eq_flatMap, leavesAll_eq_flatMap, List.map_flatMap]
      exact List.flatMap_congr fun f hf => ih f hf (base.nest name)

/-- Leaves are listed in the order in which they stand, whatever path is above
    them. -/
theorem map_snd_flattenAll (base : FieldPath) (fs : List Field) :
    (flattenAll base fs).map Prod.snd = leavesAll fs := by
  rw [flattenAll_eq_flatMap, leavesAll_eq_flatMap, List.map_flatMap]
  exact List.flatMap_congr fun f _ => f.map_snd_flatten base

/-! ## The path above -/

/-- A leaf under its path, seen from further above. -/
def under (base : FieldPath) (e : FieldPath × Leaf) : FieldPath × Leaf :=
  (base ++ e.1, e.2)

/-- What is above the path that a field is flattened under is put in front of
    all paths. -/
theorem flatten_append_path (base : FieldPath) (f : Field) :
    ∀ q, flatten (base ++ q) f = (flatten q f).map (under base) := by
  induction f using Field.induction with
  | plain f hplain =>
      intro q
      cases f with
      | scalar f | text f =>
          show [((base ++ q).nest f.name, _)] = [(base ++ q.nest f.name, _)]
          rw [FieldPath.append_nest]
      | array a =>
          rw [flatten_array, flatten_array, List.map_map]
          refine List.map_congr_left fun e _ => ?_
          show _ = (base ++ (q.nest a.name).nest e.name, _)
          rw [FieldPath.append_nest, FieldPath.append_nest]
      | struct name comment members => exact nomatch hplain
  | struct name comment members ih =>
      -- the members are flattened under a longer path, also with the base in front
      intro q
      rw [flatten_struct, flatten_struct, ← FieldPath.append_nest, flattenAll_eq_flatMap,
        flattenAll_eq_flatMap, List.map_flatMap]
      exact List.flatMap_congr fun f hf => ih f hf (q.nest name)

/-- A path above some fields is put before the paths to their leaves. -/
theorem flattenAll_append_path (base q : FieldPath) (fs : List Field) :
    flattenAll (base ++ q) fs = (flattenAll q fs).map (under base) := by
  rw [flattenAll_eq_flatMap, flattenAll_eq_flatMap, List.map_flatMap]
  exact List.flatMap_congr fun f _ => f.flatten_append_path base q

/-! ## The name at the end -/

/-- The path of a leaf ends with the name of the leaf. -/
theorem getLast?_of_mem_flatten {f : Field} : ∀ {base : FieldPath} {e : FieldPath × Leaf},
    e ∈ flatten base f → e.1.segments.getLast? = some e.2.name := by
  induction f using Field.induction with
  | plain f hplain =>
      intro base e he
      cases f with
      | scalar f | text f =>
          obtain rfl := List.mem_singleton.mp he
          exact List.getLast?_concat
      | array a =>
          obtain ⟨element, -, rfl⟩ := List.mem_map.mp he
          exact List.getLast?_concat
      | struct name comment members => exact nomatch hplain
  | struct name comment members ih =>
      intro base e he
      obtain ⟨f, hf, he⟩ := mem_flattenAll.mp he
      exact ih f hf he

end Field

/-! ## All ways to flatten -/

/-- **ALL WAYS TO FLATTEN ARE ONE WALK**: a path to start from is put in front
    of the paths from the root and changes nothing else, a list is flattened
    piece by piece and a field as the list of it alone, the leaves without
    their paths are the leaves that are listed with them, in the same order,
    and the last segment of each path is the name of its leaf.  A definition,
    its structure, and that structure as one field from the root on have the
    same leaves under the same paths; the paths inside the definition are
    these without their first segment. -/
theorem Field.flatten_walk :
    (∀ p fs, flattenAll p fs = (flattenAll .root fs).map fun e => (p ++ e.1, e.2)) ∧
      (∀ p xs ys, flattenAll p (xs ++ ys) = flattenAll p xs ++ flattenAll p ys) ∧
      (∀ p f, flattenAll p [f] = flatten p f) ∧
      (∀ p fs, leavesAll fs = (flattenAll p fs).map Prod.snd) ∧
      (∀ p fs, (flattenAll p fs).map (fun e => e.1.segments.getLast?)
        = (flattenAll p fs).map fun e => some e.2.name) ∧
      ∀ t : TypeDefinition, t.toStruct.flattenMembers = t.flatten ∧
        flatten .root t.toStruct = t.flatten ∧
        t.flattenRelative = t.flatten.map fun e => (e.1.popRoot, e.2) := by
  have hroot : ∀ p fs, flattenAll p fs = (flattenAll .root fs).map (under p) := by
    intro p fs
    rw [← flattenAll_append_path, FieldPath.append_root]
  refine ⟨hroot, flattenAll_append, flattenAll_singleton,
    fun p fs => (map_snd_flattenAll p fs).symm, ?_, ?_⟩
  · intro p fs
    refine List.map_congr_left fun e he => ?_
    obtain ⟨f, -, he⟩ := mem_flattenAll.mp he
    exact getLast?_of_mem_flatten he
  · intro t
    refine ⟨rfl, rfl, ?_⟩
    -- the name of the definition is put in front and taken off again
    have hback : ((fun e : FieldPath × Leaf => (e.1.popRoot, e.2)) ∘ under (.single t.name)) = id :=
      funext fun e => Prod.ext (FieldPath.popRoot_single_append t.name e.1) rfl
    rw [TypeDefinition.flatten, hroot, List.map_map, hback, List.map_id]
    rfl

end PlcTypes
