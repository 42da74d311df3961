import PlcTypes.Field.Basic

/-! # The tree of a field

    The fields at every depth of a tree are its nodes.  What is to be shown
    of a whole tree is shown of the fields without members and then of a
    structure from its members; `Field.induction` is that principle, and each
    function on trees has one equation for either case. -/

namespace PlcTypes

namespace Field

/-- Whether a field has no members of its own, nor could have. -/
def isPlain : Field → Bool
  | scalar _ | text _ | array _ => true
  | struct _ _ _ => false

mutual

/-- What holds of fields without members, and of a structure when it holds of
    its members, holds of all fields. -/
theorem induction {P : Field → Prop} (plain : ∀ f : Field, f.isPlain = true → P f)
    (struct : ∀ name comment members, (∀ f ∈ members, P f) → P (.struct name comment members)) :
    ∀ f : Field, P f
  | .scalar f => plain (.scalar f) rfl
  | .text f => plain (.text f) rfl
  | .array f => plain (.array f) rfl
  | .struct name comment members =>
      struct name comment members (induction_all plain struct members)

theorem induction_all {P : Field → Prop} (plain : ∀ f : Field, f.isPlain = true → P f)
    (struct : ∀ name comment members, (∀ f ∈ members, P f) → P (.struct name comment members)) :
    ∀ fs : List Field, ∀ f ∈ fs, P f
  | [], _, hf => nomatch hf
  | g :: gs, f, hf => by
      rcases List.mem_cons.mp hf with hf | hf
      · rw [hf]
        exact induction plain struct g
      · exact induction_all plain struct gs f hf

end

/-! ## Nodes -/

mutual

/-- A field and all fields inside it, each before those inside it. -/
def nodes : Field → List Field
  | scalar f => [scalar f]
  | text f => [text f]
  | array f => [array f]
  | struct name comment members => struct name comment members :: nodesAll members

/-- The fields of a list and all fields inside them. -/
def nodesAll : List Field → List Field
  | [] => []
  | f :: fs => nodes f ++ nodesAll fs

end

theorem nodes_plain {f : Field} (h : f.isPlain = true) : f.nodes = [f] := by
  cases f with
  | scalar f => rfl
  | text f => rfl
  | array f => rfl
  | struct name comment members => exact nomatch h

/-- The nodes of several trees are the nodes of each. -/
theorem mem_nodesAll {g : Field} {fs : List Field} :
    g ∈ nodesAll fs ↔ ∃ f ∈ fs, g ∈ f.nodes := by
  induction fs with
  | nil => simp [nodesAll]
  | cons f fs ih => simp [nodesAll, ih]

/-- The nodes of a structure are itself and the nodes of its members. -/
theorem mem_nodes_struct {g : Field} {name comment : String} {members : List Field} :
    g ∈ (struct name comment members).nodes
      ↔ g = struct name comment members ∨ ∃ f ∈ members, g ∈ f.nodes := by
  rw [nodes, List.mem_cons, mem_nodesAll]

/-- The nodes of the members of a field are nodes of the field. -/
theorem mem_nodes_of_mem_members {f g : Field} (h : g ∈ nodesAll f.members) : g ∈ f.nodes := by
  cases f with
  | scalar f | text f | array f => exact nomatch h
  | struct name comment members => exact mem_nodes_struct.mpr (Or.inr (mem_nodesAll.mp h))

/-- Every field is one of its nodes. -/
theorem mem_nodes_self (f : Field) : f ∈ f.nodes := by
  cases f <;> simp [nodes]

end Field

/-- The fields of a definition at every depth. -/
def TypeDefinition.nodes (t : TypeDefinition) : List Field :=
  Field.nodesAll t.members

end PlcTypes
