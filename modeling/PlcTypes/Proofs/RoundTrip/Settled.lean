import PlcTypes.Proofs.Field.WellFormed

/-! # Settled trees

    A structure that is read from its own lines has its comment brought to
    one line.  The structure that stands for a reference has not: it takes
    over its comment from a declaration or from another heading.  So what is
    written for such a tree is read back with those comments settled.

    A well-formed tree is settled already exactly when no comment in it holds
    a carriage return. -/

namespace PlcTypes

open Text

namespace Field

mutual

/-- The field with the comments of all structures in it on one line. -/
def settled : Field → Field
  | scalar f => scalar f
  | text f => text f
  | array f => array f
  | struct name comment members => struct name (oneLine comment) (settledAll members)

/-- The fields with the comments of all structures in them on one line. -/
def settledAll : List Field → List Field
  | [] => []
  | f :: fs => settled f :: settledAll fs

end

theorem settledAll_eq_map (fs : List Field) : settledAll fs = fs.map settled := by
  induction fs with
  | nil => rfl
  | cons f fs ih => rw [settledAll, List.map_cons, ih]

/-- Only structures have a comment that is settled. -/
theorem settled_plain {f : Field} (h : f.isPlain = true) : f.settled = f := by
  cases f with
  | scalar f => rfl
  | text f => rfl
  | array f => rfl
  | struct name comment members => exact nomatch h

/-- Settling some fields settles the fields inside them. -/
theorem nodesAll_settledAll {fs : List Field}
    (h : ∀ f ∈ fs, f.settled.nodes = f.nodes.map settled) :
    nodesAll (settledAll fs) = (nodesAll fs).map settled := by
  induction fs with
  | nil => rfl
  | cons f fs ih =>
      rw [settledAll, nodesAll, nodesAll, List.map_append, h f (by simp),
        ih fun g hg => h g (by simp [hg])]

/-- Settling a tree settles each of its nodes. -/
theorem nodes_settled (f : Field) : f.settled.nodes = f.nodes.map settled := by
  induction f using Field.induction with
  | plain f hf => rw [settled_plain hf, nodes_plain hf, List.map_singleton, settled_plain hf]
  | struct name comment members ih =>
      rw [settled, nodes, nodes, List.map_cons, settled, nodesAll_settledAll ih]

variable {f : Field}

/-- A well-formed field stays well formed: a comment on one line can follow a
    declaration. -/
theorem IsWellFormed.settled (h : f.IsWellFormed) : f.settled.IsWellFormed := by
  cases f with
  | scalar f => exact h
  | text f => exact h
  | array f => exact h
  | struct name comment members => exact ⟨h.1, (isOneLine_oneLine comment).isRemark⟩

/-- Every comment in a settled tree is on one line. -/
theorem IsWellFormed.isOneLine_settled (h : f.IsWellFormed) : IsOneLine f.settled.comment := by
  cases f with
  | scalar f => exact ScalarField.IsWellFormed.comment h
  | text f => exact TextField.IsWellFormed.comment h
  | array f => exact ArrayField.IsWellFormed.comment h
  | struct name comment members => exact isOneLine_oneLine comment

/-- Every field has a comment that can follow its declaration. -/
theorem IsWellFormed.remark (h : f.IsWellFormed) : IsRemark f.comment := by
  cases f with
  | scalar f => exact (ScalarField.IsWellFormed.comment h).isRemark
  | text f => exact (TextField.IsWellFormed.comment h).isRemark
  | array f => exact (ArrayField.IsWellFormed.comment h).isRemark
  | struct name comment members => exact h.2

/-- A tree is settled when all comments in it are on one line. -/
theorem settled_eq_self (h : ∀ g ∈ f.nodes, IsOneLine g.comment) : f.settled = f := by
  induction f using Field.induction with
  | plain f hf => exact settled_plain hf
  | struct name comment members ih =>
      have hcomment : IsOneLine comment := h _ (mem_nodes_self _)
      have hall : members.map Field.settled = members.map id :=
        List.map_congr_left fun f hf =>
          ih f hf fun g hg => h g (mem_nodes_struct.mpr (Or.inr ⟨f, hf, hg⟩))
      rw [Field.settled, hcomment.oneLine_eq, settledAll_eq_map, hall, List.map_id]

end Field

namespace TypeDefinition

variable {t : TypeDefinition}

/-- The definition with the comments of all structures in it on one line. -/
def settled (t : TypeDefinition) : TypeDefinition :=
  { t with members := Field.settledAll t.members }

theorem nodes_settled (t : TypeDefinition) : t.settled.nodes = t.nodes.map Field.settled :=
  Field.nodesAll_settledAll fun f _ => f.nodes_settled

/-- A well-formed definition stays well formed. -/
theorem IsWellFormed.settled (h : t.IsWellFormed) : t.settled.IsWellFormed := by
  refine { h with members := fun f hf => ?_ }
  rw [nodes_settled] at hf
  obtain ⟨g, hg, rfl⟩ := List.mem_map.mp hf
  exact (h.members g hg).settled

/-- A definition is settled if all comments in it are on one line. -/
theorem settled_eq_self (h : ∀ f ∈ t.nodes, IsOneLine f.comment) : t.settled = t := by
  have hall : t.members.map Field.settled = t.members.map id :=
    List.map_congr_left fun f hf =>
      Field.settled_eq_self fun g hg => h g (Field.mem_nodesAll.mpr ⟨f, hf, hg⟩)
  unfold TypeDefinition.settled
  rw [Field.settledAll_eq_map, hall, List.map_id]

/-- A well-formed definition is settled when no comment in it holds a carriage
    return, and only then. -/
theorem IsWellFormed.settled_eq_self_iff (h : t.IsWellFormed) :
    t.settled = t ↔ ∀ f ∈ t.nodes, '\r' ∉ f.comment.toList := by
  constructor
  · intro hsettled f hf
    rw [← hsettled, nodes_settled] at hf
    obtain ⟨g, hg, rfl⟩ := List.mem_map.mp hf
    intro hr
    exact absurd ((h.members g hg).isOneLine_settled.breakless _ hr) (by decide)
  · intro hr
    exact settled_eq_self fun f hf =>
      (h.members f hf).remark.isOneLine_iff.mpr (hr f hf)

end TypeDefinition

end PlcTypes
