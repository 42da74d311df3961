import PlcTypes.Proofs.Field.WellFormed

/-! # Built trees

    The trees that the making of fields can give: every sequence of creating
    fields, giving them comments and defaults, and putting them into
    structures and definitions.  A built tree is well formed, and since every
    comment in it was given by the same function, all of them are on one
    line. -/

namespace PlcTypes

/-- A scalar field that can be made. -/
inductive ScalarField.Built : ScalarField → Prop where
  | create {name : String} {type : ScalarType} {f : ScalarField}
      (hf : ScalarField.create name type = .ok f) : Built f
  | withComment {f : ScalarField} (comment : String) (hf : Built f) :
      Built (f.withComment comment)
  | withDefault {f g : ScalarField} {value : String} (hf : Built f)
      (hg : f.withDefault value = .ok g) : Built g

/-- A string field that can be made. -/
inductive TextField.Built : TextField → Prop where
  | create {name : String} {capacity : Nat} {f : TextField}
      (hf : TextField.create name capacity = .ok f) : Built f
  | withComment {f : TextField} (comment : String) (hf : Built f) :
      Built (f.withComment comment)

/-- An array that can be made. -/
inductive ArrayField.Built : ArrayField → Prop where
  | create {name : String} {element : ScalarType} {low high : Bound} {f : ArrayField}
      (hf : ArrayField.create name element low high = .ok f) : Built f
  | withComment {f : ArrayField} (comment : String) (hf : Built f) :
      Built (f.withComment comment)
  | withDefault {f g : ArrayField} {value : String} (hf : Built f)
      (hg : f.withDefault value = .ok g) : Built g

/-- A field that can be made. -/
inductive Field.Built : Field → Prop where
  | scalar {f : ScalarField} (hf : f.Built) : Built (.scalar f)
  | text {f : TextField} (hf : f.Built) : Built (.text f)
  | array {f : ArrayField} (hf : f.Built) : Built (.array f)
  | struct {name : String} {members : List Field} {f : Field}
      (hmembers : ∀ m ∈ members, Built m) (hf : Field.createStruct name members = .ok f) :
      Built f
  | withComment {f : Field} (comment : String) (hf : Built f) : Built (f.withComment comment)

/-- A definition that can be made. -/
inductive TypeDefinition.Built : TypeDefinition → Prop where
  | create {name version : String} {members : List Field} {t : TypeDefinition}
      (hmembers : ∀ m ∈ members, m.Built)
      (ht : TypeDefinition.create name version members = .ok t) : Built t
  | withComment {t : TypeDefinition} (comment : String) (ht : Built t) :
      Built (t.withComment comment)

/-! ## Built trees are well formed -/

/-- A scalar that can be made is well formed. -/
theorem ScalarField.Built.isWellFormed {f : ScalarField} (h : f.Built) : f.IsWellFormed := by
  induction h with
  | create hf => exact isWellFormed_create hf
  | withComment comment hf ih => exact ih.withComment comment
  | withDefault hf hg ih => exact ih.withDefault hg

/-- A string field that can be made is well formed. -/
theorem TextField.Built.isWellFormed {f : TextField} (h : f.Built) : f.IsWellFormed := by
  induction h with
  | create hf => exact isWellFormed_create hf
  | withComment comment hf ih => exact ih.withComment comment

/-- An array that can be made is well formed. -/
theorem ArrayField.Built.isWellFormed {f : ArrayField} (h : f.Built) : f.IsWellFormed := by
  induction h with
  | create hf => exact isWellFormed_create hf
  | withComment comment hf ih => exact ih.withComment comment
  | withDefault hf hg ih => exact ih.withDefault hg

namespace Field

/-- A well-formed field whose comment is on one line. -/
def IsStored (f : Field) : Prop :=
  f.IsWellFormed ∧ IsOneLine f.comment

/-- A field is stored as well with another comment, which is brought to one line. -/
theorem IsStored.withComment {f : Field} (h : f.IsStored) (comment : String) :
    (f.withComment comment).IsStored := by
  obtain ⟨hwf, -⟩ := h
  cases f with
  | scalar f =>
      exact ⟨ScalarField.IsWellFormed.withComment hwf comment, isOneLine_oneLine comment⟩
  | text f => exact ⟨TextField.IsWellFormed.withComment hwf comment, isOneLine_oneLine comment⟩
  | array f => exact ⟨ArrayField.IsWellFormed.withComment hwf comment, isOneLine_oneLine comment⟩
  | struct name old members =>
      exact ⟨⟨hwf.1, (isOneLine_oneLine comment).isRemark⟩, isOneLine_oneLine comment⟩

/-- The nodes inside a field do not depend on the comment of the field. -/
theorem mem_nodes_withComment {f g : Field} {comment : String}
    (h : g ∈ (f.withComment comment).nodes) : g = f.withComment comment ∨ g ∈ f.nodes := by
  cases f with
  | scalar f => exact Or.inl (List.mem_singleton.mp h)
  | text f => exact Or.inl (List.mem_singleton.mp h)
  | array f => exact Or.inl (List.mem_singleton.mp h)
  | struct name old members =>
      refine (mem_nodes_struct.mp h).imp_right fun hg => ?_
      exact mem_nodes_struct.mpr (Or.inr hg)

/-- All nodes of a field that can be made are well formed, with comments on one
    line. -/
theorem Built.isStored {f : Field} (h : f.Built) : ∀ g ∈ f.nodes, g.IsStored := by
  induction h with
  | @scalar f hf =>
      intro g hg
      obtain rfl := List.mem_singleton.mp hg
      exact ⟨hf.isWellFormed, hf.isWellFormed.comment⟩
  | @text f hf =>
      intro g hg
      obtain rfl := List.mem_singleton.mp hg
      exact ⟨hf.isWellFormed, hf.isWellFormed.comment⟩
  | @array f hf =>
      intro g hg
      obtain rfl := List.mem_singleton.mp hg
      exact ⟨hf.isWellFormed, hf.isWellFormed.comment⟩
  | struct hmembers hf ih =>
      obtain ⟨stored, hname, hf⟩ := bind_eq_ok.mp hf
      obtain rfl := Except.ok.inj hf
      intro g hg
      rcases mem_nodes_struct.mp hg with rfl | ⟨m, hm, hg⟩
      · exact ⟨⟨isNameText_of_nameOf hname, (isOneLine_oneLine "").isRemark⟩,
          isOneLine_oneLine ""⟩
      · exact ih m hm g hg
  | @withComment f comment hf ih =>
      intro g hg
      rcases mem_nodes_withComment hg with rfl | hg
      · exact (ih f (mem_nodes_self f)).withComment comment
      · exact ih g hg

end Field

namespace TypeDefinition

/-- **BUILT DEFINITIONS ARE WELL FORMED**, and every comment in them is on one
    line. -/
theorem Built.isStored {t : TypeDefinition} (h : t.Built) :
    t.IsWellFormed ∧ ∀ f ∈ t.nodes, IsOneLine f.comment := by
  induction h with
  | @create name version members t hmembers ht =>
      have hstored : ∀ f ∈ Field.nodesAll members, f.IsStored := by
        intro f hf
        obtain ⟨m, hm, hf⟩ := Field.mem_nodesAll.mp hf
        exact (hmembers m hm).isStored f hf
      have hwf := isWellFormed_create ht fun f hf => (hstored f hf).1
      have hnodes : t.nodes = Field.nodesAll members :=
        congrArg Field.nodesAll (members_of_create ht)
      refine ⟨hwf, fun f hf => ?_⟩
      rw [hnodes] at hf
      exact (hstored f hf).2
  | withComment comment ht ih => exact ⟨ih.1.withComment comment, ih.2⟩

end TypeDefinition

end PlcTypes
