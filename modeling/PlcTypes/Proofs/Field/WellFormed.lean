import PlcTypes.Field.Build
import PlcTypes.Proofs.Field.Tree
import PlcTypes.Proofs.Name

/-! # Well-formed trees

    What the making of fields promises, said of the fields alone.  A field is
    well formed when its own strings are in their stored form and its numbers
    in their bounds; a tree is well formed when every field at every depth
    is.  The fields at every depth are listed by `nodes`.

    Each way to make a field gives a well-formed one.  A structure is held to
    less than the other fields: its comment is trimmed and holds no line feed,
    but it may hold a carriage return, since the comment of a reference is
    taken over as it stands. -/

namespace PlcTypes

open Text

/-- A sequence of two steps succeeds when both do. -/
theorem bind_eq_ok {α β : Type} {x : Except Error α} {f : α → Except Error β} {b : β} :
    x >>= f = .ok b ↔ ∃ a, x = .ok a ∧ f a = .ok b := by
  cases x with
  | error e =>
      constructor
      · exact nofun
      · rintro ⟨a, ha, -⟩
        exact nomatch ha
  | ok a =>
      constructor
      · exact fun h => ⟨a, rfl, h⟩
      · rintro ⟨a', ha, h⟩
        obtain rfl := Except.ok.inj ha
        exact h

/-! ## Single fields -/

/-- A comment that can follow a declaration: trimmed and without line feeds. -/
structure IsRemark (s : String) : Prop where
  trimmed : IsTrimmed s.toList
  unbroken : '\n' ∉ s.toList

/-- A comment on one line can follow a declaration. -/
theorem IsOneLine.isRemark {s : String} (h : IsOneLine s) : IsRemark s :=
  ⟨h.trimmed, fun hn => absurd (h.breakless _ hn) (by decide)⟩

/-- A remark is on one line when it holds no carriage return. -/
theorem IsRemark.isOneLine_iff {s : String} (h : IsRemark s) :
    IsOneLine s ↔ '\r' ∉ s.toList := by
  constructor
  · intro hs hr
    exact absurd (hs.breakless _ hr) (by decide)
  · intro hr
    refine ⟨h.trimmed, fun c hc => ?_⟩
    cases hb : isLineBreak c with
    | false => rfl
    | true =>
        unfold isLineBreak at hb
        rw [Bool.or_eq_true, beq_iff_eq, beq_iff_eq] at hb
        rcases hb with rfl | rfl
        · exact absurd hc hr
        · exact absurd hc h.unbroken

/-- A scalar with stored strings, of a type that needs no length. -/
structure ScalarField.IsWellFormed (f : ScalarField) : Prop where
  name : IsNameText f.name
  comment : IsOneLine f.comment
  sized : f.type.needsLength = false
  initial : ∀ v, f.initial = some v → IsInitial v

/-- A string field with stored strings that is not too long. -/
structure TextField.IsWellFormed (f : TextField) : Prop where
  name : IsNameText f.name
  comment : IsOneLine f.comment
  fits : f.capacity + 2 ≤ maxFieldBytes

/-- An array with stored strings, of a type that needs no length, whose ends are
    64-bit numbers in order and whose elements are not too many. -/
structure ArrayField.IsWellFormed (f : ArrayField) : Prop where
  name : IsNameText f.name
  comment : IsOneLine f.comment
  sized : f.element.needsLength = false
  start : isIndex f.start = true
  stop : isIndex f.stop = true
  ordered : f.start ≤ f.stop
  fits : f.count * f.element.bytes ≤ maxFieldBytes
  initial : ∀ v, f.initial = some v → IsInitial v

/-- What a field is held to itself, the fields inside it apart. -/
def Field.IsWellFormed : Field → Prop
  | scalar f => f.IsWellFormed
  | text f => f.IsWellFormed
  | array f => f.IsWellFormed
  | struct name comment _ => IsNameText name ∧ IsRemark comment

/-- Whether the last index of an array is an index as well.  It is not when
    the index after it is the least of all. -/
def Field.HasLast (f : Field) : Prop :=
  ∀ a, f = array a → isIndex (a.stop - 1) = true

/-- Only arrays have a last index. -/
theorem Field.hasLast_of_ne {f : Field} (h : ∀ a, f ≠ array a) : f.HasLast :=
  fun a ha => absurd ha (h a)

/-! ## Definitions -/

/-- A definition with stored strings, every field of which is well formed. -/
structure TypeDefinition.IsWellFormed (t : TypeDefinition) : Prop where
  name : IsNameText t.name
  version : IsVersion t.version
  comment : IsOneLine t.comment
  members : ∀ f ∈ t.nodes, f.IsWellFormed

/-! ## Making fields -/

/-- A type that has passed the check needs no length. -/
theorem needsLength_of_requireSized {type : ScalarType} {field : String}
    (h : requireSized type field = .ok ()) : type.needsLength = false := by
  unfold requireSized at h
  split at h
  · exact nomatch h
  · next hsized => exact Bool.eq_false_iff.mpr hsized

/-- A type that needs no length passes the check, whatever field it is for. -/
theorem requireSized_eq {t : ScalarType} (h : t.needsLength = false) (field : String) :
    requireSized t field = .ok () := by
  unfold requireSized
  rw [h]
  rfl

namespace ScalarField

/-- A scalar is made without a comment and without a default. -/
theorem isWellFormed_create {name : String} {type : ScalarType} {f : ScalarField}
    (h : create name type = .ok f) : f.IsWellFormed := by
  obtain ⟨stored, hname, h⟩ := bind_eq_ok.mp h
  obtain ⟨⟨⟩, hsized, h⟩ := bind_eq_ok.mp h
  obtain rfl := Except.ok.inj h
  exact {
    name := isNameText_of_nameOf hname
    comment := isOneLine_oneLine ""
    sized := needsLength_of_requireSized hsized
    initial := nofun }

theorem IsWellFormed.withComment {f : ScalarField} (h : f.IsWellFormed) (comment : String) :
    (f.withComment comment).IsWellFormed :=
  { h with comment := isOneLine_oneLine comment }

/-- A default is taken only if it is in its stored form. -/
theorem IsWellFormed.withDefault {f g : ScalarField} (h : f.IsWellFormed) {value : String}
    (hg : f.withDefault value = .ok g) : g.IsWellFormed := by
  obtain ⟨initial, hinitial, hg⟩ := bind_eq_ok.mp hg
  obtain rfl := Except.ok.inj hg
  exact { h with
    initial := by
      rintro v rfl
      exact isInitial_of_defaultOf hinitial }

end ScalarField

namespace TextField

/-- A string is made if its length has passed the check. -/
theorem isWellFormed_create {name : String} {capacity : Nat} {f : TextField}
    (h : create name capacity = .ok f) : f.IsWellFormed := by
  obtain ⟨stored, hname, h⟩ := bind_eq_ok.mp h
  dsimp only at h
  split at h
  · exact nomatch h
  · next hfits =>
      obtain rfl := Except.ok.inj h
      exact {
        name := isNameText_of_nameOf hname
        comment := isOneLine_oneLine ""
        fits := Nat.le_of_not_lt hfits }

theorem IsWellFormed.withComment {f : TextField} (h : f.IsWellFormed) (comment : String) :
    (f.withComment comment).IsWellFormed :=
  { h with comment := isOneLine_oneLine comment }

end TextField

/-- A number that has passed the check is a 64-bit number, and is not changed. -/
theorem isIndex_of_checkIndex {field : String} {n i : Int}
    (h : checkIndex field n = .ok i) : isIndex i = true ∧ i = n := by
  unfold checkIndex at h
  split at h
  · next hn =>
      obtain rfl := Except.ok.inj h
      exact ⟨hn, rfl⟩
  · exact nomatch h

/-- A 64-bit number passes the check, whatever field it is for. -/
theorem checkIndex_eq {n : Int} (h : isIndex n = true) (field : String) :
    checkIndex field n = .ok n :=
  if_pos h

/-- The first index is a 64-bit number, also when it is one more than the bound. -/
theorem Bound.isIndex_first {field : String} {b : Bound} {i : Int}
    (h : b.first field = .ok i) : isIndex i = true := by
  cases b with
  | included n => exact (isIndex_of_checkIndex h).1
  | excluded n => exact (isIndex_of_checkIndex h).1
  | unbounded => exact nomatch h

/-- The index after the last is a 64-bit number, also when it is one more than the
    bound. -/
theorem Bound.isIndex_afterLast {field : String} {b : Bound} {i : Int}
    (h : b.afterLast field = .ok i) : isIndex i = true := by
  cases b with
  | included n => exact (isIndex_of_checkIndex h).1
  | excluded n => exact (isIndex_of_checkIndex h).1
  | unbounded => exact nomatch h

namespace ArrayField

/-- What is known of an array that has been made: how each part of it comes
    from what it is made of, and that its range has passed the three tests. -/
structure IsMade (name : String) (element : ScalarType) (low high : Bound)
    (f : ArrayField) : Prop where
  stored : nameOf name = .ok f.name
  type : f.element = element
  sized : element.needsLength = false
  start : low.first f.name = .ok f.start
  stop : high.afterLast f.name = .ok f.stop
  length : isIndex (f.stop - f.start) = true
  ordered : f.start ≤ f.stop
  fits : f.count * element.bytes ≤ maxFieldBytes
  comment : f.comment = ""
  initial : f.initial = none

/-- An array is made when nothing is wrong with it, and only then. -/
theorem create_eq_ok {name : String} {element : ScalarType} {low high : Bound}
    {f : ArrayField} : create name element low high = .ok f ↔ IsMade name element low high f := by
  constructor
  · intro h
    obtain ⟨stored, hname, h⟩ := bind_eq_ok.mp h
    obtain ⟨⟨⟩, hsized, h⟩ := bind_eq_ok.mp h
    obtain ⟨start, hstart, h⟩ := bind_eq_ok.mp h
    obtain ⟨stop, hstop, h⟩ := bind_eq_ok.mp h
    obtain ⟨length, hlength, h⟩ := bind_eq_ok.mp h
    obtain ⟨hindex, rfl⟩ := isIndex_of_checkIndex hlength
    -- the two tests that are left: the range is not reversed, and it fits
    dsimp only at h
    split at h
    · exact nomatch h
    · next hordered =>
        split at h
        · exact nomatch h
        · next hfits =>
            obtain rfl := Except.ok.inj h
            exact {
              stored := hname
              type := rfl
              sized := needsLength_of_requireSized hsized
              start := hstart
              stop := hstop
              length := hindex
              ordered := by
                show start ≤ stop
                omega
              fits := Nat.le_of_not_lt hfits
              comment := rfl
              initial := rfl }
  · intro h
    refine bind_eq_ok.mpr ⟨f.name, h.stored, ?_⟩
    refine bind_eq_ok.mpr ⟨(), requireSized_eq h.sized f.name, ?_⟩
    refine bind_eq_ok.mpr ⟨f.start, h.start, ?_⟩
    refine bind_eq_ok.mpr ⟨f.stop, h.stop, ?_⟩
    refine bind_eq_ok.mpr ⟨f.stop - f.start, checkIndex_eq h.length f.name, ?_⟩
    have hordered : ¬ f.stop - f.start < 0 := by
      have := h.ordered
      omega
    have hfits : ¬ (f.stop - f.start).toNat * element.bytes > maxFieldBytes :=
      Nat.not_lt.mpr h.fits
    dsimp only
    rw [if_neg hordered, if_neg hfits, ← h.type, ← h.comment, ← h.initial]
    rfl

/-- The tests that an array has passed are those of a well-formed one. -/
theorem isWellFormed_create {name : String} {element : ScalarType} {low high : Bound}
    {f : ArrayField} (h : create name element low high = .ok f) : f.IsWellFormed := by
  have hmade := create_eq_ok.mp h
  obtain rfl := hmade.type
  exact {
    name := isNameText_of_nameOf hmade.stored
    comment := by
      rw [hmade.comment]
      exact isOneLine_oneLine ""
    sized := hmade.sized
    start := Bound.isIndex_first hmade.start
    stop := Bound.isIndex_afterLast hmade.stop
    ordered := hmade.ordered
    fits := hmade.fits
    initial := by
      rw [hmade.initial]
      exact nofun }

theorem IsWellFormed.withComment {f : ArrayField} (h : f.IsWellFormed) (comment : String) :
    (f.withComment comment).IsWellFormed :=
  { h with comment := isOneLine_oneLine comment }

theorem IsWellFormed.withDefault {f g : ArrayField} (h : f.IsWellFormed) {value : String}
    (hg : f.withDefault value = .ok g) : g.IsWellFormed := by
  obtain ⟨initial, hinitial, hg⟩ := bind_eq_ok.mp hg
  obtain rfl := Except.ok.inj hg
  exact { h with
    initial := by
      rintro v rfl
      exact isInitial_of_defaultOf hinitial }

end ArrayField

/-- A definition is made from a name that can be stored and a version on one
    line, whatever its members are. -/
theorem TypeDefinition.create_eq_ok {name version : String} {members : List Field}
    {t : TypeDefinition} :
    create name version members = .ok t ↔
      ∃ stored, nameOf name = .ok stored ∧ (∀ c ∈ version.toList, isLineBreak c = false) ∧
        t = ⟨stored, String.ofList (versionOf version.toList), "", members⟩ := by
  constructor
  · intro h
    obtain ⟨stored, hname, h⟩ := bind_eq_ok.mp h
    dsimp only at h
    split at h
    · exact nomatch h
    · next hversion => exact ⟨stored, hname, by simpa using hversion, (Except.ok.inj h).symm⟩
  · rintro ⟨stored, hname, hversion, rfl⟩
    refine bind_eq_ok.mpr ⟨stored, hname, ?_⟩
    dsimp only
    rw [if_neg (by simpa using hversion)]
    rfl

/-- Making a definition leaves its members as they are. -/
theorem TypeDefinition.members_of_create {name version : String} {members : List Field}
    {t : TypeDefinition} (h : create name version members = .ok t) : t.members = members := by
  obtain ⟨stored, -, -, rfl⟩ := create_eq_ok.mp h
  rfl

/-- A definition is made well formed from well-formed members. -/
theorem TypeDefinition.isWellFormed_create {name version : String} {members : List Field}
    {t : TypeDefinition} (h : create name version members = .ok t)
    (hm : ∀ f ∈ Field.nodesAll members, f.IsWellFormed) : t.IsWellFormed := by
  obtain ⟨stored, hname, hversion, rfl⟩ := create_eq_ok.mp h
  exact {
    name := isNameText_of_nameOf hname
    version := isVersion_versionOf hversion
    comment := isOneLine_oneLine ""
    members := hm }

theorem TypeDefinition.IsWellFormed.withComment {t : TypeDefinition} (h : t.IsWellFormed)
    (comment : String) : (t.withComment comment).IsWellFormed :=
  { h with comment := isOneLine_oneLine comment }

end PlcTypes
