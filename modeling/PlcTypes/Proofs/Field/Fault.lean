import PlcTypes.Proofs.Field.WellFormed
import PlcTypes.Source.Member

/-! # What can be wrong with a declaration

    A declaration that makes no field has a wrong name, a wrong type, a wrong
    range or a wrong default, and nothing else goes wrong with it: none of the
    functions that make fields touches a source or a file.  So the error that
    a reader gets from them belongs to the line of the declaration. -/

namespace PlcTypes

/-- The errors that a declaration can be to blame for. -/
def Error.OfDeclaration : Error → Prop
  | malformedField .. | invalidRange .. | invalidName _ | unknownType _ => True
  | _ => False

/-- The errors that the range of an array can be to blame for. -/
def Error.OfRange (e : Error) : Prop :=
  ∃ fault, e = .invalidRange none fault

/-- A declaration is to blame for what its range is to blame for. -/
theorem Error.OfRange.ofDeclaration {e : Error} (h : e.OfRange) : e.OfDeclaration := by
  obtain ⟨fault, rfl⟩ := h
  trivial

/-- A result that is there, or whose error has a property. -/
def FailsWith {α : Type} (P : Error → Prop) (x : Except Error α) : Prop :=
  ∀ e, x = .error e → P e

namespace FailsWith

variable {α β : Type} {P : Error → Prop}

theorem ok (a : α) : FailsWith P (.ok a) := nofun

theorem error {e : Error} (h : P e) : FailsWith P (.error e : Except Error α) := by
  intro e' he
  obtain rfl := Except.error.inj he
  exact h

/-- What a sequence of two steps fails with, one of the steps fails with. -/
theorem bind {x : Except Error α} {f : α → Except Error β} (hx : FailsWith P x)
    (hf : ∀ a, FailsWith P (f a)) : FailsWith P (x >>= f) := by
  cases x with
  | error e => exact error (hx e rfl)
  | ok a => exact hf a

/-- A failure with a property has every weaker one. -/
theorem mono {Q : Error → Prop} {x : Except Error α} (hx : FailsWith P x)
    (hPQ : ∀ e, P e → Q e) : FailsWith Q x :=
  fun e he => hPQ e (hx e he)

/-- What is done with a result that is there changes no error. -/
theorem map {x : Except Error α} (hx : FailsWith P x) (f : α → β) : FailsWith P (x.map f) := by
  cases x with
  | error e => exact error (hx e rfl)
  | ok a => exact ok (f a)

end FailsWith

/-! ## Parts of a declaration -/

/-- A name is refused as a name. -/
theorem failsWith_nameOf (s : String) : FailsWith Error.OfDeclaration (nameOf s) := by
  intro e he
  rw [(nameOf_eq_error.mp he).2]
  trivial

/-- A type without an entry in the registry is unknown. -/
theorem failsWith_scalarTypeOf (name : String) :
    FailsWith Error.OfDeclaration (scalarTypeOf name) := by
  rw [scalarTypeOf]
  split
  · exact .ok _
  · exact .error trivial

/-- A string type without a length is refused. -/
theorem failsWith_requireSized (type : ScalarType) (field : String) :
    FailsWith Error.OfDeclaration (requireSized type field) := by
  rw [requireSized]
  split
  · exact .error trivial
  · exact .ok _

/-- A default is refused if it would end its own declaration. -/
theorem failsWith_defaultOf (s : String) : FailsWith Error.OfDeclaration (defaultOf s) := by
  rw [defaultOf]
  split
  · exact .error trivial
  · exact .ok _

/-- A text can fail to be a range in four ways: it is blank, has no two dots, or
    one of its ends is no number. -/
theorem failsWith_rangeOf (range : String) : FailsWith Error.OfDeclaration (rangeOf range) := by
  rw [rangeOf]
  split
  · exact .error trivial
  · split
    · exact .error trivial
    · split
      · exact .error trivial
      · exact .error trivial
      · exact .ok _

/-- The text of a length can fail to be a number. -/
theorem failsWith_lengthOf (field length : String) :
    FailsWith Error.OfDeclaration (lengthOf field length) := by
  rw [lengthOf]
  split
  · exact .ok _
  · exact .error trivial

/-- Of a number that is checked only the range is to blame. -/
theorem failsWith_checkIndex (field : String) (n : Int) :
    FailsWith Error.OfRange (checkIndex field n) := by
  rw [checkIndex]
  split
  · exact .ok _
  · exact .error ⟨_, rfl⟩

/-- The first index is missing, or leaves the words when one is added to it. -/
theorem Bound.failsWith_first (field : String) (b : Bound) :
    FailsWith Error.OfRange (b.first field) := by
  cases b with
  | included index => exact failsWith_checkIndex field index
  | excluded index => exact failsWith_checkIndex field (index + 1)
  | unbounded => exact .error ⟨_, rfl⟩

/-- The index after the last is missing, or leaves the words in the same way. -/
theorem Bound.failsWith_afterLast (field : String) (b : Bound) :
    FailsWith Error.OfRange (b.afterLast field) := by
  cases b with
  | included index => exact failsWith_checkIndex field (index + 1)
  | excluded index => exact failsWith_checkIndex field index
  | unbounded => exact .error ⟨_, rfl⟩

/-! ## Fields -/

/-- A scalar fails with its name or with its type. -/
theorem ScalarField.failsWith_create (name : String) (type : ScalarType) :
    FailsWith Error.OfDeclaration (create name type) := by
  refine (failsWith_nameOf name).bind fun stored => ?_
  exact (failsWith_requireSized type stored).bind fun _ => .ok _

theorem ScalarField.failsWith_withDefault (f : ScalarField) (value : String) :
    FailsWith Error.OfDeclaration (f.withDefault value) :=
  (failsWith_defaultOf value).bind fun _ => .ok _

/-- A string fails with its name or with its length. -/
theorem TextField.failsWith_create (name : String) (capacity : Nat) :
    FailsWith Error.OfDeclaration (create name capacity) := by
  refine (failsWith_nameOf name).bind fun stored => ?_
  dsimp only
  split
  · exact .error trivial
  · exact .ok _

section Array

variable {name stored : String} {element : ScalarType} {low high : Bound}

/-- An array without a valid name fails with its name, whatever else is wrong. -/
theorem ArrayField.create_of_no_name {e : Error} (h : nameOf name = .error e) :
    create name element low high = .error e := by
  rw [create, h]
  rfl

/-- A string type is refused next, before the range is looked at. -/
theorem ArrayField.create_of_needsLength (hname : nameOf name = .ok stored)
    (h : element.needsLength = true) :
    create name element low high
      = .error (.malformedField none (.lengthNeeded stored element)) := by
  have hsized : requireSized element stored
      = .error (.malformedField none (.lengthNeeded stored element)) := if_pos h
  rw [create, hname]
  show requireSized element stored >>= _ = _
  rw [hsized]
  rfl

/-- An array with a name and a type is made, or its range is to blame. -/
theorem ArrayField.failsWith_range (hname : nameOf name = .ok stored)
    (hsized : element.needsLength = false) :
    FailsWith Error.OfRange (create name element low high) := by
  rw [create, hname]
  show FailsWith _ (requireSized element stored >>= _)
  rw [requireSized_eq hsized]
  refine (low.failsWith_first stored).bind fun start => ?_
  refine (high.failsWith_afterLast stored).bind fun stop => ?_
  refine (failsWith_checkIndex stored (stop - start)).bind fun length => ?_
  dsimp only
  split
  · exact .error ⟨_, rfl⟩
  · split
    · exact .error ⟨_, rfl⟩
    · exact .ok _

/-- Whatever is wrong with an array, its declaration is to blame. -/
theorem ArrayField.failsWith_create (name : String) (element : ScalarType) (low high : Bound) :
    FailsWith Error.OfDeclaration (create name element low high) := by
  cases hname : nameOf name with
  | error e =>
      rw [create_of_no_name hname]
      exact .error (failsWith_nameOf name e hname)
  | ok stored =>
      cases hsized : element.needsLength with
      | true =>
          rw [create_of_needsLength hname hsized]
          exact .error trivial
      | false => exact (failsWith_range hname hsized).mono fun _ => Error.OfRange.ofDeclaration

end Array

theorem ArrayField.failsWith_withDefault (f : ArrayField) (value : String) :
    FailsWith Error.OfDeclaration (f.withDefault value) :=
  (failsWith_defaultOf value).bind fun _ => .ok _

/-- **A FIELD WITHOUT MEMBERS** is made, or its declaration is to blame. -/
theorem Grammar.PlainSpec.failsWith_field (spec : PlainSpec) (name comment : String) :
    FailsWith Error.OfDeclaration (spec.field name comment) := by
  cases spec with
  | array range element initial =>
      rw [field]
      refine (failsWith_rangeOf range).bind ?_
      rintro ⟨first, last⟩
      dsimp only
      refine (failsWith_scalarTypeOf element).bind fun type => ?_
      refine (ArrayField.failsWith_create name type _ _).bind fun f => ?_
      exact ((f.withComment comment).failsWith_withDefault initial).bind fun _ => .ok _
  | text length =>
      refine (failsWith_lengthOf name length).bind fun capacity => ?_
      exact (TextField.failsWith_create name capacity).bind fun _ => .ok _
  | scalar type initial =>
      refine (failsWith_scalarTypeOf type).bind fun type => ?_
      refine (ScalarField.failsWith_create name type).bind fun f => ?_
      exact ((f.withComment comment).failsWith_withDefault initial).bind fun _ => .ok _

end PlcTypes
