import PlcTypes.Proofs.Loading.Termination
import PlcTypes.Proofs.Source.WellFormed

/-! # What every reading promises

    A definition that was read, from whatever source and with whatever files,
    holds valid strings and numbers at every depth, also inside the fields
    that stand for references.  What valid means is written out here
    character by character and bound by bound, without the functions that
    check it, so that nothing has to be known about reading to use it. -/

namespace PlcTypes

open Text

/-! ## Valid strings -/

/-- A name can be written on one line, quoted, and as a segment of a path. -/
structure IsValidName (s : String) : Prop where
  nonempty : s ≠ ""
  trimmed : IsTrimmed s.toList
  clean : ∀ c ∈ s.toList, c ≠ '.' ∧ c ≠ '"' ∧ c ≠ '\r' ∧ c ≠ '\n'

/-- A version starts at a digit and has no blanks behind it. -/
structure IsValidVersion (s : String) : Prop where
  first : s = "" ∨ ∃ c, s.toList.head? = some c ∧ c.isDigit = true
  last : ∀ c, s.toList.getLast? = some c → isBlank c = false
  clean : ∀ c ∈ s.toList, c ≠ '\r' ∧ c ≠ '\n'

/-- A default is not blank and does not end its own declaration. -/
structure IsValidDefault (s : String) : Prop where
  nonempty : s ≠ ""
  trimmed : IsTrimmed s.toList
  clean : ∀ c ∈ s.toList, c ≠ ';' ∧ c ≠ '\r' ∧ c ≠ '\n'
  unremarked : ¬ ['/', '/'] <:+: s.toList

/-! ## Valid fields -/

/-- A scalar type that stands for itself, and no marker of a string. -/
def ScalarType.IsSized (t : ScalarType) : Prop :=
  t ≠ .string ∧ t ≠ .wstring

/-- The range of an array: its ends and the number of its elements. -/
structure ArrayField.HasValidRange (a : ArrayField) : Prop where
  start : -2 ^ 63 ≤ a.start
  ordered : a.start ≤ a.stop
  stop : -2 ^ 63 < a.stop ∧ a.stop ≤ 2 ^ 63 - 1
  fits : a.count * a.element.bytes ≤ 2 ^ 24

/-- What a field is held to itself, the fields inside it apart. -/
def Field.IsValid (f : Field) : Prop :=
  IsValidName f.name ∧
    match f with
    | scalar s => s.type.IsSized ∧ ∀ v, s.initial = some v → IsValidDefault v
    | text s => s.capacity ≤ 2 ^ 24 - 2
    | array a =>
        a.element.IsSized ∧ a.HasValidRange ∧ ∀ v, a.initial = some v → IsValidDefault v
    | struct _ _ _ => True

/-- A definition with valid fields at every depth. -/
structure TypeDefinition.IsValid (t : TypeDefinition) : Prop where
  name : IsValidName t.name
  version : IsValidVersion t.version
  fields : ∀ f ∈ t.nodes, f.IsValid

/-! ## Stored strings are valid -/

theorem ne_of_isLineBreak_eq_false {c : Char} (h : isLineBreak c = false) :
    c ≠ '\r' ∧ c ≠ '\n' := by
  constructor
  · rintro rfl
    exact absurd h (by decide)
  · rintro rfl
    exact absurd h (by decide)

/-- A stored name is not empty, holds none of the characters that names may not
    hold, and is trimmed. -/
theorem IsNameText.isValidName {s : String} (h : IsNameText s) : IsValidName s where
  nonempty := by
    intro hempty
    exact h.ne_nil (String.toList_eq_nil_iff.mpr hempty)
  trimmed := h.trimmed
  clean := by
    intro c hc
    refine ⟨?_, h.ne_quote hc, ne_of_isLineBreak_eq_false (h.breakless hc)⟩
    rintro rfl
    exact absurd (h.isNameChar hc) (by decide)

/-- A stored version starts with a digit and is on one line. -/
theorem IsVersion.isValidVersion {s : String} (h : IsVersion s) : IsValidVersion s where
  first := by
    cases hs : s.toList with
    | nil => exact Or.inl (String.toList_eq_nil_iff.mp hs)
    | cons c cs =>
        refine Or.inr ⟨c, rfl, h.first c ?_⟩
        rw [hs]
        rfl
  last := h.last
  clean := fun c hc => ne_of_isLineBreak_eq_false (h.breakless c hc)

/-- A stored default cannot end its own declaration. -/
theorem IsInitial.isValidDefault {s : String} (h : IsInitial s) : IsValidDefault s where
  nonempty := h.nonempty
  trimmed := h.trimmed
  clean := by
    intro c hc
    refine ⟨?_, ne_of_isLineBreak_eq_false (h.breakless c hc)⟩
    rintro rfl
    exact h.unended hc
  unremarked := by
    intro hmark
    have hholds : holds commentMark s.toList = true := holds_iff.mpr hmark
    rw [h.unremarked] at hholds
    exact Bool.false_ne_true hholds

/-- A type that needs no length is not one of the two string types. -/
theorem ScalarType.isSized_of_needsLength {t : ScalarType} (h : t.needsLength = false) :
    t.IsSized := by
  constructor
  · rintro rfl
    exact nomatch h
  · rintro rfl
    exact nomatch h

/-! ## Read fields are valid -/

/-- A well-formed array with a last index has a valid range. -/
theorem ArrayField.IsWellFormed.hasValidRange {a : ArrayField} (h : a.IsWellFormed)
    (hlast : isIndex (a.stop - 1) = true) : a.HasValidRange := by
  have hstart := h.start
  have hstop := h.stop
  unfold isIndex at hstart hstop hlast
  simp only [Bool.and_eq_true, decide_eq_true_eq] at hstart hstop hlast
  refine ⟨?_, h.ordered, ?_, h.fits⟩
  · omega
  · omega

/-- What has been read keeps all that is promised of a field. -/
theorem Field.IsRead.isValid {f : Field} (h : f.IsRead) : f.IsValid := by
  obtain ⟨hwf, hlast⟩ := h
  cases f with
  | scalar s =>
      have hs : s.IsWellFormed := hwf
      refine ⟨hs.name.isValidName, ScalarType.isSized_of_needsLength hs.sized, ?_⟩
      intro v hv
      exact (hs.initial v hv).isValidDefault
  | text s =>
      have hs : s.IsWellFormed := hwf
      refine ⟨hs.name.isValidName, ?_⟩
      have hfits := hs.fits
      unfold maxFieldBytes at hfits
      show s.capacity ≤ 2 ^ 24 - 2
      omega
  | array a =>
      have ha : a.IsWellFormed := hwf
      refine ⟨ha.name.isValidName, ScalarType.isSized_of_needsLength ha.sized,
        ha.hasValidRange (hlast a rfl), ?_⟩
      intro v hv
      exact (ha.initial v hv).isValidDefault
  | struct name comment members => exact ⟨hwf.1.isValidName, trivial⟩

/-- What has been read keeps all that is promised of a definition. -/
theorem TypeDefinition.IsRead.isValid {t : TypeDefinition} (h : t.IsRead) : t.IsValid where
  name := h.wellFormed.name.isValidName
  version := h.wellFormed.version.isValidVersion
  fields := by
    intro f hf
    have hread : f.IsRead := ⟨h.wellFormed.members f hf, h.last f hf⟩
    exact hread.isValid

/-! ## Every way to read -/

namespace Request

/-- By whatever way a definition is asked for, it has been read. -/
theorem isRead_answer {fs : FileSystem} {r : Request} {t : TypeDefinition}
    (h : (r.answer fs).outcome = .ok t) : t.IsRead := by
  cases r with
  | text source dir => exact FileSystem.isRead_readText h
  | bytes source dir => exact FileSystem.isRead_readLines (unbroken_linesOfBytes source) h
  | path p => exact FileSystem.isRead_load h
  | pathIn p dir => exact FileSystem.isRead_load h

/-- **WHAT IS READ IS VALID**: however a definition is asked for and whatever
    the files are, its name, its version and the fields at every depth of it
    are valid. -/
theorem isValid_answer {fs : FileSystem} {r : Request} {t : TypeDefinition}
    (h : (r.answer fs).outcome = .ok t) : t.IsValid :=
  (isRead_answer h).isValid

/-- A file that refers to another one, in which a default, a string and an
    array with a negative index are declared. -/
def craneFiles : FileSystem where
  home := []
  entries :=
    [(["Crane.udt"], .file (Utf8.encode
      "TYPE \"Crane\"\nVERSION : V2.1\nSTRUCT\nhoist : \"Drive\"; // main\nEND_STRUCT;\n".toList)),
     (["Drive.udt"], .file (Utf8.encode
      ("TYPE \"Drive\"\nVERSION : 0.1\nSTRUCT\nspeed : Int := -7 ;\nlabel : String[20];\n"
        ++ "limits : Array[-1..2] of Real;\nEND_STRUCT;\nEND_TYPE\n").toList))]

/-- The definition in the first of these files. -/
def crane : TypeDefinition where
  name := "Crane"
  version := "2.1"
  comment := ""
  members :=
    [.struct "hoist" "main"
      [.scalar ⟨"speed", "", .int, some "-7"⟩, .text ⟨"label", "", 20⟩,
       .array ⟨"limits", "", .real, -1, 3, none⟩]]

theorem isValid_crane :
    ((Request.path ⟨"Crane.udt"⟩).answer craneFiles).outcome = .ok crane ∧ crane.IsValid := by
  have hread : ((Request.path ⟨"Crane.udt"⟩).answer craneFiles).outcome = .ok crane := by
    decide +kernel
  exact ⟨hread, isValid_answer hread⟩

end Request

end PlcTypes
