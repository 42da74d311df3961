import PlcTypes.Proofs.RoundTrip.Declaration
import PlcTypes.Proofs.RoundTrip.Settled
import PlcTypes.Source.Stage

/-! # A written field is read back

    The first line of a well-formed field is read as one declaration, which
    says what the field says: its name, its type with range, length or
    default, and its comment.  What is built from that declaration is the
    field again or, for a structure, the opening of one with its name and its
    comment.

    An array is written with its last index, so its last index must be a
    64-bit number as well. -/

namespace PlcTypes

open Text Grammar Render

/-! ## Fields -/

namespace Field

/-- What the first line of a field says after the name and the colon. -/
def form : Field → List Char
  | scalar f => ' ' :: (f.type.name.toList ++ (ending f.initial).toList)
  | text f => " STRING[".toList ++ ((Decimal.ofNat f.capacity).toList ++ "];".toList)
  | array f => " ARRAY[".toList ++ ((rangeText f.start (f.stop - 1)).toList ++ ("] OF ".toList
      ++ (f.element.name.toList ++ (ending f.initial).toList)))
  | struct _ _ _ => " STRUCT".toList

/-- What is read from the form of a field. -/
def spec : Field → Spec
  | scalar f => .plain (.scalar f.type.name (f.initial.getD ""))
  | text f => .plain (.text (Decimal.ofNat f.capacity))
  | array f => .plain
      (.array (rangeText f.start (f.stop - 1)) f.element.name (f.initial.getD ""))
  | struct _ _ _ => .struct

/-- The first line of a field, without indentation. -/
def opening (f : Field) : List Char :=
  (nameText f.name).toList ++ (' ' :: ':' :: (f.form ++ (remark f.comment).toList))

variable {f : Field}

/-- Every field has a name in its stored form. -/
theorem IsWellFormed.nameText (h : f.IsWellFormed) : IsNameText f.name := by
  cases f with
  | scalar f => exact ScalarField.IsWellFormed.name h
  | text f => exact TextField.IsWellFormed.name h
  | array f => exact ArrayField.IsWellFormed.name h
  | struct name comment members => exact h.1

/-- The form of a field is read back. -/
theorem spec?_form (h : f.IsWellFormed) :
    spec? (f.form ++ (Render.remark f.comment).toList)
      = some (f.spec, (Render.remark f.comment).toList) := by
  cases f with
  | scalar f =>
      have hf : f.IsWellFormed := h
      show spec? (' ' :: (f.type.name.toList ++ (ending f.initial).toList)
        ++ (Render.remark f.comment).toList) = _
      rw [List.cons_append, List.append_assoc]
      exact spec?_scalar hf.sized hf.initial _
  | text f =>
      show spec? (" STRING[".toList ++ ((Decimal.ofNat f.capacity).toList ++ "];".toList)
        ++ (Render.remark f.comment).toList) = _
      rw [List.append_assoc, List.append_assoc]
      exact spec?_text f.capacity _
  | array f =>
      have hf : f.IsWellFormed := h
      show spec? (" ARRAY[".toList ++ ((rangeText f.start (f.stop - 1)).toList
        ++ ("] OF ".toList ++ (f.element.name.toList ++ (ending f.initial).toList)))
        ++ (Render.remark f.comment).toList) = _
      rw [List.append_assoc, List.append_assoc, List.append_assoc, List.append_assoc]
      exact spec?_array f.start (f.stop - 1) hf.initial _
  | struct name comment members => exact spec?_struct comment

/-- The first line of a well-formed field is read as its declaration. -/
theorem declaration?_opening (h : f.IsWellFormed) :
    declaration? f.opening = some { name := f.name, spec := f.spec, comment := f.comment } := by
  have hcomment : String.ofList (trim f.comment.toList) = f.comment := by
    rw [h.remark.trimmed.trim_eq, String.ofList_toList]
  unfold opening
  rw [declaration?_nameText h.nameText (spec?_form h) (ending?_remark f.comment), hcomment]

/-! ## The shape of the first line -/

/-- What ends a declaration ends with a semicolon. -/
theorem getLast?_append_ending (cs : List Char) (value : Option String) :
    (cs ++ (ending value).toList).getLast? = some ';' := by
  cases value with
  | none =>
      rw [show (ending none).toList = [';'] from rfl, List.getLast?_concat]
  | some v =>
      unfold ending
      rw [String.toList_append, show ";".toList = [';'] from rfl, ← List.append_assoc,
        List.getLast?_concat]

/-- The form of a field ends in a character that is no blank. -/
theorem getLast?_form (f : Field) : ∃ c, f.form.getLast? = some c ∧ isBlank c = false := by
  cases f with
  | scalar f =>
      refine ⟨';', ?_, by decide⟩
      exact getLast?_append_ending (' ' :: f.type.name.toList) f.initial
  | text f =>
      refine ⟨';', ?_, by decide⟩
      show (" STRING[".toList ++ ((Decimal.ofNat f.capacity).toList ++ "];".toList)).getLast? = _
      rw [← List.append_assoc, List.getLast?_append]
      rfl
  | array f =>
      refine ⟨';', ?_, by decide⟩
      show (" ARRAY[".toList ++ ((rangeText f.start (f.stop - 1)).toList ++ ("] OF ".toList
        ++ (f.element.name.toList ++ (ending f.initial).toList)))).getLast? = _
      rw [← List.append_assoc, ← List.append_assoc, ← List.append_assoc]
      exact getLast?_append_ending _ f.initial
  | struct name comment members => exact ⟨'T', rfl, by decide⟩

/-- What stands between names and numbers is checked as a whole. -/
theorem breakless_of_any {cs : List Char} (h : cs.any isLineBreak = false) :
    ∀ c ∈ cs, isLineBreak c = false :=
  fun c hc => Bool.eq_false_iff.mpr (List.any_eq_false.mp h c hc)

/-- There is no line break in what ends a declaration. -/
theorem breakless_ending {value : Option String} (h : ∀ v, value = some v → IsInitial v) :
    ∀ c ∈ (ending value).toList, isLineBreak c = false := by
  cases value with
  | none => exact breakless_of_any rfl
  | some v =>
      unfold ending
      rw [String.toList_append, String.toList_append]
      simp only [List.forall_mem_append]
      exact ⟨⟨breakless_of_any rfl, (h v rfl).breakless⟩, breakless_of_any rfl⟩

/-- There is no line break in the name of a type. -/
theorem breakless_scalarType (t : ScalarType) : ∀ c ∈ t.name.toList, isLineBreak c = false :=
  breakless_of_any (by cases t <;> rfl)

/-- There is no line break in a number. -/
theorem breakless_numeral {cs : List Char} (h : Decimal.IsNumeral cs) :
    ∀ c ∈ cs, isLineBreak c = false := by
  intro c hc
  cases hb : isLineBreak c with
  | false => rfl
  | true =>
      unfold isLineBreak at hb
      rw [Bool.or_eq_true, beq_iff_eq, beq_iff_eq] at hb
      rcases hb with rfl | rfl
      · exact absurd hc (h.not_mem rfl (by decide))
      · exact absurd hc (h.not_mem rfl (by decide))

/-- The form of a field holds no line break. -/
theorem breakless_form (h : f.IsWellFormed) : ∀ c ∈ f.form, isLineBreak c = false := by
  cases f with
  | scalar f =>
      have hf : f.IsWellFormed := h
      show ∀ c ∈ ' ' :: (f.type.name.toList ++ (ending f.initial).toList), isLineBreak c = false
      rw [List.forall_mem_cons, List.forall_mem_append]
      exact ⟨rfl, breakless_scalarType f.type, breakless_ending hf.initial⟩
  | text f =>
      show ∀ c ∈ " STRING[".toList ++ ((Decimal.ofNat f.capacity).toList ++ "];".toList),
        isLineBreak c = false
      rw [List.forall_mem_append, List.forall_mem_append]
      exact ⟨breakless_of_any rfl, breakless_numeral (Decimal.isNumeral_ofNat f.capacity),
        breakless_of_any rfl⟩
  | array f =>
      have hf : f.IsWellFormed := h
      show ∀ c ∈ " ARRAY[".toList ++ ((rangeText f.start (f.stop - 1)).toList
        ++ ("] OF ".toList ++ (f.element.name.toList ++ (ending f.initial).toList))),
        isLineBreak c = false
      rw [toList_rangeText, List.forall_mem_append, List.forall_mem_append,
        List.forall_mem_append, List.forall_mem_append, List.forall_mem_append,
        List.forall_mem_cons, List.forall_mem_cons]
      exact ⟨breakless_of_any rfl, ⟨breakless_numeral (Decimal.isNumeral_ofInt f.start), rfl,
        rfl, breakless_numeral (Decimal.isNumeral_ofInt (f.stop - 1))⟩, breakless_of_any rfl,
        breakless_scalarType f.element, breakless_ending hf.initial⟩
  | struct name comment members =>
      show ∀ c ∈ " STRUCT".toList, isLineBreak c = false
      exact breakless_of_any rfl

/-- A declaration with its comment is trimmed when the part before the comment
    ends in no blank. -/
theorem getLast?_append_remark {cs : List Char} (comment : String)
    (hcs : ∃ c, cs.getLast? = some c ∧ isBlank c = false) :
    ∃ c, (cs ++ (Render.remark comment).toList).getLast? = some c ∧ isBlank c = false := by
  unfold Render.remark
  dsimp only
  by_cases hempty : (trimmed comment).isEmpty = true
  · rw [if_pos hempty]
    simpa using hcs
  · rw [if_neg hempty, String.toList_append, toList_trimmed]
    have hne : trim comment.toList ≠ [] := by
      intro hnil
      refine hempty ?_
      unfold trimmed
      rw [hnil]
      rfl
    refine ⟨(trim comment.toList).getLast hne, ?_, ?_⟩
    · rw [← List.append_assoc, List.getLast?_append, List.getLast?_eq_some_getLast hne]
      rfl
    · exact (isTrimmed_trim comment.toList).last _ (List.getLast?_eq_some_getLast hne)

/-- The first line of a field starts with its name or a quote, and ends with a
    semicolon, a keyword or a comment. -/
theorem isTrimmed_opening (h : f.IsWellFormed) : IsTrimmed f.opening := by
  obtain ⟨c, hc, hblank⟩ := getLast?_append_remark f.comment (getLast?_form f)
  unfold opening
  constructor
  · have hname := h.nameText
    intro d hd
    unfold Render.nameText at hd
    by_cases hbare : isBare f.name.toList = true
    · have hhead := List.head?_eq_some_head hname.ne_nil
      rw [if_pos hbare, List.head?_append, hhead, Option.some_or, ← hhead] at hd
      exact hname.trimmed.head d hd
    · rw [if_neg hbare, String.toList_append, String.toList_append] at hd
      rw [← Option.some.inj hd]
      decide
  · intro d hd
    rw [List.getLast?_append, List.getLast?_cons_cons, List.getLast?_cons, hc] at hd
    rw [← Option.some.inj hd]
    exact hblank

/-- The line breaks of a written comment are those of the comment. -/
theorem mem_remark {comment : String} {m : Char} (hm : isLineBreak m = true) :
    m ∈ (Render.remark comment).toList ↔ m ∈ trim comment.toList := by
  unfold Render.remark
  dsimp only
  by_cases hempty : (trimmed comment).isEmpty = true
  · rw [if_pos hempty, ← toList_trimmed, String.isEmpty_iff.mp hempty]
  · rw [if_neg hempty, String.toList_append, toList_trimmed, List.mem_append]
    refine or_iff_right fun hmark => ?_
    have hbreakless : ∀ c ∈ "   // ".toList, isLineBreak c = false := breakless_of_any rfl
    rw [hbreakless m hmark] at hm
    exact nomatch hm

theorem breakless_nameText {name : String} (h : IsNameText name) :
    ∀ c ∈ (Render.nameText name).toList, isLineBreak c = false := by
  unfold Render.nameText
  by_cases hbare : isBare name.toList = true
  · rw [if_pos hbare]
    exact fun c hc => h.breakless hc
  · rw [if_neg hbare, String.toList_append, String.toList_append, List.forall_mem_append,
      List.forall_mem_append]
    exact ⟨⟨breakless_of_any rfl, fun c hc => h.breakless hc⟩, breakless_of_any rfl⟩

/-- The line breaks on the first line of a field are those of its comment. -/
theorem mem_opening (h : f.IsWellFormed) {m : Char} (hm : isLineBreak m = true) :
    m ∈ f.opening ↔ m ∈ f.comment.toList := by
  have hname : m ∉ (Render.nameText f.name).toList := fun hc =>
    absurd (breakless_nameText h.nameText m hc) (by simp [hm])
  have hform : m ∉ f.form := fun hc => absurd (breakless_form h m hc) (by simp [hm])
  have hspace : m ≠ ' ' := by
    rintro rfl
    exact absurd hm (by decide)
  have hcolon : m ≠ ':' := by
    rintro rfl
    exact absurd hm (by decide)
  unfold opening
  simp [hname, hform, hspace, hcolon, mem_remark hm, h.remark.trimmed.trim_eq]

/-- The first line of a field is one line. -/
theorem not_mem_opening (h : f.IsWellFormed) : '\n' ∉ f.opening := by
  rw [mem_opening h (by decide)]
  exact h.remark.unbroken

end Field

/-! ## Building from the declaration -/

/-- A type is found by the name that is written for it. -/
theorem scalarTypeOf_name (t : ScalarType) : scalarTypeOf t.name = .ok t := by
  unfold scalarTypeOf
  rw [ScalarType.ofName?_name]

/-- A default is read as itself, and no default as none. -/
theorem defaultOf_getD {value : Option String} (h : ∀ v, value = some v → IsInitial v) :
    defaultOf (value.getD "") = .ok value := by
  cases value with
  | none => rfl
  | some v => exact (h v rfl).defaultOf_eq

/-- A length is read as itself, if it is a number of 64 bits. -/
theorem lengthOf_ofNat {n : Nat} (h : n < 18446744073709551616) (field : String) :
    lengthOf field (Decimal.ofNat n) = .ok n := by
  unfold lengthOf
  dsimp only
  rw [(Decimal.isNumeral_ofNat n).isTrimmed.trim_eq, Decimal.nat?_ofNat, Option.filter_some]
  simp [h]

/-- An index is read as itself. -/
theorem indexOf?_ofInt {n : Int} (h : isIndex n = true) :
    indexOf? (Decimal.ofInt n).toList = some n := by
  unfold indexOf?
  rw [(Decimal.isNumeral_ofInt n).isTrimmed.trim_eq, Decimal.int?_ofInt, Option.filter_some,
    if_pos h]

/-- A range is read as its two ends. -/
theorem rangeOf_rangeText {first last : Int} (hfirst : isIndex first = true)
    (hlast : isIndex last = true) : rangeOf (rangeText first last) = .ok (first, last) := by
  have hne : (rangeText first last).toList.isEmpty = false := by
    rw [toList_rangeText]
    simp
  have hcut : cutAt ['.', '.'] (rangeText first last).toList
      = some ((Decimal.ofInt first).toList, (Decimal.ofInt last).toList) := by
    rw [toList_rangeText]
    exact cutAt_append ((Decimal.isNumeral_ofInt first).not_mem rfl (by decide)) _
  unfold rangeOf
  dsimp only
  rw [(isTrimmed_rangeText first last).trim_eq, hne, hcut]
  dsimp only
  rw [indexOf?_ofInt hfirst, indexOf?_ofInt hlast]
  rfl

namespace ScalarField

variable {f : ScalarField}

/-- A scalar is made again from its name and its type. -/
theorem IsWellFormed.create_eq (h : f.IsWellFormed) :
    create f.name f.type = .ok { f with comment := "", initial := none } := by
  refine bind_eq_ok.mpr ⟨f.name, h.name.nameOf_eq, ?_⟩
  exact bind_eq_ok.mpr ⟨(), requireSized_eq h.sized f.name, rfl⟩

/-- From what is written for a scalar the scalar is made. -/
theorem IsWellFormed.field_eq (h : f.IsWellFormed) :
    (PlainSpec.scalar f.type.name (f.initial.getD "")).field f.name f.comment
      = .ok (.scalar f) := by
  refine bind_eq_ok.mpr ⟨f.type, scalarTypeOf_name f.type, ?_⟩
  refine bind_eq_ok.mpr ⟨_, h.create_eq, ?_⟩
  refine bind_eq_ok.mpr ⟨f, bind_eq_ok.mpr ⟨f.initial, defaultOf_getD h.initial, ?_⟩, rfl⟩
  unfold ScalarField.withComment
  rw [h.comment.oneLine_eq]
  rfl

end ScalarField

namespace TextField

variable {f : TextField}

/-- A string field is made again from its name and its capacity. -/
theorem IsWellFormed.create_eq (h : f.IsWellFormed) :
    create f.name f.capacity = .ok { f with comment := "" } := by
  refine bind_eq_ok.mpr ⟨f.name, h.name.nameOf_eq, ?_⟩
  exact if_neg (Nat.not_lt.mpr h.fits)

/-- From what is written for a string field the field is made. -/
theorem IsWellFormed.field_eq (h : f.IsWellFormed) :
    (PlainSpec.text (Decimal.ofNat f.capacity)).field f.name f.comment = .ok (.text f) := by
  have hlength : f.capacity < 18446744073709551616 := by
    have := h.fits
    unfold maxFieldBytes at this
    omega
  refine bind_eq_ok.mpr ⟨f.capacity, lengthOf_ofNat hlength f.name, ?_⟩
  refine bind_eq_ok.mpr ⟨_, h.create_eq, ?_⟩
  unfold TextField.withComment
  rw [h.comment.oneLine_eq]
  rfl

end TextField

namespace ArrayField

variable {f : ArrayField}

/-- The number of elements is a 64-bit number. -/
theorem IsWellFormed.isIndex_length (h : f.IsWellFormed) : isIndex (f.stop - f.start) = true := by
  have hordered := h.ordered
  have hfits := h.fits
  have hcount : f.count ≤ f.count * f.element.bytes :=
    Nat.le_mul_of_pos_right f.count f.element.bytes_pos
  -- an element has at least one byte, and a field far less than 2^63
  unfold count at hcount hfits
  unfold maxFieldBytes at hfits
  unfold isIndex
  rw [Bool.and_eq_true, decide_eq_true_eq, decide_eq_true_eq]
  omega

/-- An array is made again from its name, its type and its first and last index. -/
theorem IsWellFormed.create_eq (h : f.IsWellFormed) :
    create f.name f.element (.included f.start) (.included (f.stop - 1))
      = .ok { f with comment := "", initial := none } := by
  refine create_eq_ok.mpr {
    stored := h.name.nameOf_eq
    type := rfl
    sized := h.sized
    start := checkIndex_eq h.start f.name
    stop := ?_
    length := h.isIndex_length
    ordered := h.ordered
    fits := h.fits
    comment := rfl
    initial := rfl }
  show checkIndex f.name (f.stop - 1 + 1) = _
  rw [Int.sub_add_cancel]
  exact checkIndex_eq h.stop f.name

/-- From what is written for an array the array is made, if it has a last index. -/
theorem IsWellFormed.field_eq (h : f.IsWellFormed) (hlast : isIndex (f.stop - 1) = true) :
    (PlainSpec.array (rangeText f.start (f.stop - 1)) f.element.name (f.initial.getD "")).field
        f.name f.comment = .ok (.array f) := by
  refine bind_eq_ok.mpr ⟨_, rangeOf_rangeText h.start hlast, ?_⟩
  refine bind_eq_ok.mpr ⟨f.element, scalarTypeOf_name f.element, ?_⟩
  refine bind_eq_ok.mpr ⟨_, h.create_eq, ?_⟩
  refine bind_eq_ok.mpr ⟨f, bind_eq_ok.mpr ⟨f.initial, defaultOf_getD h.initial, ?_⟩, rfl⟩
  unfold ArrayField.withComment
  rw [h.comment.oneLine_eq]
  rfl

end ArrayField

end PlcTypes
