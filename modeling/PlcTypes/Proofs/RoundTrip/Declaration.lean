import PlcTypes.Proofs.Decimal
import PlcTypes.Proofs.Grammar.BodyLine
import PlcTypes.Render

/-! # The pieces of a written declaration are read back

    A written declaration is taken apart from the left: the name up to the
    colon, the form up to the semicolon, the comment.  Each piece is read by a
    lemma that keeps what follows general, so that the pieces can be put
    together for every kind of field. -/

namespace PlcTypes

open Text Grammar Render

namespace Grammar

/-! ## Names -/

/-- What a name is that is written without quotes. -/
theorem of_isBare {cs : List Char} (h : isBare cs = true) :
    cs ≠ [] ∧ holds commentMark cs = false ∧
      ∀ c ∈ cs, isBlank c = false ∧ c ≠ ':' ∧ c ≠ '{' ∧ c ≠ '"' := by
  unfold isBare at h
  simp only [Bool.and_eq_true, Bool.not_eq_true', List.any_eq_false, Bool.or_eq_true,
    beq_iff_eq, not_or, Bool.not_eq_true] at h
  obtain ⟨⟨hempty, hmark⟩, hchars⟩ := h
  refine ⟨?_, hmark, fun c hc => ?_⟩
  · rintro rfl
    exact nomatch hempty
  · obtain ⟨⟨⟨hblank, hcolon⟩, hbrace⟩, hquote⟩ := hchars c hc
    exact ⟨hblank, hcolon, hbrace, hquote⟩

/-- A name without quotes does not end before the space behind it. -/
theorem atNameEnd_of_isBare {cs : List Char} (hbare : isBare cs = true) (rest : List Char) :
    ∀ part, part <:+ cs → part ≠ [] → atNameEnd (part ++ ' ' :: rest) = false := by
  intro part hpart hpartne
  obtain ⟨-, hmark, hchars⟩ := of_isBare hbare
  have hcomment : atComment (part ++ ' ' :: rest) = false :=
    atComment_append hpartne (holds_of_isInfix hpart.isInfix hmark) (by simp)
  cases part with
  | nil => exact absurd rfl hpartne
  | cons c part =>
      obtain ⟨hblank, hcolon, hbrace, hquote⟩ := hchars c (hpart.subset (by simp))
      rw [List.cons_append] at hcomment ⊢
      rw [atNameEnd_cons, hcomment, isGap_of_isBlank_eq_false hblank,
        beq_eq_false_iff_ne.mpr hcolon, beq_eq_false_iff_ne.mpr hbrace,
        beq_eq_false_iff_ne.mpr hquote]
      rfl

/-- A name without quotes that goes on up to the space behind it is read. -/
theorem fieldName?_token {cs rest : List Char} (hne : cs ≠ [])
    (hgoes : ∀ part, part <:+ cs → part ≠ [] → atNameEnd (part ++ ' ' :: rest) = false) :
    fieldName? (cs ++ ' ' :: rest) = some (cs, ' ' :: rest) := by
  cases cs with
  | nil => exact absurd rfl hne
  | cons c cs =>
      have hfirst := hgoes (c :: cs) (List.suffix_refl _) hne
      rw [List.cons_append, atNameEnd_cons] at hfirst
      simp only [Bool.or_eq_false_iff, beq_eq_false_iff_ne] at hfirst
      obtain ⟨⟨⟨-, hquote⟩, hgap⟩, -⟩ := hfirst
      have hskip : skip (c :: cs ++ ' ' :: rest) = c :: cs ++ ' ' :: rest := skip_cons hgap _
      have hunquoted : ∀ d, (skip (c :: cs ++ ' ' :: rest)).head? = some d → d ≠ '"' := by
        intro d hd
        rw [hskip] at hd
        rw [← Option.some.inj hd]
        exact hquote
      rw [fieldName?_of_unquoted hunquoted, token?, hskip, spanUntil_append_of_stop hgoes rfl]
      rfl

/-- A name in quotes is read up to the second quote. -/
theorem fieldName?_quoted {cs : List Char} (hgap : ∀ c, cs.head? = some c → isGap c = false)
    (hquote : '"' ∉ cs) (rest : List Char) :
    fieldName? ('"' :: (cs ++ '"' :: rest)) = some (cs, rest) := by
  have hspan : spanTo '"' (cs ++ '"' :: rest) = (cs, '"' :: rest) :=
    spanTo_append hquote hgap rfl rest
  unfold fieldName?
  rw [mark?_cons rfl]
  dsimp only
  rw [hspan, mark?_cons rfl]
  rfl

/-- A written name is read back, with or without quotes. -/
theorem fieldName?_nameText {name : String} (h : IsNameText name) (rest : List Char) :
    fieldName? ((nameText name).toList ++ ' ' :: rest) = some (name.toList, ' ' :: rest) := by
  unfold nameText
  by_cases hbare : isBare name.toList = true
  · rw [if_pos hbare]
    exact fieldName?_token h.ne_nil (atNameEnd_of_isBare hbare rest)
  · rw [if_neg hbare, String.toList_append, String.toList_append]
    have hquote : '"' ∉ name.toList := fun hc => h.ne_quote hc rfl
    have hgap : ∀ c, name.toList.head? = some c → isGap c = false := fun c hc =>
      isGap_of_isBlank_eq_false (h.trimmed.head c hc)
    have := fieldName?_quoted hgap hquote (' ' :: rest)
    rw [← this]
    simp

/-- A line is a declaration when its name, its form and its ending are read. -/
theorem declaration?_of_name {spelled name form rest comment : List Char} {spec : Spec}
    (hname : ∀ more, fieldName? (spelled ++ ' ' :: more) = some (name, ' ' :: more))
    (hspec : spec? form = some (spec, rest)) (hending : ending? rest = some comment) :
    declaration? (spelled ++ ' ' :: ':' :: form)
      = some { name := trimmedToken name, spec, comment := String.ofList comment } := by
  -- no settings are written between the name and the colon
  have hsettings : skipSettings (' ' :: ':' :: form) = ' ' :: ':' :: form := rfl
  have hcolon : mark? [':'] (' ' :: ':' :: form) = some form := by
    rw [mark?_space, mark?_cons rfl]
  unfold declaration?
  simp only [hname, hsettings, hcolon, hspec, hending, Option.bind_eq_bind, Option.bind_some,
    Option.pure_def]

/-- A declaration is read back after the name as it is written. -/
theorem declaration?_nameText {name : String} (h : IsNameText name) {spec : Spec}
    {form rest comment : List Char} (hspec : spec? form = some (spec, rest))
    (hending : ending? rest = some comment) :
    declaration? ((nameText name).toList ++ ' ' :: ':' :: form)
      = some { name, spec, comment := String.ofList comment } := by
  have htoken : trimmedToken name.toList = name := by
    unfold trimmedToken
    rw [h.trimmed.trim_eq, String.ofList_toList]
  rw [declaration?_of_name (fieldName?_nameText h) hspec hending, htoken]

/-! ## Comments -/

/-- A written comment is read back. -/
theorem ending?_remark (comment : String) :
    ending? (remark comment).toList = some (trim comment.toList) := by
  unfold remark
  dsimp only
  by_cases hempty : (trimmed comment).isEmpty = true
  · rw [if_pos hempty]
    have hnil : trim comment.toList = [] := by
      rw [← toList_trimmed, String.isEmpty_iff.mp hempty]
      rfl
    rw [hnil]
    rfl
  · -- the comment behind its mark is trimmed twice
    rw [if_neg hempty, String.toList_append, toList_trimmed]
    show some (trim (' ' :: trim comment.toList)) = _
    rw [trim_cons_of_blank rfl, trim_trim]

/-! ## Types and defaults -/

/-- The name of a type has nothing in it that could be taken for something else. -/
theorem isPlain_of_mem_name {t : ScalarType} {c : Char} (h : c ∈ t.name.toList) :
    isPlain c = true ∧ c ≠ ';' := by
  have hall : (t.name.toList.all fun c => isPlain c && c != ';') = true := by cases t <;> rfl
  simpa using List.all_eq_true.mp hall c h

/-- Before the name of a type only the space is skipped. -/
theorem skip_scalarType (t : ScalarType) (rest : List Char) :
    skip (' ' :: (t.name.toList ++ rest)) = t.name.toList ++ rest := by
  cases t <;> rfl

/-- The name of a type ends before a space or a semicolon. -/
theorem token?_scalarType (t : ScalarType) {rest : List Char} (hrest : atTypeEnd rest = true) :
    token? atTypeEnd (' ' :: (t.name.toList ++ rest)) = some (t.name.toList, rest) := by
  have hend : ∀ part, part <:+ t.name.toList → part ≠ [] → atTypeEnd (part ++ rest) = false := by
    intro part hpart hpartne
    cases part with
    | nil => exact absurd rfl hpartne
    | cons c part =>
        have hc : c ∈ t.name.toList := hpart.subset List.mem_cons_self
        obtain ⟨hplain, hsemi⟩ := isPlain_of_mem_name hc
        exact atTypeEnd_of_isPlain hplain hsemi (part ++ rest)
  have hne : t.name.toList.isEmpty = false := by
    cases t <;> rfl
  unfold token?
  rw [skip_scalarType, spanUntil_append_of_stop hend hrest]
  show (if t.name.toList.isEmpty = true then none else some (t.name.toList, rest)) = _
  rw [hne]
  rfl

/-- A default does not end before the semicolon behind it. -/
theorem atDefaultEnd_of_isInitial {v : String} (h : IsInitial v) (rest : List Char) :
    ∀ part, part <:+ v.toList → part ≠ [] → atDefaultEnd (part ++ ';' :: rest) = false := by
  intro part hpart hpartne
  have hcomment : atComment (part ++ ';' :: rest) = false :=
    atComment_append hpartne (holds_of_isInfix hpart.isInfix h.unremarked) (by simp)
  cases part with
  | nil => exact absurd rfl hpartne
  | cons c part =>
      have hsemi : c ≠ ';' := by
        rintro rfl
        exact h.unended (hpart.subset (by simp))
      show (c == ';' || atComment (c :: (part ++ ';' :: rest))) = false
      rw [List.cons_append] at hcomment
      rw [hcomment, beq_eq_false_iff_ne.mpr hsemi]
      rfl

/-- A written default is read back, and its absence as an empty one. -/
theorem initial_ending {value : Option String} (h : ∀ v, value = some v → IsInitial v)
    (rest : List Char) :
    initial ((ending value).toList ++ rest) = ((value.getD "").toList, ';' :: rest) := by
  cases value with
  | none => rfl
  | some v =>
      have hv := h v rfl
      have hne : v.toList ≠ [] := by
        intro hnil
        exact hv.nonempty (String.toList_eq_nil_iff.mp hnil)
      have htext : (ending (some v)).toList ++ rest
          = ' ' :: ':' :: '=' :: ' ' :: (v.toList ++ ';' :: rest) := by
        unfold ending
        rw [String.toList_append, String.toList_append]
        simp
      unfold initial
      rw [htext, mark?_space]
      show spanUntil atDefaultEnd (skip (' ' :: (v.toList ++ ';' :: rest))) = _
      rw [skip_space, skip_append_of_isTrimmed hv.trimmed hne,
        spanUntil_append_of_stop (atDefaultEnd_of_isInitial hv rest) rfl]
      rfl

/-- The name of a type ends where a default starts, or the semicolon. -/
theorem atTypeEnd_ending (value : Option String) (rest : List Char) :
    atTypeEnd ((ending value).toList ++ rest) = true := by
  cases value with
  | none => rfl
  | some v =>
      unfold ending
      rw [String.toList_append, String.toList_append]
      rfl

/-! ## The forms -/

theorem trimmedToken_toList {s : String} (h : IsTrimmed s.toList) :
    trimmedToken s.toList = s := by
  unfold trimmedToken
  rw [h.trim_eq, String.ofList_toList]

/-- A default has no blanks around it that could get lost. -/
theorem trimmedToken_initial {value : Option String} (h : ∀ v, value = some v → IsInitial v) :
    trimmedToken (value.getD "").toList = value.getD "" := by
  refine trimmedToken_toList ?_
  cases value with
  | none => exact isTrimmed_nil
  | some v => exact (h v rfl).trimmed

theorem isTrimmed_scalarType (t : ScalarType) : IsTrimmed t.name.toList := by
  have hany : t.name.toList.any isBlank = false := by cases t <;> rfl
  exact isTrimmed_of_blankless fun c hc => Bool.eq_false_iff.mpr (List.any_eq_false.mp hany c hc)

/-- Behind the colon of a structure only the form of structures is found. -/
theorem spec?_struct (comment : String) :
    spec? (" STRUCT".toList ++ (remark comment).toList)
      = some (.struct, (remark comment).toList) := by
  have hword : word? "STRUCT".toList (" STRUCT".toList ++ (remark comment).toList)
      = some (remark comment).toList := rfl
  unfold spec? struct?
  simp only [hword, Option.bind_eq_bind, Option.bind_some, ending?_remark, Option.isSome_some,
    if_true, Option.some_or]

/-- The type and the default of a scalar are found: its type is none of the
    keywords of the other forms. -/
theorem spec?_scalar {t : ScalarType} (ht : t.needsLength = false) {value : Option String}
    (hvalue : ∀ v, value = some v → IsInitial v) (rest : List Char) :
    spec? (' ' :: (t.name.toList ++ ((ending value).toList ++ rest)))
      = some (.plain (.scalar t.name (value.getD "")), rest) := by
  have hscalar : scalar? (' ' :: (t.name.toList ++ ((ending value).toList ++ rest)))
      = some (.plain (.scalar t.name (value.getD "")), rest) := by
    unfold scalar?
    simp only [token?_scalarType t (atTypeEnd_ending value rest), initial_ending hvalue,
      mark?_cons (m := ';') rfl, trimmedToken_toList (isTrimmed_scalarType t),
      trimmedToken_initial hvalue, Option.bind_eq_bind, Option.bind_some]
  -- no other form starts with the name of a type that has a size of its own
  have hstruct : struct? (' ' :: (t.name.toList ++ ((ending value).toList ++ rest))) = none := by
    cases t <;> rfl
  have hreference :
      reference? (' ' :: (t.name.toList ++ ((ending value).toList ++ rest))) = none := by
    cases t <;> rfl
  have harray : array? (' ' :: (t.name.toList ++ ((ending value).toList ++ rest))) = none := by
    cases t <;> rfl
  have htext : text? (' ' :: (t.name.toList ++ ((ending value).toList ++ rest))) = none := by
    cases t <;> first | rfl | exact nomatch ht
  unfold spec?
  rw [hstruct, hreference, harray, htext, hscalar]
  rfl

/-- The capacity of a string is found. -/
theorem spec?_text (capacity : Nat) (rest : List Char) :
    spec? (" STRING[".toList ++ ((Decimal.ofNat capacity).toList ++ ("];".toList ++ rest)))
      = some (.plain (.text (Decimal.ofNat capacity)), rest) := by
  have hdigits := Decimal.isNumeral_ofNat capacity
  have hspan : spanTo ']' ((Decimal.ofNat capacity).toList ++ ']' :: ';' :: rest)
      = ((Decimal.ofNat capacity).toList, ']' :: ';' :: rest) :=
    spanTo_append (hdigits.not_mem rfl (by decide))
      (fun c hc => isGap_of_isBlank_eq_false (hdigits.isTrimmed.head c hc)) rfl _
  -- a string has no default
  have hinitial : initial (';' :: rest) = ([], ';' :: rest) := rfl
  have htext : text? (" STRING[".toList
        ++ ((Decimal.ofNat capacity).toList ++ (']' :: ';' :: rest)))
      = some (.plain (.text (Decimal.ofNat capacity)), rest) := by
    have hword : word? "STRING".toList (" STRING[".toList
          ++ ((Decimal.ofNat capacity).toList ++ (']' :: ';' :: rest)))
        = some ('[' :: ((Decimal.ofNat capacity).toList ++ (']' :: ';' :: rest))) := rfl
    unfold text?
    simp only [hword, mark?_cons (m := '[') rfl, mark?_cons (m := ']') rfl,
      mark?_cons (m := ';') rfl, hspan, hinitial, trimmedToken_toList hdigits.isTrimmed,
      Option.bind_eq_bind, Option.bind_some]
  unfold spec?
  rw [show "];".toList ++ rest = ']' :: ';' :: rest from rfl, htext]
  rfl

/-- The text of a range, with its first and its last index. -/
def rangeText (first last : Int) : String :=
  Decimal.ofInt first ++ ".." ++ Decimal.ofInt last

/-- A range is written as its ends with two dots between them. -/
theorem toList_rangeText (first last : Int) :
    (rangeText first last).toList
      = (Decimal.ofInt first).toList ++ ('.' :: '.' :: (Decimal.ofInt last).toList) := by
  unfold rangeText
  rw [String.toList_append, String.toList_append, List.append_assoc]
  rfl

theorem isTrimmed_rangeText (first last : Int) : IsTrimmed (rangeText first last).toList := by
  have hfirst := Decimal.isNumeral_ofInt first
  have hlast := Decimal.isNumeral_ofInt last
  rw [toList_rangeText]
  refine isTrimmed_append hfirst.1 (by simp) hfirst.isTrimmed.head ?_
  intro c hc
  refine hlast.isTrimmed.last c ?_
  have hcons : ∀ d, (d :: (Decimal.ofInt last).toList).getLast?
      = (Decimal.ofInt last).toList.getLast? := by
    intro d
    rw [List.getLast?_cons, List.getLast?_eq_some_getLast hlast.1, Option.getD_some]
  rw [List.getLast?_cons_cons, hcons] at hc
  exact hc

/-- In the text of a range there are digits, signs and dots only. -/
theorem not_mem_rangeText {first last : Int} {m : Char} (hd : m.isDigit = false)
    (hm : m ≠ '-') (hdot : m ≠ '.') : m ∉ (rangeText first last).toList := by
  rw [toList_rangeText]
  simp [(Decimal.isNumeral_ofInt first).not_mem hd hm,
    (Decimal.isNumeral_ofInt last).not_mem hd hm, hdot]

/-- The range, the type and the default of an array are found. -/
theorem spec?_array (first last : Int) {t : ScalarType} {value : Option String}
    (hvalue : ∀ v, value = some v → IsInitial v) (rest : List Char) :
    spec? (" ARRAY[".toList ++ ((rangeText first last).toList ++ ("] OF ".toList
        ++ (t.name.toList ++ ((ending value).toList ++ rest)))))
      = some (.plain (.array (rangeText first last) t.name (value.getD "")), rest) := by
  have hclosed : ']' ∉ (rangeText first last).toList :=
    not_mem_rangeText rfl (by decide) (by decide)
  have htype := token?_scalarType t (atTypeEnd_ending value rest)
  -- from here on only the token behind `OF` matters, not what spells it
  generalize hfollow : t.name.toList ++ ((ending value).toList ++ rest) = follow at htype ⊢
  have hspan : spanTo ']' ((rangeText first last).toList ++ ']' :: (" OF ".toList ++ follow))
      = ((rangeText first last).toList, ']' :: (" OF ".toList ++ follow)) :=
    spanTo_append hclosed
      (fun c hc => isGap_of_isBlank_eq_false ((isTrimmed_rangeText first last).head c hc)) rfl _
  have hword : word? "ARRAY".toList (" ARRAY[".toList
        ++ ((rangeText first last).toList ++ ("] OF ".toList ++ follow)))
      = some ('[' :: ((rangeText first last).toList ++ ']' :: (" OF ".toList ++ follow))) := rfl
  have hof : word? "OF".toList (" OF ".toList ++ follow) = some (' ' :: follow) := rfl
  have harray : array? (" ARRAY[".toList
        ++ ((rangeText first last).toList ++ ("] OF ".toList ++ follow)))
      = some (.plain (.array (rangeText first last) t.name (value.getD "")), rest) := by
    unfold array?
    simp only [hword, mark?_cons (m := '[') rfl, mark?_cons (m := ']') rfl,
      mark?_cons (m := ';') rfl, hspan, hof, htype, initial_ending hvalue,
      trimmedToken_toList (isTrimmed_rangeText first last),
      trimmedToken_toList (isTrimmed_scalarType t), trimmedToken_initial hvalue,
      Option.bind_eq_bind, Option.bind_some]
  unfold spec?
  rw [harray]
  rfl

end Grammar

end PlcTypes
