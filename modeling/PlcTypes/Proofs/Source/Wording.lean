import PlcTypes.Proofs.Decimal
import PlcTypes.Proofs.Field.WellFormed
import PlcTypes.Proofs.Grammar.Wording
import PlcTypes.Source.Stage

/-! # Every wording of a declaration is read

    One field can be declared in many wordings: with its name in quotes or not,
    with settings, with any gaps between the tokens, with its keywords and its
    type in any case of their letters, with zeros and plus signs before its
    numbers, with a default and a comment or without.  In each of them the line is
    read as the field that the constructors make from what it says.

    The form of a declaration is tried after others.  None of these takes the line
    away: the keyword that they start with is neither the start of the token that
    stands there, nor does it start with that token. -/

namespace PlcTypes

open Text Grammar

/-! ## Keywords and types -/

/-- A character that goes on in every kind of token, and is no blank. -/
def isWordChar (c : Char) : Bool :=
  isPlain c && c != ';' && !isBlank c

/-- Lower case letters are such characters. -/
theorem isWordChar_of_isLower {c : Char} (h : c.isLower = true) : isWordChar c = true := by
  have hblank : isBlank c = false := by
    have hc : 97 ≤ c.toNat ∧ c.toNat ≤ 122 := by
      change (decide (c.val ≥ 'a'.val) && decide (c.val ≤ 'z'.val)) = true at h
      simpa [UInt32.le_iff_toNat_le] using h
    rw [isBlank]
    simp only [blankRanges, List.any_cons, List.any_nil, Bool.or_false, Bool.or_eq_false_iff,
      Bool.and_eq_false_iff, decide_eq_false_iff_not]
    omega
  have hne : ∀ d : Char, d.isLower = false → c ≠ d := by
    rintro d hd rfl
    rw [h] at hd
    exact Bool.noConfusion hd
  simp only [isWordChar, isPlain, isGap, hblank, bne_iff_ne, Bool.and_eq_true,
    Bool.not_eq_true', Bool.or_eq_false_iff, beq_eq_false_iff_ne, and_assoc]
  exact ⟨hne _ rfl, hne _ rfl, hne _ rfl, hne _ rfl, hne _ rfl, hne _ rfl, hne _ rfl, trivial⟩

/-- A character that is such a one in upper case is one itself. -/
theorem isWordChar_of_toUpper {c : Char} (h : isWordChar c.toUpper = true) :
    isWordChar c = true := by
  cases hc : c.isLower with
  | true => exact isWordChar_of_isLower hc
  | false =>
      -- only lower case is changed
      have hsame : c.toUpper = c := by
        refine dif_neg fun hlower => ?_
        have hcase : c.isLower = true :=
          Bool.and_eq_true_iff.mpr ⟨decide_eq_true hlower.1, decide_eq_true hlower.2⟩
        rw [hc] at hcase
        exact Bool.noConfusion hcase
      rwa [hsame] at h

/-- A word in any case of its letters is spelled in such characters. -/
theorem isWordChar_of_foldCase {letters word : List Char} (h : foldCase letters = word)
    (hword : word.all isWordChar = true) : ∀ c ∈ letters, isWordChar c = true := by
  intro c hc
  refine isWordChar_of_toUpper (List.all_eq_true.mp hword _ ?_)
  rw [← h]
  exact List.mem_map_of_mem hc

theorem of_isWordChar {c : Char} (h : isWordChar c = true) :
    isPlain c = true ∧ c ≠ ';' ∧ isBlank c = false := by
  simpa [isWordChar, and_assoc] using h

/-- A word in any case of its letters is a token that no gap can be taken from. -/
theorem isSolid_of_foldCase {letters word : List Char} (h : foldCase letters = word)
    (hne : word ≠ []) (hword : word.all isWordChar = true) : IsSolid letters := by
  refine isSolid_of_gapless ?_ fun c hc => isGap_of_isPlain
    (of_isWordChar (isWordChar_of_foldCase h hword c hc)).1
  rintro rfl
  exact hne h.symm

/-- The names of the types are spelled in such characters. -/
theorem isWordChar_name (t : ScalarType) : t.name.toList.all isWordChar = true := by
  cases t <;> decide

/-! ## What is declared -/

/-- What a declaration says of a field without members, but for its name and its
    comment. -/
inductive Parts where
  | scalar (type : ScalarType) (initial : Option String)
  | array (element : ScalarType) (first last : Int) (initial : Option String)
  | text (capacity : Nat)

namespace Parts

/-- The field that the constructors make from its parts.  A comment and a default
    are set if they are given. -/
def make (name : String) (comment : Option String) : Parts → Except Error Field
  | scalar type initial => do
      let f ← ScalarField.create name type
      let f := comment.elim f f.withComment
      return .scalar (← initial.elim (.ok f) f.withDefault)
  | array element first last initial => do
      let f ← ArrayField.create name element (.included first) (.included last)
      let f := comment.elim f f.withComment
      return .array (← initial.elim (.ok f) f.withDefault)
  | text capacity => do
      let f ← TextField.create name capacity
      return .text (comment.elim f f.withComment)

/-- How the parts of a field may be worded, up to the semicolon.  A string has no
    default, so it is of no account what is given as its default. -/
inductive Worded : Parts → List (List Char) → Prop
  | scalar {type : ScalarType} {initial : Option String} {letters : List Char}
      (htype : foldCase letters = type.name.toList) :
      (scalar type initial).Worded (letters :: defaultTokens initial)
  | array {element : ScalarType} {first last : Int} {initial : Option String}
      {array low high of letters : List Char} (harray : foldCase array = "ARRAY".toList)
      (hlow : Decimal.SpellsInt first low) (hhigh : Decimal.SpellsInt last high)
      (hfirst : isIndex first = true) (hlast : isIndex last = true)
      (hof : foldCase of = "OF".toList) (htype : foldCase letters = element.name.toList) :
      (Parts.array element first last initial).Worded
        (array :: ['['] :: low :: ['.', '.'] :: high :: [']'] :: of :: letters
          :: defaultTokens initial)
  | text {capacity : Nat} {ignored : Option String} {string digits : List Char}
      (hstring : foldCase string = "STRING".toList) (hdigits : Decimal.SpellsNat capacity digits)
      (hignored : ∀ v ∈ ignored, ';' ∉ v.toList ∧ holds commentMark v.toList = false) :
      (text capacity).Worded (string :: ['['] :: digits :: [']'] :: defaultTokens ignored)

end Parts

/-- How a line may be worded that declares a field. -/
inductive LineWorded (name : String) (parts : Parts) (comment : Option String) :
    List Char → Prop
  | line {token front rest : List Char} {settings form : List (List Char)}
      (hname : NameWorded name.toList token) (hsettings : SettingsWorded settings)
      (hform : parts.Worded form)
      (hspaced : Spaced (token :: (settings ++ [':'] :: (form ++ [[';']]))) front)
      (hend : EndWorded comment rest) : LineWorded name parts comment (front ++ rest)

/-! ## Reading the texts in a declaration -/

/-- A type is found by its name in any case. -/
theorem scalarTypeOf_worded {letters : List Char} {t : ScalarType}
    (h : foldCase letters = t.name.toList) :
    scalarTypeOf (trimmedToken letters) = .ok t := by
  have htrim : IsTrimmed letters := isTrimmed_of_blankless fun c hc =>
    (of_isWordChar (isWordChar_of_foldCase h (isWordChar_name t) c hc)).2.2
  have hname : foldCase t.name.toList = t.name.toList := by
    cases t <;> decide
  -- types are compared without the case of letters, so by their names
  have hfind : ScalarType.ofName? (String.ofList letters) = ScalarType.ofName? t.name := by
    have htext : IsTrimmed (String.ofList letters).toList := by rwa [String.toList_ofList]
    have htrim' : IsTrimmed t.name.toList := isTrimmed_of_blankless fun c hc =>
      (of_isWordChar (List.all_eq_true.mp (isWordChar_name t) c hc)).2.2
    rw [ScalarType.ofName?, ScalarType.ofName?, trimmed_eq_self htext, trimmed_eq_self htrim']
    simp only [sameName, String.toList_ofList, h, hname]
  rw [scalarTypeOf, trimmedToken, htrim.trim_eq, hfind, ScalarType.ofName?_name]

/-- A range is read in any wording. -/
theorem rangeOf_worded {low high text gap : List Char} {first last : Int}
    (hlow : Decimal.SpellsInt first low) (hhigh : Decimal.SpellsInt last high)
    (hfirst : isIndex first = true) (hlast : isIndex last = true)
    (hspaced : Spaced [low, ['.', '.'], high] text) (hgap : IsGaps gap) :
    rangeOf (trimmedToken (skip (text ++ gap))) = .ok (first, last) := by
  obtain ⟨front, cs, rfl, hfront, hspaced⟩ := hspaced.exists_cons
  obtain ⟨before, cs, rfl, hbefore, hspaced⟩ := hspaced.exists_cons
  obtain ⟨behind, cs, rfl, hbehind, hspaced⟩ := hspaced.exists_cons
  cases hspaced
  have hlow' : low ≠ [] := hlow.chars.1
  have hhigh' : high ≠ [] := hhigh.chars.1
  -- the range without the gaps at its ends
  have hrange : IsTrimmed (low ++ before ++ (['.', '.'] ++ (behind ++ high))) := by
    rw [List.append_assoc]
    refine isTrimmed_append hlow' (by simp) hlow.isTrimmed.head fun c hc => ?_
    refine hhigh.isTrimmed.last c ?_
    rw [← List.append_assoc, ← List.append_assoc, List.getLast?_append,
      List.getLast?_eq_some_getLast hhigh', Option.some_or] at hc
    rw [List.getLast?_eq_some_getLast hhigh', hc]
  have htrim : trim (skip (front ++ (low ++ (before ++ (['.', '.'] ++ (behind ++ (high ++ [])))))
      ++ gap)) = low ++ before ++ (['.', '.'] ++ (behind ++ high)) := by
    have hends := trim_gaps hfront hgap (low ++ before ++ (['.', '.'] ++ (behind ++ high)))
    rw [hrange.trim_eq] at hends
    rw [trim_skip, ← hends]
    simp
  have hcut : cutAt ['.', '.'] (low ++ before ++ (['.', '.'] ++ (behind ++ high)))
      = some (low ++ before, behind ++ high) := by
    refine cutAt_append ?_ (behind ++ high)
    rw [List.mem_append, not_or]
    exact ⟨hlow.not_mem (by decide) (by decide) (by decide), hbefore.not_mem (by decide)⟩
  have hindex : ∀ {i : Int} {cs : List Char}, Decimal.SpellsInt i cs → isIndex i = true →
      (Decimal.int? cs).filter isIndex = some i := by
    intro i cs hi hindex
    rw [hi.int?_eq, Option.filter_some_pos hindex]
  have hfirst' : indexOf? (low ++ before) = some first := by
    rw [indexOf?, trim_append_right hbefore.isBlank, hlow.isTrimmed.trim_eq, hindex hlow hfirst]
  have hlast' : indexOf? (behind ++ high) = some last := by
    rw [indexOf?, trim_append_left hbehind.isBlank, hhigh.isTrimmed.trim_eq, hindex hhigh hlast]
  rw [rangeOf, trimmedToken, String.toList_ofList, htrim, hrange.trim_eq, hcut]
  simp only [hfirst', hlast']
  rw [if_neg (by simp [hlow'])]

/-- A length is read in any wording. -/
theorem lengthOf_worded {digits text gap : List Char} {capacity : Nat}
    (hdigits : Decimal.SpellsNat capacity digits) (hfits : capacity < 18446744073709551616)
    (hspaced : Spaced [digits] text) (hgap : IsGaps gap) (field : String) :
    lengthOf field (trimmedToken (skip (text ++ gap))) = .ok capacity := by
  obtain ⟨front, cs, rfl, hfront, hspaced⟩ := hspaced.exists_cons
  cases hspaced
  have htrimmed : IsTrimmed digits := (Decimal.SpellsInt.nat hdigits).isTrimmed
  have htrim : trim (skip (front ++ (digits ++ []) ++ gap)) = digits := by
    have hends := trim_gaps hfront hgap digits
    rw [trim_skip, List.append_nil, List.append_assoc, hends, htrimmed.trim_eq]
  rw [lengthOf, trimmedToken, String.toList_ofList, htrim, htrimmed.trim_eq, hdigits.nat?_eq,
    Option.filter_some_pos (by simpa using hfits)]

/-- A text that is accepted as a default holds nothing that ends a declaration. -/
theorem of_defaultOf {s : String} {stored : Option String} (h : defaultOf s = .ok stored) :
    (';' ∉ s.toList ∧ holds commentMark s.toList = false) ∧
      defaultOf (trimmed s) = .ok stored := by
  rw [defaultOf] at h
  split at h
  · exact nomatch h
  · next hok =>
      simp only [Bool.or_eq_true, not_or, Bool.not_eq_true, List.contains_eq_mem,
        decide_eq_false_iff_not, List.any_eq_false] at hok
      obtain ⟨⟨hsemi, hmark⟩, hbreak⟩ := hok
      refine ⟨⟨hsemi, hmark⟩, ?_⟩
      -- what the trimmed text holds, the text holds
      have hinside : (trimmed s).toList <:+: s.toList := by
        rw [toList_trimmed]
        exact trim_isInfix _
      have htwice : trimmed (trimmed s) = trimmed s := by
        rw [trimmed, toList_trimmed, trim_trim]
        rfl
      rw [← h, defaultOf, htwice, if_neg]
      simp only [Bool.or_eq_true, not_or, Bool.not_eq_true, List.contains_eq_mem,
        decide_eq_false_iff_not, List.any_eq_false]
      exact ⟨⟨fun hc => hsemi (hinside.subset hc), holds_of_isInfix hinside hmark⟩,
        fun c hc => hbreak c (hinside.subset hc)⟩

/-- A comment without line breaks is stored alike with and without the blanks at its
    ends, and one that is not given like an empty one. -/
theorem oneLine_worded {comment : Option String}
    (h : ∀ text ∈ comment, ∀ c ∈ text.toList, isLineBreak c = false) :
    oneLine (String.ofList (trim (comment.getD "").toList)) = comment.elim "" oneLine := by
  cases comment with
  | none => rfl
  | some text =>
      have hbreak := h text rfl
      have hbreak' : ∀ c ∈ (trimmed text).toList, isLineBreak c = false := by
        intro c hc
        rw [toList_trimmed] at hc
        exact hbreak c (mem_of_mem_trim hc)
      show oneLine (trimmed text) = oneLine text
      rw [oneLine, oneLine, List.splitOnP_eq_singleton hbreak,
        List.splitOnP_eq_singleton hbreak', List.map_singleton, List.map_singleton,
        toList_trimmed, trim_trim]

/-- A default that is accepted ends no declaration.  It is set alike with and without
    the blanks at its ends, and one that is not given like an empty one. -/
theorem set_worded {α : Type} {g : α} {initial : Option String} (set : Option String → α)
    (h : initial.elim (.ok (set none)) (fun value => do return set (← defaultOf value)) = .ok g) :
    (∀ v ∈ initial, ';' ∉ v.toList ∧ holds commentMark v.toList = false) ∧
      ∀ read, trim read = trim (initial.getD "").toList →
        (do return set (← defaultOf (trimmedToken read)) : Except Error α) = .ok g := by
  cases initial with
  | none =>
      refine ⟨nofun, fun read hread => ?_⟩
      rw [trimmedToken, hread, ← h]
      rfl
  | some value =>
      obtain ⟨stored, hstored, hset⟩ := bind_eq_ok.mp h
      obtain ⟨hfree, hsame⟩ := of_defaultOf hstored
      refine ⟨?_, fun read hread => ?_⟩
      · rintro v ⟨⟩
        exact hfree
      · rw [trimmedToken, hread]
        exact bind_eq_ok.mpr ⟨stored, hsame, hset⟩

/-! ## Reading the forms -/

namespace Grammar

variable {letters front : List Char} {tokens : List (List Char)}

/-- A type is read up to the token behind it. -/
theorem exists_type {t : ScalarType} {value : Option String}
    (htype : foldCase letters = t.name.toList)
    (hspaced : Spaced (letters :: (defaultTokens value ++ [[';']])) front) :
    ∃ front', Spaced (defaultTokens value ++ [[';']]) front' ∧
      ∀ rest, token? atTypeEnd (front ++ rest) = some (letters, front' ++ rest) := by
  have hchars := isWordChar_of_foldCase htype (isWordChar_name t)
  have hne : t.name.toList ≠ [] := by
    cases t <;> decide
  have hgoes : ∀ part more, part <:+ letters → part ≠ [] → more.head? ≠ some '/' →
      atTypeEnd (part ++ more) = false := by
    intro part more hpart hpartne _
    obtain ⟨c, part, rfl⟩ := List.exists_cons_of_ne_nil hpartne
    obtain ⟨hplain, hsemi, -⟩ := of_isWordChar (hchars c (hpart.subset List.mem_cons_self))
    exact atTypeEnd_of_isPlain hplain hsemi (part ++ more)
  have hgap : ∀ c cs, isGap c = true → atTypeEnd (c :: cs) = true := by
    intro c cs hc
    rw [atTypeEnd, hc]
    simp
  have hsolid := isSolid_of_foldCase htype hne (isWordChar_name t)
  cases value with
  | none =>
      exact hspaced.exists_token? hsolid hgoes hgap (fun _ => rfl) (fun _ => by simp)
  | some v =>
      exact hspaced.exists_token? hsolid hgoes hgap (fun _ => rfl) (fun _ => by simp)

/-- A keyword is read. -/
theorem exists_keyword {word : List Char} (hword : foldCase letters = word) (hne : word ≠ [])
    (hchars : word.all isWordChar = true) (hspaced : Spaced (letters :: tokens) front) :
    ∃ front', Spaced tokens front' ∧
      ∀ rest, word? word (front ++ rest) = some (front' ++ rest) :=
  hspaced.exists_word? (isSolid_of_foldCase hword hne hchars) hword

/-- No form is read that starts with another keyword, and no reference. -/
theorem word?_eq_none_of_foldCase {word other : List Char} (hword : foldCase letters = word)
    (hne : word ≠ []) (hchars : word.all isWordChar = true)
    (hother : word.isPrefixOf other = false ∧ other.isPrefixOf word = false)
    (hspaced : Spaced (letters :: tokens) front) (rest : List Char) :
    word? other (front ++ rest) = none := by
  refine hspaced.word?_eq_none (isSolid_of_foldCase hword hne hchars) ?_ ?_ rest
  · rw [hword, ← List.isPrefixOf_iff_prefix, hother.1]
    exact Bool.false_ne_true
  · rw [hword, ← List.isPrefixOf_iff_prefix, hother.2]
    exact Bool.false_ne_true

/-- No reference is read where a keyword stands, since it starts with no quote. -/
theorem reference?_of_foldCase {word : List Char} (hword : foldCase letters = word)
    (hne : word ≠ []) (hchars : word.all isWordChar = true)
    (hspaced : Spaced (letters :: tokens) front) (rest : List Char) :
    reference? (front ++ rest) = none := by
  have hquote : ∀ c, letters.head? = some c → c ≠ '"' := by
    intro c hc
    have hplain := (of_isWordChar (isWordChar_of_foldCase hword hchars c (List.mem_of_head? hc))).1
    exact ne_of_isPlain hplain rfl
  rw [reference?, hspaced.mark?_eq_none (isSolid_of_foldCase hword hne hchars) hquote]
  rfl

/-- A form is passed over where its keyword does not stand. -/
theorem struct?_of_no_word {cs : List Char} (h : word? "STRUCT".toList cs = none) :
    struct? cs = none := by
  rw [struct?, h]
  rfl

theorem array?_of_no_word {cs : List Char} (h : word? "ARRAY".toList cs = none) :
    array? cs = none := by
  rw [array?, h]
  rfl

theorem text?_of_no_word {cs : List Char} (h : word? "STRING".toList cs = none) :
    text? cs = none := by
  rw [text?, h]
  rfl

/-- The form of a scalar is read in any wording. -/
theorem exists_scalar {t : ScalarType} (ht : t.needsLength = false) {value : Option String}
    (htype : foldCase letters = t.name.toList)
    (hvalue : ∀ v ∈ value, ';' ∉ v.toList ∧ holds commentMark v.toList = false)
    (hspaced : Spaced (letters :: (defaultTokens value ++ [[';']])) front) :
    ∃ read, trim read = trim (value.getD "").toList ∧ ∀ rest, spec? (front ++ rest)
      = some (.plain (.scalar (trimmedToken letters) (trimmedToken read)), rest) := by
  have hne : t.name.toList ≠ [] := by
    cases t <;> decide
  have hother : ∀ word ∈ ["STRUCT".toList, "ARRAY".toList, "STRING".toList],
      t.name.toList.isPrefixOf word = false ∧ word.isPrefixOf t.name.toList = false := by
    cases t <;> first | decide | exact nomatch ht
  have hnone := fun word hmem => word?_eq_none_of_foldCase htype hne (isWordChar_name t)
    (hother word hmem) hspaced
  obtain ⟨front', hspaced', htoken⟩ := exists_type htype hspaced
  obtain ⟨read, hread, hinitial⟩ := exists_initial hvalue hspaced'
  refine ⟨read, hread, fun rest => ?_⟩
  obtain ⟨behind, hdefault, hsemi⟩ := hinitial rest
  have hscalar : scalar? (front ++ rest)
      = some (.plain (.scalar (trimmedToken letters) (trimmedToken read)), rest) := by
    rw [scalar?]
    simp only [htoken, hdefault, hsemi, Option.bind_eq_bind, Option.bind_some]
  rw [spec?, struct?_of_no_word (hnone "STRUCT".toList (by simp) rest),
    reference?_of_foldCase htype hne (isWordChar_name t) hspaced,
    array?_of_no_word (hnone "ARRAY".toList (by simp) rest),
    text?_of_no_word (hnone "STRING".toList (by simp) rest), hscalar]
  rfl

/-- The text between brackets is read in any wording, but for the gaps at its
    ends. -/
theorem exists_bracketed (inner : List (List Char)) (hinner : ∀ token ∈ inner, ']' ∉ token)
    (hspaced : Spaced (['['] :: (inner ++ [']'] :: tokens)) front) :
    ∃ text gap front', Spaced inner text ∧ IsGaps gap ∧ Spaced tokens front' ∧
      ∀ rest, ∃ opened, mark? ['['] (front ++ rest) = some opened ∧
        spanTo ']' opened = (skip (text ++ gap), ']' :: (front' ++ rest)) := by
  obtain ⟨opened, hopened, hopening⟩ := hspaced.exists_mark? ⟨'[', [], rfl, by decide⟩
  obtain ⟨text, gap, front', htext, hgap, hspaced', rfl⟩ := hopened.exists_before
  have hfree : ']' ∉ text ++ gap := by
    rw [List.mem_append, not_or]
    exact ⟨htext.not_mem (by decide) hinner, hgap.not_mem (by decide)⟩
  refine ⟨text, gap, front', htext, hgap, hspaced', fun rest => ⟨_, hopening rest, ?_⟩⟩
  rw [List.append_assoc, List.cons_append]
  exact spanTo_eq hfree (by decide) (front' ++ rest)

/-- The form of an array is read in any wording. -/
theorem exists_array {array low high of : List Char} {t : ScalarType} {first last : Int}
    {value : Option String} (harray : foldCase array = "ARRAY".toList)
    (hlow : Decimal.SpellsInt first low) (hhigh : Decimal.SpellsInt last high)
    (hof : foldCase of = "OF".toList) (htype : foldCase letters = t.name.toList)
    (hvalue : ∀ v ∈ value, ';' ∉ v.toList ∧ holds commentMark v.toList = false)
    (hspaced : Spaced (array :: ['['] :: low :: ['.', '.'] :: high :: [']'] :: of :: letters
      :: (defaultTokens value ++ [[';']])) front) :
    ∃ text gap read, Spaced [low, ['.', '.'], high] text ∧ IsGaps gap ∧
      trim read = trim (value.getD "").toList ∧ ∀ rest, spec? (front ++ rest)
        = some (.plain (.array (trimmedToken (skip (text ++ gap))) (trimmedToken letters)
          (trimmedToken read)), rest) := by
  have hother : "ARRAY".toList.isPrefixOf "STRUCT".toList = false ∧
      "STRUCT".toList.isPrefixOf "ARRAY".toList = false := by decide
  have hclosed : ∀ token ∈ [low, ['.', '.'], high], ']' ∉ token := by
    simp only [List.forall_mem_cons]
    exact ⟨hlow.not_mem (by decide) (by decide) (by decide), by decide,
      hhigh.not_mem (by decide) (by decide) (by decide), nofun⟩
  obtain ⟨front₁, hspaced₁, hkeyword⟩ := exists_keyword harray (by decide) (by decide) hspaced
  obtain ⟨text, gap, front₂, htext, hgap, hspaced₂, hrange⟩ := exists_bracketed
    [low, ['.', '.'], high] hclosed hspaced₁
  obtain ⟨front₃, hspaced₃, hword⟩ := exists_keyword hof (by decide) (by decide) hspaced₂
  obtain ⟨front₄, hspaced₄, htoken⟩ := exists_type htype hspaced₃
  obtain ⟨read, hread, hinitial⟩ := exists_initial hvalue hspaced₄
  refine ⟨text, gap, read, htext, hgap, hread, fun rest => ?_⟩
  obtain ⟨opened, hopening, hspan⟩ := hrange rest
  obtain ⟨behind, hdefault, hsemi⟩ := hinitial rest
  have hform : array? (front ++ rest)
      = some (.plain (.array (trimmedToken (skip (text ++ gap))) (trimmedToken letters)
        (trimmedToken read)), rest) := by
    rw [array?]
    simp only [hkeyword, hopening, hspan, mark?_cons (m := ']') (by decide), hword, htoken,
      hdefault, hsemi, Option.bind_eq_bind, Option.bind_some]
  have hnone := word?_eq_none_of_foldCase harray (by decide) (by decide) hother hspaced rest
  rw [spec?, struct?_of_no_word hnone,
    reference?_of_foldCase harray (by decide) (by decide) hspaced, hform]
  rfl

/-- The form of a string is read in any wording, whatever stands as its default. -/
theorem exists_text {string digits : List Char} {capacity : Nat} {ignored : Option String}
    (hstring : foldCase string = "STRING".toList) (hdigits : Decimal.SpellsNat capacity digits)
    (hignored : ∀ v ∈ ignored, ';' ∉ v.toList ∧ holds commentMark v.toList = false)
    (hspaced : Spaced (string :: ['['] :: digits :: [']'] :: (defaultTokens ignored ++ [[';']]))
      front) :
    ∃ text gap, Spaced [digits] text ∧ IsGaps gap ∧ ∀ rest, spec? (front ++ rest)
      = some (.plain (.text (trimmedToken (skip (text ++ gap)))), rest) := by
  have hother : ∀ word ∈ ["STRUCT".toList, "ARRAY".toList],
      "STRING".toList.isPrefixOf word = false ∧ word.isPrefixOf "STRING".toList = false := by
    decide
  have hclosed : ∀ token ∈ [digits], ']' ∉ token := by
    rw [List.forall_mem_singleton]
    exact (Decimal.SpellsInt.nat hdigits).not_mem (by decide) (by decide) (by decide)
  have hnone := fun word hmem => word?_eq_none_of_foldCase hstring (by decide) (by decide)
    (hother word hmem) hspaced
  obtain ⟨front₁, hspaced₁, hkeyword⟩ := exists_keyword hstring (by decide) (by decide) hspaced
  obtain ⟨text, gap, front₂, htext, hgap, hspaced₂, hlength⟩ := exists_bracketed [digits]
    hclosed hspaced₁
  obtain ⟨read, -, hinitial⟩ := exists_initial hignored hspaced₂
  refine ⟨text, gap, htext, hgap, fun rest => ?_⟩
  obtain ⟨opened, hopening, hspan⟩ := hlength rest
  obtain ⟨behind, hdefault, hsemi⟩ := hinitial rest
  have hform : text? (front ++ rest)
      = some (.plain (.text (trimmedToken (skip (text ++ gap)))), rest) := by
    rw [text?]
    simp only [hkeyword, hopening, hspan, mark?_cons (m := ']') (by decide), hdefault, hsemi,
      Option.bind_eq_bind, Option.bind_some]
  rw [spec?, struct?_of_no_word (hnone "STRUCT".toList (by simp) rest),
    reference?_of_foldCase hstring (by decide) (by decide) hspaced,
    array?_of_no_word (hnone "ARRAY".toList (by simp) rest), hform]
  rfl

end Grammar

/-! ## Making the field -/

/-- A scalar is made without a comment and without a default. -/
theorem ScalarField.fresh_of_create {name : String} {type : ScalarType} {f : ScalarField}
    (h : create name type = .ok f) :
    f = { f with comment := "", initial := none } ∧ type.needsLength = false := by
  obtain ⟨n, -, h⟩ := bind_eq_ok.mp h
  obtain ⟨⟨⟩, hsized, h⟩ := bind_eq_ok.mp h
  obtain rfl := Except.ok.inj h
  exact ⟨rfl, needsLength_of_requireSized hsized⟩

/-- An array is made without a comment and without a default. -/
theorem ArrayField.fresh_of_create {name : String} {element : ScalarType} {low high : Bound}
    {f : ArrayField} (h : create name element low high = .ok f) :
    f = { f with comment := "", initial := none } := by
  have hmade := create_eq_ok.mp h
  rw [← hmade.comment, ← hmade.initial]

/-- A string field is made without a comment, and with room for its two bytes of
    length. -/
theorem TextField.fresh_of_create {name : String} {capacity : Nat} {f : TextField}
    (h : create name capacity = .ok f) :
    f = { f with comment := "" } ∧ capacity + 2 ≤ maxFieldBytes := by
  obtain ⟨n, -, h⟩ := bind_eq_ok.mp h
  dsimp only at h
  split at h
  · exact nomatch h
  · next hfits =>
      obtain rfl := Except.ok.inj h
      exact ⟨rfl, Nat.le_of_not_lt hfits⟩

section Commented

variable (comment : Option String)

/-- A scalar that has just been made, with a comment or without. -/
theorem ScalarField.commented {f : ScalarField}
    (h : f = { f with comment := "", initial := none }) :
    comment.elim f f.withComment
      = { f with comment := comment.elim "" oneLine, initial := none } := by
  rw [h]
  cases comment with
  | none => rfl
  | some text => rfl

/-- An array that has just been made, with a comment or without. -/
theorem ArrayField.commented {f : ArrayField}
    (h : f = { f with comment := "", initial := none }) :
    comment.elim f f.withComment
      = { f with comment := comment.elim "" oneLine, initial := none } := by
  rw [h]
  cases comment with
  | none => rfl
  | some text => rfl

/-- A string field that has just been made, with a comment or without. -/
theorem TextField.commented {f : TextField} (h : f = { f with comment := "" }) :
    comment.elim f f.withComment = { f with comment := comment.elim "" oneLine } := by
  rw [h]
  cases comment with
  | none => rfl
  | some text => rfl

end Commented

namespace Parts

variable {name name' : String} {comment : Option String} {f : Field}

/-- The name that is stored decides what is made. -/
theorem make_congr (h : nameOf name' = nameOf name) (parts : Parts) :
    parts.make name' comment = parts.make name comment := by
  cases parts <;>
    simp only [make, ScalarField.create, ArrayField.create, TextField.create, h]

/-- Whatever is made has a name that is accepted. -/
theorem exists_name {parts : Parts} (h : parts.make name comment = .ok f) :
    ∃ n, nameOf name = .ok n := by
  cases parts with
  | scalar type initial =>
      obtain ⟨made, hcreate, -⟩ := bind_eq_ok.mp h
      obtain ⟨n, hname, -⟩ := bind_eq_ok.mp hcreate
      exact ⟨n, hname⟩
  | array element first last initial =>
      obtain ⟨made, hcreate, -⟩ := bind_eq_ok.mp h
      obtain ⟨n, hname, -⟩ := bind_eq_ok.mp hcreate
      exact ⟨n, hname⟩
  | text capacity =>
      obtain ⟨made, hcreate, -⟩ := bind_eq_ok.mp h
      obtain ⟨n, hname, -⟩ := bind_eq_ok.mp hcreate
      exact ⟨n, hname⟩

/-- **THE FORM** of a declaration is read in any wording as something that the field
    is made from. -/
theorem exists_spec {parts : Parts} {n : String} {comment : Option String} {f : Field}
    {form : List (List Char)} {front : List Char} (hform : parts.Worded form)
    (hcomment : ∀ text ∈ comment, ∀ c ∈ text.toList, isLineBreak c = false)
    (hspaced : Spaced (form ++ [[';']]) front) (hmake : parts.make n comment = .ok f) :
    ∃ spec : PlainSpec, (∀ rest, spec? (front ++ rest) = some (.plain spec, rest)) ∧
      spec.field n (String.ofList (trim (comment.getD "").toList)) = .ok f := by
  cases hform with
  | scalar htype =>
      obtain ⟨made, hcreate, hmake⟩ := bind_eq_ok.mp hmake
      obtain ⟨g, hdefault, hmake⟩ := bind_eq_ok.mp hmake
      obtain rfl := Except.ok.inj hmake
      obtain ⟨hmade, hsized⟩ := ScalarField.fresh_of_create hcreate
      rw [ScalarField.commented comment hmade] at hdefault
      obtain ⟨hfree, hset⟩ := set_worded
        (fun stored => { made with comment := comment.elim "" oneLine, initial := stored }) hdefault
      obtain ⟨read, hread, hspec⟩ := exists_scalar hsized htype hfree hspaced
      refine ⟨_, hspec, ?_⟩
      refine bind_eq_ok.mpr ⟨_, scalarTypeOf_worded htype, ?_⟩
      refine bind_eq_ok.mpr ⟨made, hcreate, ?_⟩
      refine bind_eq_ok.mpr ⟨g, ?_, rfl⟩
      rw [ScalarField.withComment, oneLine_worded hcomment]
      exact hset read hread
  | array harray hlow hhigh hfirst hlast hof htype =>
      obtain ⟨made, hcreate, hmake⟩ := bind_eq_ok.mp hmake
      obtain ⟨g, hdefault, hmake⟩ := bind_eq_ok.mp hmake
      obtain rfl := Except.ok.inj hmake
      rw [ArrayField.commented comment (ArrayField.fresh_of_create hcreate)] at hdefault
      obtain ⟨hfree, hset⟩ := set_worded
        (fun stored => { made with comment := comment.elim "" oneLine, initial := stored }) hdefault
      obtain ⟨text, gap, read, htext, hgap, hread, hspec⟩ :=
        exists_array harray hlow hhigh hof htype hfree hspaced
      refine ⟨_, hspec, ?_⟩
      refine bind_eq_ok.mpr ⟨_, rangeOf_worded hlow hhigh hfirst hlast htext hgap, ?_⟩
      refine bind_eq_ok.mpr ⟨_, scalarTypeOf_worded htype, ?_⟩
      refine bind_eq_ok.mpr ⟨made, hcreate, ?_⟩
      refine bind_eq_ok.mpr ⟨g, ?_, rfl⟩
      rw [ArrayField.withComment, oneLine_worded hcomment]
      exact hset read hread
  | text hstring hdigits hignored =>
      obtain ⟨made, hcreate, hmake⟩ := bind_eq_ok.mp hmake
      obtain rfl := Except.ok.inj hmake
      obtain ⟨hmade, hfits⟩ := TextField.fresh_of_create hcreate
      have hlength := hfits.trans_lt (show maxFieldBytes < 18446744073709551616 by decide)
      obtain ⟨text, gap, htext, hgap, hspec⟩ := exists_text hstring hdigits hignored hspaced
      refine ⟨_, hspec, ?_⟩
      refine bind_eq_ok.mpr ⟨_, lengthOf_worded hdigits (by omega) htext hgap n, ?_⟩
      refine bind_eq_ok.mpr ⟨made, hcreate, ?_⟩
      rw [TextField.withComment, oneLine_worded hcomment, TextField.commented comment hmade]
      rfl

end Parts

/-! ## Reading the line -/

/-- Blanks around a name make no difference. -/
theorem nameOf_congr {name name' : String} (h : trim name'.toList = trim name.toList) :
    nameOf name' = nameOf name := by
  rw [nameOf, nameOf, trimmed, trimmed, h]

/-- A name that is accepted holds no quote and is not blank. -/
theorem of_nameOf {name n : String} (h : nameOf name = .ok n) :
    '"' ∉ name.toList ∧ trim name.toList ≠ [] := by
  have hstored := isNameText_of_nameOf h
  obtain ⟨-, rfl⟩ := nameOf_eq_ok.mp h
  have hne := hstored.ne_nil
  rw [toList_trimmed] at hne
  refine ⟨fun hc => ?_, hne⟩
  refine hstored.ne_quote ?_ rfl
  rw [toList_trimmed]
  exact mem_trim hc (by decide)

namespace Stage

variable {name : String} {parts : Parts} {comment : Option String} {f : Field}
  (refer : String → String → Traced TypeDefinition) (owner : String) (n : Nat) (v : String)
  (ms : Members)

/-- A line is read as a field from its name on. -/
theorem step_worded {token front rest : List Char} {settings form : List (List Char)}
    (hmake : parts.make name comment = .ok f)
    (hcomment : ∀ text ∈ comment, ∀ c ∈ text.toList, isLineBreak c = false)
    (hname : NameWorded name.toList token) (hsettings : SettingsWorded settings)
    (hform : parts.Worded form)
    (hspaced : Spaced (token :: (settings ++ [':'] :: (form ++ [[';']]))) front)
    (hend : ending? rest = some (trim (comment.getD "").toList)) :
    step refer owner n (front ++ rest) (.members v ms)
      = pure (.more (.members v (ms.add f))) := by
  obtain ⟨stored, hstored⟩ := Parts.exists_name hmake
  obtain ⟨hquote, hblank⟩ := of_nameOf hstored
  have hne : name.toList ≠ [] := by
    intro hnil
    rw [hnil] at hblank
    exact hblank rfl
  obtain ⟨read, front₁, hread, hspaced₁, hnamed⟩ :=
    exists_fieldName? hname hquote hne hsettings hspaced
  obtain ⟨front₂, hspaced₂, hskipped⟩ := exists_skipSettings hsettings hspaced₁
  obtain ⟨front₃, hspaced₃, hcolon⟩ := hspaced₂.exists_mark? ⟨':', [], rfl, by decide⟩
  have hsame : nameOf stored = nameOf name := by
    rw [hstored, (isNameText_of_nameOf hstored).nameOf_eq]
  rw [← Parts.make_congr hsame] at hmake
  obtain ⟨spec, hspec, hfield⟩ := Parts.exists_spec hform hcomment hspaced₃ hmake
  have hdeclared : declaration? (front ++ rest)
      = some { name := trimmedToken read, spec := .plain spec,
               comment := String.ofList (trim (comment.getD "").toList) } := by
    rw [declaration?]
    simp only [hnamed, hskipped, hcolon, hspec, hend, Option.bind_eq_bind, Option.bind_some,
      Option.pure_def]
  have hname' : nameOf (trimmedToken read) = .ok stored := by
    rw [← hstored]
    refine nameOf_congr ?_
    rw [trimmedToken, String.toList_ofList, trim_trim, hread]
  rw [step, BodyLine.ofText_of_declaration? hdeclared]
  dsimp only
  rw [declare]
  dsimp only
  rw [hname', Traced.lift_ok, pure_bind, hfield]
  rfl

/-- What is left of a line when its ends are trimmed is worded like the line. -/
theorem exists_trimmed {token front : List Char} {tokens : List (List Char)}
    (hname : NameWorded name.toList token) (hblank : trim name.toList ≠ [])
    (hspaced : Spaced (token :: (tokens ++ [[';']])) front) (rest : List Char) :
    ∃ name' token' front', trim name' = trim name.toList ∧ NameWorded name' token' ∧
      Spaced (token' :: (tokens ++ [[';']])) front' ∧
      trim (front ++ rest) = front' ++ trimEnd rest := by
  obtain ⟨hne, name', hname', hworded⟩ := hname.trimStart hblank
  obtain ⟨gap, cs, rfl, hgap, hspaced⟩ := hspaced.exists_cons
  obtain ⟨before, rfl⟩ := hspaced.exists_last
  refine ⟨name', trimStart token, trimStart token ++ (before ++ [';']), hname', hworded,
    .cons IsGaps.nil hspaced, ?_⟩
  have hstart : trimStart (gap ++ (token ++ (before ++ [';'])) ++ rest)
      = trimStart token ++ (before ++ [';'] ++ rest) := by
    rw [List.append_assoc, List.append_assoc, trimStart,
      List.dropWhile_append_of_pos hgap.isBlank, List.dropWhile_append, if_neg]
    · rfl
    · rw [List.isEmpty_iff]
      exact hne
  have hline : trimStart token ++ (before ++ [';'] ++ rest)
      = trimStart token ++ before ++ ';' :: rest := by simp
  rw [trim, hstart, hline, trimEnd_append_cons (by decide)]
  simp

/-- **EVERY WORDING IS READ**: let a line be worded in any way that declares a field of
    some name, with some parts and perhaps with a comment on one line.  If the
    constructors make a field of these, the reader takes the line for exactly this
    field, whether the line has been trimmed or not. -/
theorem reads_every_wording {s : String} (hmake : parts.make name comment = .ok f)
    (hcomment : ∀ text ∈ comment, ∀ c ∈ text.toList, isLineBreak c = false)
    (hline : LineWorded name parts comment s.toList) :
    step refer owner n s.toList (.members v ms) = pure (.more (.members v (ms.add f))) ∧
      ∀ rest, run refer owner n (.members v ms) (.text s :: rest)
        = run refer owner (n + 1) (.members v (ms.add f)) rest := by
  generalize hcs : s.toList = cs at hline
  cases hline with
  | @line token front rest settings form hname hsettings hform hspaced hend =>
      obtain ⟨hend, hend'⟩ := hend.ending?_eq
      constructor
      · exact step_worded refer owner n v ms hmake hcomment hname hsettings hform hspaced hend
      · -- the reader sees the line trimmed
        intro lines
        obtain ⟨stored, hstored⟩ := Parts.exists_name hmake
        have hassoc : settings ++ [':'] :: (form ++ [[';']])
            = (settings ++ [':'] :: form) ++ [[';']] := by simp
        rw [hassoc] at hspaced
        obtain ⟨name', token', front', hsame, hname', hspaced', htrim⟩ :=
          exists_trimmed hname (of_nameOf hstored).2 hspaced rest
        rw [← hassoc] at hspaced'
        have hstored' : nameOf (String.ofList name') = nameOf name :=
          nameOf_congr (by rw [String.toList_ofList, hsame])
        have hmake' : parts.make (String.ofList name') comment = .ok f := by
          rw [Parts.make_congr hstored']
          exact hmake
        have hworded : NameWorded (String.ofList name').toList token' := by
          rw [String.toList_ofList]
          exact hname'
        rw [run, hcs, htrim, step_worded refer owner (n + 1) v ms hmake' hcomment hworded
          hsettings hform hspaced' hend', pure_bind]

/-- A line with a name in quotes, settings, hardly a gap between its tokens, and
    numbers with signs and zeros. -/
def axesLine : String :=
  "\t\"a:b\"\x7b x := '1; // y' \x7d:aRRay[ -0 ..+007]ofint:= 4/2 ;//  done "

/-- What it declares. -/
def axesParts : Parts :=
  .array .int 0 7 (some "4/2")

/-- A line with a quoted name, settings, keywords in mixed case, signed bounds and
    zeros before them. -/
theorem reads_every_wording_axes :
    axesParts.make "a:b" (some "done") = .ok (.array ⟨"a:b", "done", .int, 0, 8, some "4/2"⟩) ∧
      LineWorded "a:b" axesParts (some "done") axesLine.toList ∧
      step (fun _ _ => Traced.fail (.notFound "")) "Robot" 4 axesLine.toList (.members "0.1" .empty)
        = pure (.more (.members "0.1" ⟨[.array ⟨"a:b", "done", .int, 0, 8, some "4/2"⟩], []⟩)) := by
  have hmake : axesParts.make "a:b" (some "done")
      = .ok (.array ⟨"a:b", "done", .int, 0, 8, some "4/2"⟩) := by decide
  have hcomment : ∀ text ∈ some "done", ∀ c ∈ text.toList, isLineBreak c = false := by
    rintro text ⟨⟩
    simp [isLineBreak]
  have hlow : Decimal.SpellsInt 0 "-0".toList := .minus 0 0
  have hhigh : Decimal.SpellsInt 7 "+007".toList := .nat (.plus 2)
  have hform : axesParts.Worded ("aRRay".toList :: ['['] :: "-0".toList :: ['.', '.']
      :: "+007".toList :: [']'] :: "of".toList :: "int".toList :: defaultTokens (some "4/2")) :=
    .array (by decide) hlow hhigh (by decide) (by decide) (by decide) (by decide)
  have hnone : IsGaps [] := by decide
  have hspace : IsGaps [' '] := by decide
  have htab : IsGaps ['\t'] := by decide
  have hwide : IsGaps [' ', ' '] := by decide
  have hspaced : Spaced (('"' :: ("a:b".toList ++ ['"']))
        :: (['\x7b' :: (" x := '1; // y' ".toList ++ ['\x7d'])] ++ [':']
          :: (("aRRay".toList :: ['['] :: "-0".toList :: ['.', '.'] :: "+007".toList :: [']']
            :: "of".toList :: "int".toList :: defaultTokens (some "4/2")) ++ [[';']]))) _ :=
    .cons htab (.cons hnone (.cons hnone (.cons hnone (.cons hnone (.cons hspace (.cons hspace
      (.cons hnone (.cons hnone (.cons hnone (.cons hnone (.cons hnone (.cons hspace
        (.cons hspace .nil)))))))))))))
  have hline : LineWorded "a:b" axesParts (some "done") axesLine.toList :=
    LineWorded.line .quoted (.given (by decide)) hform hspaced (.comment hnone hwide hspace)
  exact ⟨hmake, hline, (reads_every_wording _ _ _ _ _ hmake hcomment hline).1⟩

end Stage

end PlcTypes
