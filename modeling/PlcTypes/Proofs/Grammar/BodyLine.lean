import PlcTypes.Proofs.Grammar.Tokens

/-! # A line inside a structure is one thing

    Blank lines, remarks, closing lines and declarations are told apart in a
    fixed order.  Here the order is shown not to matter to declarations: what
    is read as a declaration is neither blank, nor a remark, nor a closing
    line, although a name may well be spelled `END_STRUCT;`.

    The reason for the last is that a name ends before a blank or a comment,
    and that after the semicolon of a closing line nothing but a comment
    comes; so no colon is left for the declaration.

    The other kinds exclude each other as well, so each test finds what the
    reader finds, and any order of the tests would do. -/

namespace PlcTypes.Grammar

open Text

/-- A declaration is not read when no colon follows its name. -/
theorem declaration?_of_no_colon {cs name rest : List Char}
    (hname : fieldName? cs = some (name, rest))
    (hrest : ∀ c, (skip rest).head? = some c → c ≠ '{' ∧ c ≠ ':') :
    declaration? cs = none := by
  have hsettings : skipSettings rest = rest := by
    unfold skipSettings
    rw [mark?_eq_none fun c hc => (hrest c hc).1]
  have hcolon : mark? [':'] (skipSettings rest) = none := by
    rw [hsettings]
    exact mark?_eq_none fun c hc => (hrest c hc).2
  unfold declaration?
  rw [hname]
  show (mark? [':'] (skipSettings rest)).bind _ = none
  rw [hcolon]
  rfl

/-- A name without a quote before it ends at the first mark that ends a name. -/
theorem fieldName?_of_unquoted {cs : List Char}
    (h : ∀ c, (skip cs).head? = some c → c ≠ '"') :
    fieldName? cs = token? atNameEnd cs := by
  unfold fieldName?
  rw [mark?_eq_none h]

/-! ## Remarks -/

/-- A remark is not read as a declaration. -/
theorem declaration?_of_atComment {cs : List Char} (h : atComment cs = true) :
    declaration? cs = none := by
  obtain ⟨text, rfl⟩ := List.isPrefixOf_iff_prefix.mp h
  rfl

/-! ## Closing lines -/

/-- A character that goes on in a name without quotes wherever it comes. -/
def isPlain (c : Char) : Bool :=
  c != ':' && c != '{' && c != '"' && c != '/' && !isGap c

/-- The characters of the closing keyword go on in a name, in either case. -/
theorem isPlain_of_toUpper {c : Char} (h : c.toUpper ∈ "END_STRUCT".toList) :
    isPlain c = true := by
  cases hc : isPlain c with
  | true => rfl
  | false =>
      -- the characters that are not plain are their own upper case
      unfold isPlain isGap at hc
      simp only [Bool.and_eq_false_iff, bne_eq_false_iff_eq, Bool.not_eq_false',
        Bool.or_eq_true, beq_iff_eq] at hc
      rcases hc with (((rfl | rfl) | rfl) | rfl) | (rfl | rfl) <;> exact absurd h (by decide)

theorem ne_of_isPlain {c m : Char} (h : isPlain c = true) (hm : isPlain m = false) : c ≠ m := by
  rintro rfl
  rw [h] at hm
  exact absurd hm Bool.noConfusion

theorem isGap_of_isPlain {c : Char} (h : isPlain c = true) : isGap c = false := by
  unfold isPlain at h
  rw [Bool.and_eq_true, Bool.not_eq_true'] at h
  exact h.2

/-- A mark that starts with another character does not start here. -/
theorem isPrefixOf_of_isPlain {c m : Char} (h : isPlain c = true) (hm : isPlain m = false)
    (mark cs : List Char) : (m :: mark).isPrefixOf (c :: cs) = false := by
  rw [List.isPrefixOf_cons_cons, beq_eq_false_iff_ne.mpr (ne_of_isPlain h hm).symm,
    Bool.false_and]

/-- No name ends before a plain character. -/
theorem atNameEnd_of_isPlain {c : Char} (h : isPlain c = true) (cs : List Char) :
    atNameEnd (c :: cs) = false := by
  have hcomment : atComment (c :: cs) = false := isPrefixOf_of_isPlain h rfl ['/'] cs
  rw [atNameEnd_cons, hcomment, isGap_of_isPlain h,
    beq_eq_false_iff_ne.mpr (ne_of_isPlain h rfl), beq_eq_false_iff_ne.mpr (ne_of_isPlain h rfl),
    beq_eq_false_iff_ne.mpr (ne_of_isPlain h rfl)]
  rfl

/-- No type ends before a plain character that is not the semicolon. -/
theorem atTypeEnd_of_isPlain {c : Char} (h : isPlain c = true) (hsemi : c ≠ ';')
    (cs : List Char) : atTypeEnd (c :: cs) = false := by
  have hassign : [':', '='].isPrefixOf (c :: cs) = false := isPrefixOf_of_isPlain h rfl ['='] cs
  have hcomment : atComment (c :: cs) = false := isPrefixOf_of_isPlain h rfl ['/'] cs
  show (c == ';' || isGap c || [':', '='].isPrefixOf (c :: cs) || atComment (c :: cs)) = false
  rw [hassign, hcomment, isGap_of_isPlain h, beq_eq_false_iff_ne.mpr hsemi]
  rfl

/-- A name ends before the end of a line, also before the comment there. -/
theorem atNameEnd_of_ending? {cs : List Char} (h : (ending? cs).isSome = true) :
    atNameEnd cs = true := by
  cases cs with
  | nil => rfl
  | cons c cs =>
      cases hg : isGap c with
      | true => exact atNameEnd_of_isGap hg cs
      | false =>
          rcases ending?_isSome h with hnil | ⟨text, htext⟩
          · rw [skip_cons hg] at hnil
            exact nomatch hnil
          · rw [skip_cons hg] at htext
            rw [htext]
            rfl

/-- No colon is left after a name that is followed by a semicolon and the end
    of the line: a name ends at a gap before the semicolon or else after it. -/
theorem no_colon_of_semicolon {rest after : List Char} (hsemi : skip rest = ';' :: after)
    (hending : (ending? after).isSome = true) :
    ∀ c, (skip (spanUntil atNameEnd rest).2).head? = some c → c ≠ '{' ∧ c ≠ ':' := by
  intro c hc
  cases rest with
  | nil => cases hsemi
  | cons r rest =>
      cases hgap : isGap r with
      | true =>
          -- the name ends here, and the semicolon is what comes next
          rw [spanUntil_of_stop (atNameEnd_of_isGap hgap rest), hsemi] at hc
          rw [← Option.some.inj hc]
          decide
      | false =>
          -- the semicolon belongs to the name, which ends where the line ends
          rw [skip_cons hgap] at hsemi
          obtain ⟨rfl, rfl⟩ := List.cons.inj hsemi
          have hgo : atNameEnd (';' :: rest) = false := atNameEnd_of_isPlain rfl rest
          rw [spanUntil, hgo, spanUntil_of_stop (atNameEnd_of_ending? hending)] at hc
          have hc' : (skip rest).head? = some c := hc
          rcases ending?_isSome hending with hnil | ⟨text, htext⟩
          · rw [hnil] at hc'
            cases hc'
          · rw [htext] at hc'
            rw [← Option.some.inj hc']
            decide

/-- A closing line is not read as a declaration. -/
theorem declaration?_of_isEndStruct {cs : List Char} (h : isEndStruct cs = true) :
    declaration? cs = none := by
  unfold isEndStruct at h
  obtain ⟨comment, hcomment⟩ := Option.isSome_iff_exists.mp h
  obtain ⟨after, hafter, hending⟩ := Option.bind_eq_some_iff.mp hcomment
  obtain ⟨rest, hrest, hsemi⟩ := Option.bind_eq_some_iff.mp hafter
  obtain ⟨spelled, hspelled, hword⟩ := word?_eq_some hrest
  -- the word goes on in a name at each of its letters, whatever their case
  have hplain : ∀ c ∈ spelled, isPlain c = true := by
    intro c hc
    refine isPlain_of_toUpper ?_
    rw [← hword]
    exact List.mem_map_of_mem hc
  have hne : spelled ≠ [] := by
    rintro rfl
    exact absurd hword (by decide)
  have hbody : ∀ part, part <:+ spelled → part ≠ [] → atNameEnd (part ++ rest) = false := by
    intro part hpart hpartne
    cases part with
    | nil => exact absurd rfl hpartne
    | cons c part => exact atNameEnd_of_isPlain (hplain c (hpart.subset (by simp))) _
  have hquote : ∀ c, (skip cs).head? = some c → c ≠ '"' := by
    intro c hc
    rw [hspelled] at hc
    cases spelled with
    | nil => exact absurd rfl hne
    | cons s spelled =>
        rw [← Option.some.inj hc]
        exact ne_of_isPlain (hplain s (by simp)) rfl
  have hname : fieldName? cs
      = some (spelled ++ (spanUntil atNameEnd rest).1, (spanUntil atNameEnd rest).2) := by
    rw [fieldName?_of_unquoted hquote]
    unfold token?
    rw [hspelled, spanUntil_append hbody]
    simp [hne]
  have hend : (ending? after).isSome = true := Option.isSome_iff_exists.mpr ⟨comment, hending⟩
  exact declaration?_of_no_colon hname (no_colon_of_semicolon (mark?_eq_some hsemi) hend)

/-! ## Telling them apart -/

/-- A remark starts with no word. -/
theorem word?_of_atComment {c : Char} {word cs : List Char} (h : atComment cs = true)
    (hc : c ≠ '/') : word? (c :: word) cs = none := by
  obtain ⟨text, rfl⟩ := List.isPrefixOf_iff_prefix.mp h
  cases hword : word? (c :: word) (commentMark ++ text) with
  | none => rfl
  | some rest =>
      -- the first letter of the word would be a slash
      obtain ⟨spelled, hspelled, hfold⟩ := word?_eq_some hword
      cases spelled with
      | nil => exact nomatch hfold
      | cons d spelled =>
          have hslash : '/' = d := (List.cons.inj hspelled).1
          rw [← hslash] at hfold
          exact absurd (List.cons.inj hfold).1.symm hc

/-- A closing line is no remark. -/
theorem isEndStruct_of_atComment {cs : List Char} (h : atComment cs = true) :
    isEndStruct cs = false := by
  have hword : word? "END_STRUCT".toList cs = none := word?_of_atComment h (by decide)
  rw [isEndStruct, hword]
  rfl

/-- A remark is not read as the line that ends a definition. -/
theorem isEndType_of_atComment {cs : List Char} (h : atComment cs = true) :
    isEndType cs = false := by
  have hword : word? "END_TYPE".toList cs = none := word?_of_atComment h (by decide)
  rw [isEndType, hword]
  rfl

/-- What is read as a declaration is told to be one. -/
theorem BodyLine.ofText_of_declaration? {cs : List Char} {d : Declaration}
    (h : declaration? cs = some d) : ofText cs = .declaration d := by
  have hempty : cs.isEmpty = false := by
    cases cs with
    | nil => exact nomatch h
    | cons c cs => rfl
  have hcomment : atComment cs = false := by
    cases hc : atComment cs with
    | false => rfl
    | true =>
        rw [declaration?_of_atComment hc] at h
        exact nomatch h
  have hclosing : isEndStruct cs = false := by
    cases hc : isEndStruct cs with
    | false => rfl
    | true =>
        rw [declaration?_of_isEndStruct hc] at h
        exact nomatch h
  unfold ofText
  rw [hempty, hcomment, hclosing, h]
  rfl

/-- A line that is told to be a declaration is read as that one. -/
theorem BodyLine.declaration?_of_ofText {cs : List Char} {d : Declaration}
    (h : ofText cs = .declaration d) : declaration? cs = some d := by
  unfold ofText at h
  split at h
  · exact nomatch h
  · split at h
    · exact nomatch h
    · split at h
      · exact nomatch h
      · split at h
        · next d' hd =>
            obtain rfl := BodyLine.declaration.inj h
            exact hd
        · exact nomatch h

/-- A closing line is told to be one. -/
theorem BodyLine.ofText_of_isEndStruct {cs : List Char} (h : isEndStruct cs = true) :
    ofText cs = .closing := by
  have hempty : cs.isEmpty = false := by
    cases cs with
    | nil => exact absurd h (by decide)
    | cons c cs => rfl
  have hcomment : atComment cs = false := by
    cases hc : atComment cs with
    | false => rfl
    | true =>
        rw [isEndStruct_of_atComment hc] at h
        exact nomatch h
  rw [ofText, hempty, hcomment, h]
  rfl

/-- A line that is told to be closing is read as one. -/
theorem BodyLine.isEndStruct_of_ofText {cs : List Char} (h : ofText cs = .closing) :
    isEndStruct cs = true := by
  rw [ofText] at h
  split at h
  · exact nomatch h
  · split at h
    · exact nomatch h
    · split at h
      · next hclosing => exact hclosing
      · split at h
        · exact nomatch h
        · exact nomatch h

/-- A remark is told to be one. -/
theorem BodyLine.ofText_of_atComment {cs : List Char} (h : atComment cs = true) :
    ofText cs = .remark := by
  cases cs with
  | nil => exact nomatch h
  | cons c cs =>
      rw [ofText, h]
      rfl

/-- Of the four kinds a line has one, and a malformed line has none. -/
theorem BodyLine.count_kinds_eq (cs : List Char) :
    [cs.isEmpty, atComment cs, isEndStruct cs, (declaration? cs).isSome].count true
      = if ofText cs = .malformed then 0 else 1 := by
  cases hempty : cs.isEmpty with
  | true =>
      obtain rfl := List.isEmpty_iff.mp hempty
      decide
  | false =>
      cases hcomment : atComment cs with
      | true =>
          rw [isEndStruct_of_atComment hcomment, declaration?_of_atComment hcomment,
            ofText_of_atComment hcomment]
          rfl
      | false =>
          cases hclosing : isEndStruct cs with
          | true =>
              rw [declaration?_of_isEndStruct hclosing, ofText_of_isEndStruct hclosing]
              rfl
          | false =>
              cases hd : declaration? cs with
              | some d =>
                  rw [ofText_of_declaration? hd]
                  rfl
              | none =>
                  rw [ofText, hempty, hcomment, hclosing, hd]
                  rfl

/-- **A LINE IS ONE THING**: a line inside a structure that is not malformed is
    blank, a remark, a closing line or a declaration, and only one of them. -/
theorem BodyLine.count_kinds {cs : List Char} (h : ofText cs ≠ .malformed) :
    [cs.isEmpty, atComment cs, isEndStruct cs, (declaration? cs).isSome].count true = 1 := by
  rw [count_kinds_eq, if_neg h]

/-! ## The order of the tests -/

/-- What a line inside a structure is tested for. -/
inductive BodyTest where
  | blank
  | remark
  | closing
  | declaration
deriving DecidableEq, Repr

/-- What a line is, if it passes a test. -/
def BodyTest.read? (cs : List Char) : BodyTest → Option BodyLine
  | blank => if cs.isEmpty then some .blank else none
  | remark => if atComment cs then some .remark else none
  | closing => if isEndStruct cs then some .closing else none
  | declaration => (declaration? cs).map .declaration

/-- What a line is by the first of some tests that it passes. -/
def BodyLine.ofTests (tests : List BodyTest) (cs : List Char) : BodyLine :=
  (tests.findSome? (BodyTest.read? cs)).getD .malformed

/-- The reader makes the tests in this order. -/
theorem BodyLine.ofText_eq_ofTests (cs : List Char) :
    ofText cs = ofTests [.blank, .remark, .closing, .declaration] cs := by
  rw [ofText, ofTests]
  simp only [List.findSome?_cons, List.findSome?_nil, BodyTest.read?]
  cases cs.isEmpty with
  | true => rfl
  | false =>
      cases atComment cs with
      | true => rfl
      | false =>
          cases isEndStruct cs with
          | true => rfl
          | false => cases declaration? cs <;> rfl

/-- What a test makes of a line is what the line is told to be, whichever tests
    come before. -/
theorem BodyTest.ofText_of_read? {cs : List Char} {test : BodyTest} {line : BodyLine}
    (h : test.read? cs = some line) : BodyLine.ofText cs = line := by
  cases test with
  | blank =>
      obtain ⟨hempty, hline⟩ := Option.ite_none_right_eq_some.mp h
      obtain rfl := Option.some.inj hline
      rw [List.isEmpty_iff.mp hempty]
      rfl
  | remark =>
      obtain ⟨hcomment, hline⟩ := Option.ite_none_right_eq_some.mp h
      obtain rfl := Option.some.inj hline
      exact BodyLine.ofText_of_atComment hcomment
  | closing =>
      obtain ⟨hclosing, hline⟩ := Option.ite_none_right_eq_some.mp h
      obtain rfl := Option.some.inj hline
      exact BodyLine.ofText_of_isEndStruct hclosing
  | declaration =>
      obtain ⟨d, hd, rfl⟩ := Option.map_eq_some_iff.mp h
      exact BodyLine.ofText_of_declaration? hd

/-- Tests made in any order tell the same of a line, if none is left out. -/
theorem BodyLine.ofTests_eq_ofText {tests : List BodyTest} (h : ∀ test, test ∈ tests)
    (cs : List Char) : ofTests tests cs = ofText cs := by
  rw [ofTests]
  cases hfound : tests.findSome? (BodyTest.read? cs) with
  | some line =>
      obtain ⟨test, -, hread⟩ := List.exists_of_findSome?_eq_some hfound
      exact (BodyTest.ofText_of_read? hread).symm
  | none =>
      -- the line passes no test, so it passes none in the reader's order
      have hnone : ∀ test, BodyTest.read? cs test = none := fun test =>
        List.findSome?_eq_none_iff.mp hfound test (h test)
      rw [ofText_eq_ofTests, ofTests, List.findSome?_eq_none_iff.mpr fun test _ => hnone test]

/-- **THE ORDER OF THE TESTS DOES NOT MATTER**: of being blank, a remark, a
    closing line and a declaration, at most one is true of any text, trimmed or
    not.  So what is read as a declaration is told to be that declaration,
    whatever its parts are, and the tests made in any other order tell the same
    of every line. -/
theorem BodyLine.count_kinds_le (cs : List Char) :
    [cs.isEmpty, atComment cs, isEndStruct cs, (declaration? cs).isSome].count true ≤ 1 ∧
      (∀ d, declaration? cs = some d ↔ ofText cs = .declaration d) ∧
      ∀ tests : List BodyTest, (∀ test, test ∈ tests) → ofTests tests cs = ofText cs := by
  refine ⟨?_, fun d => ⟨ofText_of_declaration?, declaration?_of_ofText⟩,
    fun tests h => ofTests_eq_ofText h cs⟩
  rw [count_kinds_eq]
  split <;> decide

/-- A field with the name of a closing line is told to be declared, also when
    closing lines are looked for last. -/
theorem BodyLine.count_kinds_le_hatch :
    (∀ test, test ∈ [BodyTest.declaration, .remark, .blank, .closing]) ∧
      ofTests [.declaration, .remark, .blank, .closing] "END_STRUCT; : INT; // hatch".toList
        = .declaration ⟨"END_STRUCT;", .plain (.scalar "INT" ""), "hatch"⟩ := by
  have hall : ∀ test, test ∈ [BodyTest.declaration, .remark, .blank, .closing] := by
    intro test
    cases test <;> decide
  refine ⟨hall, ?_⟩
  rw [(count_kinds_le "END_STRUCT; : INT; // hatch".toList).2.2 _ hall]
  decide

end PlcTypes.Grammar
