import PlcTypes.Proofs.Grammar.Spaced

/-! # The wording of a line around its form

    A declaration leaves its writer some freedom beside the gaps: the name may
    stand in quotes that it does not need, settings may follow that are passed
    over, a default may be given or not, and so may a comment.  Each of these is
    read in every wording that it can have. -/

namespace PlcTypes

open Text

/-! ## Marks in texts with gaps -/

section Infix

variable {α : Type} {mark as bs : List α} {m : α}

/-- A mark that starts with a foreign character does not start in a text. -/
theorem infix_of_not_mem_left (h : m :: mark <:+: as ++ bs) (hm : m ∉ as) :
    m :: mark <:+: bs := by
  induction as with
  | nil => exact h
  | cons a as ih =>
      rw [List.mem_cons, not_or] at hm
      rcases List.infix_cons_iff.mp h with hprefix | hinside
      · obtain ⟨more, hmore⟩ := hprefix
        exact absurd (List.cons.inj hmore).1 hm.1
      · exact ih hinside hm.2

/-- A mark that ends with a foreign character does not end in a text. -/
theorem infix_of_not_mem_right (h : mark ++ [m] <:+: as ++ bs) (hm : m ∉ bs) :
    mark ++ [m] <:+: as := by
  have hback : m :: mark.reverse <:+: bs.reverse ++ as.reverse := by
    have hreverse := List.reverse_infix.mpr h
    rwa [List.reverse_append, List.reverse_append, List.reverse_singleton,
      List.singleton_append] at hreverse
  have has := infix_of_not_mem_left hback (mt List.mem_reverse.mp hm)
  rw [← List.reverse_infix, List.reverse_append]
  exact has

end Infix

namespace Grammar

/-- No comment starts in the gaps around a text. -/
theorem holds_gaps {before behind cs : List Char} (hbefore : IsGaps before)
    (hbehind : IsGaps behind) (h : holds commentMark cs = false) :
    holds commentMark (before ++ (cs ++ behind)) = false := by
  rw [Bool.eq_false_iff, ne_eq, holds_iff] at h ⊢
  intro hmark
  have hleft : ['/'] ++ ['/'] <:+: cs ++ behind :=
    infix_of_not_mem_left hmark (hbefore.not_mem (by decide))
  exact h (infix_of_not_mem_right hleft (hbehind.not_mem (by decide)))

/-! ## Names and settings -/

/-- Whether a name may stand without quotes. -/
structure IsBareName (cs : List Char) : Prop where
  unended : ∀ c ∈ cs, c ≠ ':' ∧ c ≠ '{' ∧ isGap c = false
  unremarked : holds commentMark cs = false

/-- How a name may be worded: in quotes, or as it is. -/
inductive NameWorded (name : List Char) : List Char → Prop
  | quoted : NameWorded name ('"' :: (name ++ ['"']))
  | bare (h : IsBareName name) : NameWorded name name

/-- Blanks in front of a name that is not blank belong to it, and without them it is
    a wording of the name as well. -/
theorem NameWorded.trimStart {name token : List Char} (h : NameWorded name token)
    (hne : trim name ≠ []) :
    trimStart token ≠ [] ∧
      ∃ name', trim name' = trim name ∧ NameWorded name' (trimStart token) := by
  cases h with
  | quoted =>
      have hquoted : Text.trimStart ('"' :: (name ++ ['"'])) = '"' :: (name ++ ['"']) :=
        trimStart_eq_self (by rintro c ⟨⟩; decide)
      rw [hquoted]
      exact ⟨List.cons_ne_nil _ _, name, rfl, .quoted⟩
  | bare hbare =>
      have hsuffix : Text.trimStart name <:+ name := List.dropWhile_suffix _
      refine ⟨?_, Text.trimStart name, trim_trimStart name, .bare ⟨?_, ?_⟩⟩
      · intro hnil
        rw [← trim_trimStart, hnil] at hne
        exact hne rfl
      · exact fun c hc => hbare.unended c (hsuffix.subset hc)
      · exact holds_of_isInfix hsuffix.isInfix hbare.unremarked

/-- A name without quotes goes on at each of its positions. -/
theorem IsBareName.goes {cs : List Char} (h : IsBareName cs) (hquote : '"' ∉ cs) :
    ∀ part more, part <:+ cs → part ≠ [] → more.head? ≠ some '/' →
      atNameEnd (part ++ more) = false := by
  intro part more hpart hne hmore
  have hcomment : atComment (part ++ more) = false :=
    atComment_append hne (holds_of_isInfix hpart.isInfix h.unremarked) hmore
  obtain ⟨c, part, rfl⟩ := List.exists_cons_of_ne_nil hne
  have hc : c ∈ cs := hpart.subset List.mem_cons_self
  obtain ⟨hcolon, hbrace, hgap⟩ := h.unended c hc
  have hquote' : c ≠ '"' := by
    rintro rfl
    exact hquote hc
  rw [List.cons_append] at hcomment ⊢
  rw [atNameEnd_cons, hcomment, hgap, beq_eq_false_iff_ne.mpr hcolon,
    beq_eq_false_iff_ne.mpr hbrace, beq_eq_false_iff_ne.mpr hquote']
  rfl

/-- How settings may be worded: not at all, or between braces. -/
inductive SettingsWorded : List (List Char) → Prop
  | absent : SettingsWorded []
  | given {text : List Char} (h : '}' ∉ text) : SettingsWorded ['{' :: (text ++ ['}'])]

/-- A colon or a brace comes after the name. -/
theorem SettingsWorded.exists_next {settings : List (List Char)} (h : SettingsWorded settings)
    (tokens : List (List Char)) :
    ∃ c cs more, settings ++ [':'] :: tokens = (c :: cs) :: more ∧ (c = ':' ∨ c = '{') := by
  cases h with
  | absent => exact ⟨':', [], tokens, rfl, Or.inl rfl⟩
  | given h => exact ⟨'{', _, _, rfl, Or.inr rfl⟩

/-- A name is read in any wording, but for the blanks at its ends. -/
theorem exists_fieldName? {name token front : List Char} {settings tokens : List (List Char)}
    (hname : NameWorded name token) (hquote : '"' ∉ name) (hne : name ≠ [])
    (hsettings : SettingsWorded settings)
    (hspaced : Spaced (token :: (settings ++ [':'] :: tokens)) front) :
    ∃ read front', trim read = trim name ∧ Spaced (settings ++ [':'] :: tokens) front' ∧
      ∀ rest, fieldName? (front ++ rest) = some (read, front' ++ rest) := by
  cases hname with
  | quoted =>
      obtain ⟨gap, front', rfl, hgap, hrest⟩ := hspaced.exists_cons
      refine ⟨skip name, front', trim_skip name, hrest, fun rest => ?_⟩
      rw [fieldName?, mark?_bracketed (by decide) hgap]
      dsimp only
      rw [spanTo_eq hquote (by decide), mark?_cons (by decide)]
      rfl
  | bare hbare =>
      obtain ⟨c, cs, more, hmore, hc⟩ := hsettings.exists_next tokens
      rw [hmore] at hspaced ⊢
      have hsolid : IsSolid name := isSolid_of_gapless hne fun d hd => (hbare.unended d hd).2.2
      have hunquoted : ∀ rest d, (skip (front ++ rest)).head? = some d → d ≠ '"' := by
        obtain ⟨front', -, hskip⟩ := hspaced.exists_skip hsolid
        intro rest d hd
        rw [hskip] at hd
        obtain ⟨e, name, rfl, -⟩ := hsolid
        rw [← Option.some.inj hd]
        rintro rfl
        exact hquote List.mem_cons_self
      have hnext : ∀ more, atNameEnd (c :: cs ++ more) = true ∧
          (c :: cs ++ more).head? ≠ some '/' := by
        rcases hc with rfl | rfl
        · exact fun more => ⟨rfl, by simp⟩
        · exact fun more => ⟨rfl, by simp⟩
      obtain ⟨front', hrest, htoken⟩ := hspaced.exists_token? hsolid (hbare.goes hquote)
        (fun c cs hgap => atNameEnd_of_isGap hgap cs) (fun more => (hnext more).1)
        (fun more => (hnext more).2)
      refine ⟨name, front', rfl, hrest, fun rest => ?_⟩
      rw [fieldName?_of_unquoted (hunquoted rest), htoken]

/-- Settings are passed over in any wording. -/
theorem exists_skipSettings {settings tokens : List (List Char)} {front : List Char}
    (hsettings : SettingsWorded settings) (hspaced : Spaced (settings ++ [':'] :: tokens) front) :
    ∃ front', Spaced ([':'] :: tokens) front' ∧
      ∀ rest, skipSettings (front ++ rest) = front' ++ rest := by
  cases hsettings with
  | absent =>
      refine ⟨front, hspaced, fun rest => ?_⟩
      have hcolon : ∀ c, [':'].head? = some c → c ≠ '{' := by
        rintro c ⟨⟩
        decide
      rw [skipSettings, hspaced.mark?_eq_none ⟨':', [], rfl, by decide⟩ hcolon]
  | @given text h =>
      obtain ⟨gap, front', rfl, hgap, hrest⟩ := hspaced.exists_cons
      refine ⟨front', hrest, fun rest => ?_⟩
      have hinner : ∀ c ∈ text, (c != '}') = true := by
        intro c hc
        rw [bne_iff_ne]
        rintro rfl
        exact h hc
      rw [skipSettings, mark?_bracketed (by decide) hgap]
      dsimp only
      rw [List.dropWhile_append_of_pos hinner, List.dropWhile_cons_of_neg (by decide),
        mark?_cons (by decide), Option.getD_some]

/-! ## Defaults -/

/-- The tokens of a default, if there is one. -/
def defaultTokens : Option String → List (List Char)
  | none => []
  | some value => [[':', '='], value.toList]

/-- A text without a semicolon and a comment goes on up to a semicolon. -/
theorem atDefaultEnd_goes {text : List Char} (hsemi : ';' ∉ text)
    (hmark : holds commentMark text = false) (rest part : List Char) (hpart : part <:+ text)
    (hne : part ≠ []) : atDefaultEnd (part ++ ';' :: rest) = false := by
  have hcomment : atComment (part ++ ';' :: rest) = false :=
    atComment_append hne (holds_of_isInfix hpart.isInfix hmark) (by simp)
  obtain ⟨c, part, rfl⟩ := List.exists_cons_of_ne_nil hne
  have hc : c ≠ ';' := by
    rintro rfl
    exact hsemi (hpart.subset List.mem_cons_self)
  rw [List.cons_append] at hcomment ⊢
  show (c == ';' || atComment (c :: (part ++ ';' :: rest))) = false
  rw [hcomment, beq_eq_false_iff_ne.mpr hc]
  rfl

/-- A default is read in any wording, but for the blanks at its ends. -/
theorem exists_initial {value : Option String} {front : List Char}
    (hvalue : ∀ v ∈ value, ';' ∉ v.toList ∧ holds commentMark v.toList = false)
    (hspaced : Spaced (defaultTokens value ++ [[';']]) front) :
    ∃ read, trim read = trim (value.getD "").toList ∧ ∀ rest, ∃ behind,
      initial (front ++ rest) = (read, behind) ∧ mark? [';'] behind = some rest := by
  cases value with
  | none =>
      refine ⟨[], rfl, fun rest => ⟨front ++ rest, ?_, ?_⟩⟩
      · have hsemi : ∀ c, [';'].head? = some c → c ≠ ':' := by
          rintro c ⟨⟩
          decide
        rw [initial, hspaced.mark?_eq_none ⟨';', [], rfl, by decide⟩ hsemi]
      · obtain ⟨front', hnil, hmark⟩ := hspaced.exists_mark? ⟨';', [], rfl, by decide⟩
        cases hnil
        exact hmark rest
  | some v =>
      obtain ⟨hsemi, hunremarked⟩ := hvalue v rfl
      obtain ⟨front', hspaced, hmark⟩ := hspaced.exists_mark? ⟨':', ['='], rfl, by decide⟩
      obtain ⟨before, cs, rfl, hbefore, hspaced⟩ := hspaced.exists_cons
      obtain ⟨behind, cs, rfl, hbehind, hspaced⟩ := hspaced.exists_cons
      cases hspaced
      -- the value is read with the gaps around it, but for those in front
      have htext : ';' ∉ before ++ (v.toList ++ behind) := by
        simp only [List.mem_append, not_or]
        exact ⟨hbefore.not_mem (by decide), hsemi, hbehind.not_mem (by decide)⟩
      have hskip : skip (before ++ (v.toList ++ behind)) <:+ before ++ (v.toList ++ behind) :=
        List.dropWhile_suffix _
      refine ⟨skip (before ++ (v.toList ++ behind)), ?_, fun rest => ⟨';' :: rest, ?_, ?_⟩⟩
      · rw [trim_skip, trim_gaps hbefore hbehind]
        rfl
      · have hline : before ++ (v.toList ++ (behind ++ ([';'] ++ []))) ++ rest
            = before ++ (v.toList ++ behind) ++ ';' :: rest := by simp
        rw [initial, hmark, hline]
        dsimp only
        rw [skip, dropWhile_append_cons (by decide)]
        refine spanUntil_append_of_stop (fun part hpart => ?_) rfl
        exact atDefaultEnd_goes htext (holds_gaps hbefore hbehind hunremarked) rest part
          (hpart.trans hskip)
      · exact mark?_cons (by decide) rest

/-! ## Comments -/

/-- How a line may end: without a comment, or in one. -/
inductive EndWorded : Option String → List Char → Prop
  | bare {gap : List Char} (h : IsGaps gap) : EndWorded none gap
  | comment {text : String} {before between behind : List Char} (hbefore : IsGaps before)
      (hbetween : IsGaps between) (hbehind : IsGaps behind) :
      EndWorded (some text) (before ++ '/' :: '/' :: (between ++ (text.toList ++ behind)))

/-- The end of a line is read in any wording, also after the line has been
    trimmed. -/
theorem EndWorded.ending?_eq {comment : Option String} {rest : List Char}
    (h : EndWorded comment rest) :
    ending? rest = some (trim (comment.getD "").toList) ∧
      ending? (trimEnd rest) = some (trim (comment.getD "").toList) := by
  cases h with
  | bare hgap =>
      have hskip : skip rest = [] := List.dropWhile_eq_nil_iff.mpr hgap
      have hend : trimEnd rest = [] := by
        rw [trimEnd, List.reverse_eq_nil_iff, List.dropWhile_eq_nil_iff]
        exact fun c hc => hgap.isBlank c (List.mem_reverse.mp hc)
      constructor
      · rw [ending?, hskip]
        rfl
      · rw [hend]
        rfl
  | @comment text before between behind hbefore hbetween hbehind =>
      have hread : ∀ cs, ending? (before ++ '/' :: '/' :: cs) = some (trim cs) := by
        intro cs
        rw [ending?, hbefore.skip_append]
        rfl
      -- blanks at the end are those of the comment, and it is trimmed anyway
      have hslashes : before ++ '/' :: '/' :: (between ++ (text.toList ++ behind))
          = before ++ ['/'] ++ '/' :: (between ++ (text.toList ++ behind)) := by simp
      have hend : trimEnd (before ++ '/' :: '/' :: (between ++ (text.toList ++ behind)))
          = before ++ '/' :: '/' :: trimEnd (between ++ (text.toList ++ behind)) := by
        rw [hslashes, trimEnd_append_cons (by decide), List.append_assoc]
        rfl
      rw [hend, hread, hread, trim_trimEnd, trim_gaps hbetween hbehind]
      exact ⟨rfl, rfl⟩

end Grammar

end PlcTypes
