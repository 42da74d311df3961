import PlcTypes.Name
import PlcTypes.Proofs.Text.Trim

/-! # Stored forms of names and one-line texts

    Each function that brings a string to its stored form has a set of
    strings that it gives and leaves alone.  Those sets are written out here
    without the functions: what a stored name, comment, version or default
    may hold.  For each set two lemmas say that the function gives members of
    it, and that it gives a member back unchanged.

    Names and defaults can be refused; comments and versions cannot. -/

namespace PlcTypes

open Text

/-- A stored name: trimmed, not empty, free of dots, double quotes and line
    breaks. -/
structure IsNameText (s : String) : Prop where
  trimmed : IsTrimmed s.toList
  name : isName s.toList = true

/-- A stored comment: trimmed and on one line. -/
structure IsOneLine (s : String) : Prop where
  trimmed : IsTrimmed s.toList
  breakless : ∀ c ∈ s.toList, isLineBreak c = false

/-- A stored version: empty or from a digit on, no blank at its end, on one
    line. -/
structure IsVersion (s : String) : Prop where
  first : ∀ c, s.toList.head? = some c → c.isDigit = true
  last : ∀ c, s.toList.getLast? = some c → isBlank c = false
  breakless : ∀ c ∈ s.toList, isLineBreak c = false

/-- A stored default: trimmed, not empty, and free of all that would end its
    declaration. -/
structure IsInitial (s : String) : Prop where
  nonempty : s ≠ ""
  trimmed : IsTrimmed s.toList
  unended : ';' ∉ s.toList
  unremarked : holds commentMark s.toList = false
  breakless : ∀ c ∈ s.toList, isLineBreak c = false

/-! ## Names -/

theorem IsNameText.ne_nil {s : String} (h : IsNameText s) : s.toList ≠ [] := by
  intro hnil
  have := h.name
  rw [hnil] at this
  exact absurd this (by decide)

/-- No character of a name is a dot, a double quote or a line break. -/
theorem IsNameText.isNameChar {s : String} (h : IsNameText s) {c : Char}
    (hc : c ∈ s.toList) : isNameChar c = true := by
  have := h.name
  unfold isName at this
  rw [Bool.and_eq_true, List.all_eq_true] at this
  exact this.2 c hc

/-- There is no quote in a name, so a name in quotes ends where it should. -/
theorem IsNameText.ne_quote {s : String} (h : IsNameText s) {c : Char}
    (hc : c ∈ s.toList) : c ≠ '"' := by
  rintro rfl
  exact absurd (h.isNameChar hc) (by decide)

/-- Line breaks are among the characters that no name holds. -/
theorem isLineBreak_of_isNameChar {c : Char} (h : isNameChar c = true) :
    isLineBreak c = false := by
  unfold isNameChar at h
  rw [Bool.and_eq_true, Bool.not_eq_true'] at h
  exact h.2

/-- A name is on one line. -/
theorem IsNameText.breakless {s : String} (h : IsNameText s) {c : Char}
    (hc : c ∈ s.toList) : isLineBreak c = false :=
  isLineBreak_of_isNameChar (h.isNameChar hc)

/-- A text gives a name when it is one without its outer blanks. -/
theorem nameOf_eq_ok {s n : String} :
    nameOf s = .ok n ↔ isName (trimmed s).toList = true ∧ n = trimmed s := by
  unfold nameOf
  by_cases hname : isName (trimmed s).toList = true
  · rw [if_pos hname]
    constructor
    · intro h
      exact ⟨hname, (Except.ok.inj h).symm⟩
    · rintro ⟨-, rfl⟩
      rfl
  · rw [if_neg hname]
    constructor
    · exact nofun
    · exact fun h => absurd h.1 hname

/-- The only error of a name is that it is none. -/
theorem nameOf_eq_error {s : String} {e : Error} :
    nameOf s = .error e ↔ isName (trimmed s).toList = false ∧ e = .invalidName (trimmed s) := by
  unfold nameOf
  by_cases hname : isName (trimmed s).toList = true
  · rw [if_pos hname, hname]
    constructor
    · exact nofun
    · exact fun h => nomatch h.1
  · rw [if_neg hname]
    constructor
    · intro h
      exact ⟨Bool.eq_false_iff.mpr hname, (Except.error.inj h).symm⟩
    · rintro ⟨-, rfl⟩
      rfl

/-- What is stored as a name is one. -/
theorem isNameText_of_nameOf {s n : String} (h : nameOf s = .ok n) : IsNameText n := by
  obtain ⟨hname, rfl⟩ := nameOf_eq_ok.mp h
  refine ⟨?_, hname⟩
  rw [toList_trimmed]
  exact isTrimmed_trim _

/-- A name is stored as it is. -/
theorem IsNameText.nameOf_eq {s : String} (h : IsNameText s) : nameOf s = .ok s := by
  have hs := trimmed_eq_self h.trimmed
  refine nameOf_eq_ok.mpr ⟨?_, hs.symm⟩
  rw [hs]
  exact h.name

/-- A valid name that is trimmed is stored as it is. -/
theorem eq_of_nameOf {s name : String} (hs : IsTrimmed s.toList) (h : nameOf s = .ok name) :
    name = s := by
  obtain ⟨-, rfl⟩ := nameOf_eq_ok.mp h
  exact trimmed_eq_self hs

/-! ## Comments -/

/-- The pieces of a cut list hold nothing at which it is cut. -/
theorem eq_false_of_mem_splitOnP {α : Type} {p : α → Bool} {xs : List α} :
    ∀ ys ∈ xs.splitOnP p, ∀ y ∈ ys, p y = false := by
  induction xs with
  | nil =>
      intro ys hys y hy
      rw [List.splitOnP_nil, List.mem_singleton] at hys
      rw [hys] at hy
      exact nomatch hy
  | cons x xs ih =>
      intro ys hys y hy
      rw [List.splitOnP_cons_eq_if_modifyHead] at hys
      by_cases hx : p x = true
      · rw [if_pos hx] at hys
        rcases List.mem_cons.mp hys with rfl | hys
        · exact nomatch hy
        · exact ih ys hys y hy
      · rw [if_neg hx] at hys
        cases hparts : xs.splitOnP p with
        | nil => exact absurd hparts (List.splitOnP_ne_nil p xs)
        | cons zs parts =>
            rw [hparts, List.modifyHead_cons] at hys
            rcases List.mem_cons.mp hys with rfl | hys
            · rcases List.mem_cons.mp hy with rfl | hy
              · exact Bool.eq_false_iff.mpr hx
              · exact ih zs (by simp [hparts]) y hy
            · exact ih ys (by simp [hparts, hys]) y hy

/-- Trimmed pieces without line breaks make such a text when single spaces
    are put between them. -/
theorem isTrimmed_intercalate {parts : List (List Char)}
    (h : ∀ p ∈ parts, p ≠ [] ∧ IsTrimmed p) : IsTrimmed ([' '].intercalate parts) := by
  induction parts with
  | nil => exact isTrimmed_nil
  | cons p parts ih =>
      obtain ⟨hne, hp⟩ := h p (by simp)
      have hrest : ∀ q ∈ parts, q ≠ [] ∧ IsTrimmed q := fun q hq => h q (by simp [hq])
      cases parts with
      | nil =>
          rw [List.intercalate_singleton]
          exact hp
      | cons q parts =>
          rw [List.intercalate_cons_cons]
          -- the last character is that of the pieces behind the first space
          have hq : [' '].intercalate (q :: parts) ≠ [] := by
            have hqne := (h q (by simp)).1
            cases parts with
            | nil => simpa using hqne
            | cons r parts => simp [List.intercalate_cons_cons, hqne]
          rw [List.append_assoc]
          refine isTrimmed_append hne (by simp) hp.head ?_
          intro c hc
          refine (ih hrest).last c ?_
          rw [List.getLast?_append, List.getLast?_eq_some_getLast hq, Option.some_or] at hc
          rw [List.getLast?_eq_some_getLast hq]
          exact hc

/-- What is joined by spaces holds the spaces and what was joined. -/
theorem mem_intercalate_space {parts : List (List Char)} {c : Char}
    (h : c ∈ [' '].intercalate parts) : c = ' ' ∨ ∃ p ∈ parts, c ∈ p := by
  induction parts with
  | nil => simp at h
  | cons p parts ih =>
      cases parts with
      | nil =>
          rw [List.intercalate_singleton] at h
          exact Or.inr ⟨p, by simp, h⟩
      | cons q parts =>
          rw [List.intercalate_cons_cons] at h
          simp only [List.append_assoc, List.mem_append, List.mem_singleton] at h
          rcases h with h | h | h
          · exact Or.inr ⟨p, by simp, h⟩
          · exact Or.inl h
          · rcases ih h with hc | ⟨r, hr, hc⟩
            · exact Or.inl hc
            · exact Or.inr ⟨r, by simp [hr], hc⟩

/-- Bringing a comment to one line gives a stored comment. -/
theorem isOneLine_oneLine (s : String) : IsOneLine (oneLine s) := by
  unfold oneLine
  constructor
  · rw [String.toList_ofList]
    refine isTrimmed_intercalate ?_
    intro p hp
    obtain ⟨hp, hne⟩ := List.mem_filter.mp hp
    obtain ⟨q, -, rfl⟩ := List.mem_map.mp hp
    exact ⟨by simpa using hne, isTrimmed_trim q⟩
  · rw [String.toList_ofList]
    intro c hc
    rcases mem_intercalate_space hc with rfl | ⟨p, hp, hc⟩
    · decide
    · obtain ⟨q, hq, rfl⟩ := List.mem_map.mp (List.mem_filter.mp hp).1
      exact eq_false_of_mem_splitOnP q hq c (mem_of_mem_trim hc)

/-- A stored comment is left alone. -/
theorem IsOneLine.oneLine_eq {s : String} (h : IsOneLine s) : oneLine s = s := by
  unfold oneLine
  rw [List.splitOnP_eq_singleton h.breakless, List.map_singleton, h.trimmed.trim_eq]
  -- an empty piece is left out, so the empty comment is no piece at all
  cases hs : s.toList with
  | nil =>
      rw [← String.ofList_toList (s := s), hs]
      rfl
  | cons c cs =>
      rw [← String.ofList_toList (s := s), hs]
      simp

/-! ## Versions -/

/-- Digits are no blanks. -/
theorem isBlank_of_isDigit {c : Char} (h : c.isDigit = true) : isBlank c = false := by
  have hc : 48 ≤ c.toNat ∧ c.toNat ≤ 57 := by
    unfold Char.isDigit at h
    simpa [UInt32.le_iff_toNat_le] using h
  unfold isBlank blankRanges
  simp only [List.any_cons, List.any_nil, Bool.or_false, Bool.or_eq_false_iff,
    Bool.and_eq_false_iff, decide_eq_false_iff_not]
  omega

/-- A version text starts at its first digit and is trimmed behind. -/
theorem isVersion_versionOf {cs : List Char} (h : ∀ c ∈ cs, isLineBreak c = false) :
    IsVersion (String.ofList (versionOf cs)) := by
  -- a digit is no blank, so only the end is trimmed
  have hstart : trimStart (cs.dropWhile fun c => !c.isDigit)
      = cs.dropWhile fun c => !c.isDigit := by
    refine trimStart_eq_self fun c hc => isBlank_of_isDigit ?_
    simpa using head_dropWhile hc
  unfold versionOf
  refine ⟨?_, ?_, ?_⟩
  · rw [String.toList_ofList]
    intro c hc
    obtain ⟨post, hpost⟩ := trimEnd_isPrefix (cs.dropWhile fun c => !c.isDigit)
    unfold trim at hc
    rw [hstart] at hc
    have hc' : (cs.dropWhile fun c => !c.isDigit).head? = some c := by
      rw [← hpost, List.head?_append, hc]
      rfl
    simpa using head_dropWhile hc'
  · rw [String.toList_ofList]
    exact (isTrimmed_trim _).last
  · rw [String.toList_ofList]
    intro c hc
    exact h c ((List.dropWhile_suffix _).subset (mem_of_mem_trim hc))

theorem IsVersion.isTrimmed {s : String} (h : IsVersion s) : IsTrimmed s.toList :=
  ⟨fun c hc => isBlank_of_isDigit (h.first c hc), h.last⟩

/-- A stored version is left alone. -/
theorem IsVersion.versionOf_eq {s : String} (h : IsVersion s) :
    versionOf s.toList = s.toList := by
  unfold versionOf
  rw [dropWhile_eq_self, h.isTrimmed.trim_eq]
  intro c hc
  rw [h.first c hc]
  rfl

/-! ## Defaults -/

/-- What is stored as a default is one. -/
theorem isInitial_of_defaultOf {s v : String} (h : defaultOf s = .ok (some v)) :
    IsInitial v := by
  unfold defaultOf at h
  dsimp only at h
  split at h
  · exact nomatch h
  · next hok =>
      simp only [Bool.or_eq_true, not_or, Bool.not_eq_true, List.any_eq_false,
        List.contains_eq_mem, decide_eq_false_iff_not] at hok
      obtain ⟨⟨hend, hmark⟩, hbreak⟩ := hok
      have h' : (if (trimmed s).isEmpty then none else some (trimmed s)) = some v :=
        Except.ok.inj h
      by_cases hempty : (trimmed s).isEmpty = true
      · rw [if_pos hempty] at h'
        exact nomatch h'
      · rw [if_neg hempty] at h'
        obtain rfl := Option.some.inj h'
        -- what is refused is looked for before trimming
        have hin : (trimmed s).toList <:+: s.toList := by
          rw [toList_trimmed]
          exact trim_isInfix _
        exact {
          nonempty := by simpa using hempty
          trimmed := by
            rw [toList_trimmed]
            exact isTrimmed_trim _
          unended := fun hc => hend (hin.subset hc)
          unremarked := holds_of_isInfix hin hmark
          breakless := fun c hc => hbreak c (hin.subset hc) }

/-- A default is stored as it is. -/
theorem IsInitial.defaultOf_eq {v : String} (h : IsInitial v) :
    defaultOf v = .ok (some v) := by
  unfold defaultOf
  rw [trimmed_eq_self h.trimmed, if_neg, if_neg]
  · simpa using h.nonempty
  · simp only [Bool.or_eq_true, not_or, Bool.not_eq_true, List.any_eq_false,
      List.contains_eq_mem, decide_eq_false_iff_not]
    exact ⟨⟨h.unended, h.unremarked⟩, h.breakless⟩

end PlcTypes
