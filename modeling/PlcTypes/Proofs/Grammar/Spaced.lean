import PlcTypes.Proofs.Grammar.BodyLine

/-! # Tokens with gaps between them

    Spaces and tabs are free between the tokens of a line, and none are needed.
    Whatever stands between them, a reader that looks for the token that comes
    next finds it and leaves the tokens behind it, with their gaps.

    A reader that takes a text of its own up to a stop takes the gap before the
    stop with it.  So such a text is only known up to the blanks at its ends. -/

namespace PlcTypes.Grammar

open Text

/-! ## Gaps -/

/-- A text of spaces and tabs, perhaps of none. -/
def IsGaps (cs : List Char) : Prop :=
  ∀ c ∈ cs, isGap c = true

instance (cs : List Char) : Decidable (IsGaps cs) :=
  List.decidableBAll (fun c => isGap c = true) cs

theorem IsGaps.nil : IsGaps [] :=
  nofun

theorem IsGaps.isBlank {gap : List Char} (h : IsGaps gap) : ∀ c ∈ gap, isBlank c = true :=
  fun c hc => isBlank_of_isGap (h c hc)

/-- A gap holds no other characters than those that make gaps. -/
theorem IsGaps.not_mem {gap : List Char} (h : IsGaps gap) {c : Char} (hc : isGap c = false) :
    c ∉ gap := by
  intro hmem
  rw [h c hmem] at hc
  exact Bool.noConfusion hc

/-- A gap is skipped. -/
theorem IsGaps.skip_append {gap : List Char} (h : IsGaps gap) (cs : List Char) :
    skip (gap ++ cs) = skip cs :=
  List.dropWhile_append_of_pos h

/-- Gaps at the ends are trimmed away. -/
theorem trim_gaps {before behind : List Char} (hbefore : IsGaps before) (hbehind : IsGaps behind)
    (cs : List Char) : trim (before ++ (cs ++ behind)) = trim cs := by
  rw [trim_append_left hbefore.isBlank, trim_append_right hbehind.isBlank]

/-- Trimming takes away what is skipped. -/
theorem trim_skip (cs : List Char) : trim (skip cs) = trim cs := by
  have hgap : IsGaps (cs.takeWhile isGap) := fun c hc => List.mem_takeWhile_imp hc
  have hsplit := trim_append_left hgap.isBlank (skip cs)
  rw [skip, List.takeWhile_append_dropWhile] at hsplit
  exact hsplit.symm

/-! ## Tokens -/

/-- A text that consists of tokens, with a gap before each of them. -/
inductive Spaced : List (List Char) → List Char → Prop
  | nil : Spaced [] []
  | cons {gap token cs : List Char} {tokens : List (List Char)} (hgap : IsGaps gap)
      (hrest : Spaced tokens cs) : Spaced (token :: tokens) (gap ++ (token ++ cs))

/-- A token that no gap can be taken from. -/
def IsSolid (token : List Char) : Prop :=
  ∃ c cs, token = c :: cs ∧ isGap c = false

theorem IsSolid.skip_append {token : List Char} (h : IsSolid token) (cs : List Char) :
    skip (token ++ cs) = token ++ cs := by
  obtain ⟨c, token, rfl, hc⟩ := h
  exact skip_cons hc (token ++ cs)

/-- A token without gaps is one if it has a character. -/
theorem isSolid_of_gapless {token : List Char} (hne : token ≠ [])
    (h : ∀ c ∈ token, isGap c = false) : IsSolid token := by
  obtain ⟨c, cs, rfl⟩ := List.exists_cons_of_ne_nil hne
  exact ⟨c, cs, rfl, h c List.mem_cons_self⟩

namespace Spaced

variable {token next : List Char} {tokens : List (List Char)} {front : List Char}

/-- The text of a token and of those that come after it. -/
theorem exists_cons (h : Spaced (token :: tokens) front) :
    ∃ gap cs, front = gap ++ (token ++ cs) ∧ IsGaps gap ∧ Spaced tokens cs := by
  cases h with
  | cons hgap hrest => exact ⟨_, _, rfl, hgap, hrest⟩

/-- Tokens in two parts have texts in two parts. -/
theorem exists_append {as bs : List (List Char)} (h : Spaced (as ++ bs) front) :
    ∃ a b, front = a ++ b ∧ Spaced as a ∧ Spaced bs b := by
  induction as generalizing front with
  | nil => exact ⟨[], front, rfl, nil, h⟩
  | cons token as ih =>
      obtain ⟨gap, cs, rfl, hgap, hrest⟩ := h.exists_cons
      obtain ⟨a, b, rfl, ha, hb⟩ := ih hrest
      exact ⟨gap ++ (token ++ a), b, by simp only [List.append_assoc], cons hgap ha, hb⟩

/-- What the text of some tokens starts with is a gap or the first of them. -/
theorem starts (p : List Char → Prop) (h : Spaced (next :: tokens) front)
    (hgap : ∀ c cs, isGap c = true → p (c :: cs)) (hnext : ∀ cs, p (next ++ cs))
    (rest : List Char) : p (front ++ rest) := by
  obtain ⟨gap, cs, rfl, hgaps, -⟩ := h.exists_cons
  rw [List.append_assoc, List.append_assoc]
  cases gap with
  | nil => exact hnext (cs ++ rest)
  | cons c gap => exact hgap c _ (hgaps c List.mem_cons_self)

/-- The text of some tokens ends in the last of them. -/
theorem exists_last (h : Spaced (tokens ++ [token]) front) : ∃ before, front = before ++ token := by
  obtain ⟨a, b, rfl, -, hlast⟩ := h.exists_append
  obtain ⟨gap, cs, rfl, -, hnil⟩ := hlast.exists_cons
  cases hnil
  exact ⟨a ++ gap, by simp⟩

/-- A character that makes no gap stands in the text only if it stands in a token.
    -/
theorem not_mem {c : Char} (h : Spaced tokens front) (hc : isGap c = false)
    (htokens : ∀ token ∈ tokens, c ∉ token) : c ∉ front := by
  induction h with
  | nil => exact List.not_mem_nil
  | cons hgap hrest ih =>
      obtain ⟨htoken, htokens⟩ := List.forall_mem_cons.mp htokens
      simp only [List.mem_append, not_or]
      exact ⟨hgap.not_mem hc, htoken, ih htokens⟩

/-! ## Reading the next token -/

/-- Behind the gap in front stands the first token, and then the others. -/
theorem exists_skip (h : Spaced (token :: tokens) front) (hsolid : IsSolid token) :
    ∃ front', Spaced tokens front' ∧
      ∀ rest, skip (front ++ rest) = token ++ (front' ++ rest) := by
  obtain ⟨gap, cs, rfl, hgap, hrest⟩ := h.exists_cons
  refine ⟨cs, hrest, fun rest => ?_⟩
  rw [List.append_assoc, List.append_assoc, hgap.skip_append, hsolid.skip_append]

/-- A mark is read. -/
theorem exists_mark? (h : Spaced (token :: tokens) front) (hsolid : IsSolid token) :
    ∃ front', Spaced tokens front' ∧
      ∀ rest, mark? token (front ++ rest) = some (front' ++ rest) := by
  obtain ⟨front', hrest, hskip⟩ := h.exists_skip hsolid
  refine ⟨front', hrest, fun rest => ?_⟩
  rw [mark?, hskip, if_pos (List.isPrefixOf_iff_prefix.mpr (List.prefix_append ..)),
    List.drop_left]

/-- A mark that starts in another way than the next token is not read. -/
theorem mark?_eq_none {m : Char} {mark : List Char} (h : Spaced (token :: tokens) front)
    (hsolid : IsSolid token) (hm : ∀ c, token.head? = some c → c ≠ m) (rest : List Char) :
    mark? (m :: mark) (front ++ rest) = none := by
  obtain ⟨front', -, hskip⟩ := h.exists_skip hsolid
  refine Grammar.mark?_eq_none fun c hc => hm c ?_
  rw [hskip] at hc
  obtain ⟨d, token, rfl, -⟩ := hsolid
  exact hc

/-- A word is read, whatever the case of its letters. -/
theorem exists_word? {word : List Char} (h : Spaced (token :: tokens) front)
    (hsolid : IsSolid token) (hword : foldCase token = word) :
    ∃ front', Spaced tokens front' ∧
      ∀ rest, word? word (front ++ rest) = some (front' ++ rest) := by
  obtain ⟨front', hrest, hskip⟩ := h.exists_skip hsolid
  refine ⟨front', hrest, fun rest => ?_⟩
  have hlength : word.length = token.length := by
    rw [← hword, foldCase, List.length_map]
  rw [word?, hskip, hlength, List.take_left, List.drop_left, if_pos hword]

/-- A word is not read where the next token is neither the start of it nor starts
    with it. -/
theorem word?_eq_none {word : List Char} (h : Spaced (token :: tokens) front)
    (hsolid : IsSolid token) (hshort : ¬ foldCase token <+: word)
    (hlong : ¬ word <+: foldCase token) (rest : List Char) : word? word (front ++ rest) = none := by
  obtain ⟨front', -, hskip⟩ := h.exists_skip hsolid
  rw [word?, hskip, if_neg]
  intro hword
  -- both would start the same text, so one of them would start the other
  have hstart : word <+: foldCase (token ++ (front' ++ rest)) := by
    have htake := (List.take_prefix word.length (token ++ (front' ++ rest))).map Char.toUpper
    rwa [show List.map Char.toUpper _ = word from hword] at htake
  have htoken : foldCase token <+: foldCase (token ++ (front' ++ rest)) :=
    (List.prefix_append token (front' ++ rest)).map Char.toUpper
  rcases List.prefix_or_prefix_of_prefix hstart htoken with hprefix | hprefix
  · exact hlong hprefix
  · exact hshort hprefix

/-- A token is read that goes on at each of its positions and ends at a gap and at
    the token behind it. -/
theorem exists_token? {stop : List Char → Bool} (h : Spaced (token :: next :: tokens) front)
    (hsolid : IsSolid token)
    (hgoes : ∀ part more, part <:+ token → part ≠ [] → more.head? ≠ some '/' →
      stop (part ++ more) = false)
    (hgap : ∀ c cs, isGap c = true → stop (c :: cs) = true)
    (hnext : ∀ cs, stop (next ++ cs) = true) (hslash : ∀ cs, (next ++ cs).head? ≠ some '/') :
    ∃ front', Spaced (next :: tokens) front' ∧
      ∀ rest, token? stop (front ++ rest) = some (token, front' ++ rest) := by
  obtain ⟨front', hrest, hskip⟩ := h.exists_skip hsolid
  refine ⟨front', hrest, fun rest => ?_⟩
  have hhead : (front' ++ rest).head? ≠ some '/' := by
    refine hrest.starts (fun cs => cs.head? ≠ some '/') (fun c cs hc => ?_) hslash rest
    rintro ⟨⟩
    exact absurd hc (by decide)
  have hend : stop (front' ++ rest) = true :=
    hrest.starts (fun cs => stop cs = true) hgap hnext rest
  have hne : token.isEmpty = false := by
    obtain ⟨c, token, rfl, -⟩ := hsolid
    rfl
  rw [token?, hskip,
    spanUntil_append_of_stop (fun part hpart hpartne => hgoes part _ hpart hpartne hhead) hend]
  dsimp only
  rw [hne]
  rfl

/-! ## Reading a text up to a stop -/

/-- The text of tokens before a mark of one character, with the gap before the
    mark. -/
theorem exists_before {inner : List (List Char)} {stop : Char}
    (h : Spaced (inner ++ [stop] :: tokens) front) :
    ∃ text gap front', Spaced inner text ∧ IsGaps gap ∧ Spaced tokens front' ∧
      front = (text ++ gap) ++ stop :: front' := by
  obtain ⟨text, cs, rfl, htext, hcs⟩ := h.exists_append
  obtain ⟨gap, front', rfl, hgap, hfront'⟩ := hcs.exists_cons
  refine ⟨text, gap, front', htext, hgap, hfront', ?_⟩
  simp only [List.append_assoc, List.singleton_append]

end Spaced

/-- What stands behind an opening mark is the text before the closing mark, and what
    is behind that. -/
theorem mark?_bracketed {opening : Char} (ho : isGap opening = false) {gap : List Char}
    (hgap : IsGaps gap) (text : List Char) (closing : Char) (front rest : List Char) :
    mark? [opening] (gap ++ (opening :: (text ++ [closing]) ++ front) ++ rest)
      = some (text ++ closing :: (front ++ rest)) := by
  have hmark := mark?_cons ho (text ++ closing :: (front ++ rest))
  rw [mark?, ← hgap.skip_append] at hmark
  rw [mark?, ← hmark]
  simp

/-- A text without the stop is read up to the stop, but for gaps in front. -/
theorem spanTo_eq {stop : Char} {text : List Char} (hstop : stop ∉ text)
    (hs : isGap stop = false) (rest : List Char) :
    spanTo stop (text ++ stop :: rest) = (skip text, stop :: rest) := by
  have hskip : stop ∉ skip text := fun hc => hstop ((List.dropWhile_suffix _).subset hc)
  have hgap : ∀ c, (skip text).head? = some c → isGap c = false := fun c hc => head_dropWhile hc
  have hread := spanTo_append hskip hgap hs rest
  rw [spanTo, skip, dropWhile_append_cons hs, dropWhile_eq_self hgap] at hread
  rw [spanTo, skip, dropWhile_append_cons hs]
  exact hread

end PlcTypes.Grammar
