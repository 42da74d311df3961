import Mathlib.Data.List.TakeDrop
import PlcTypes.Grammar.Declaration
import PlcTypes.Proofs.Name

/-! # Reading tokens that are there

    Each reader of the line grammar, applied to a text that starts with the
    token it looks for, gives that token and the rest; applied to a text that
    starts with something else, it gives nothing.  The lemmas keep the rest
    of the line general, so that they chain along a whole line.  What ends a
    token is a property of all that comes after it, so a token is shown to go
    on at each of its positions, with the rest of the line in view. -/

namespace PlcTypes.Grammar

open Text

/-! ## Gaps -/

/-- Spaces and tabs are blanks. -/
theorem isBlank_of_isGap {c : Char} (h : isGap c = true) : isBlank c = true := by
  unfold isGap at h
  rw [Bool.or_eq_true, beq_iff_eq, beq_iff_eq] at h
  rcases h with rfl | rfl <;> decide

/-- What is no blank is no gap either. -/
theorem isGap_of_isBlank_eq_false {c : Char} (h : isBlank c = false) : isGap c = false := by
  cases hc : isGap c with
  | false => rfl
  | true =>
      rw [isBlank_of_isGap hc] at h
      exact absurd h.symm Bool.false_ne_true

@[simp] theorem skip_space (cs : List Char) : skip (' ' :: cs) = skip cs := rfl

/-- A text that starts with no gap is left as it is. -/
theorem skip_eq_self {cs : List Char} (h : ∀ c, cs.head? = some c → isGap c = false) :
    skip cs = cs :=
  dropWhile_eq_self h

theorem skip_cons {c : Char} (h : isGap c = false) (cs : List Char) :
    skip (c :: cs) = c :: cs := by
  refine skip_eq_self fun d hd => ?_
  rw [← Option.some.inj hd]
  exact h

/-- A trimmed text is not shortened from the left. -/
theorem skip_append_of_isTrimmed {as bs : List Char} (ha : IsTrimmed as) (hne : as ≠ []) :
    skip (as ++ bs) = as ++ bs := by
  refine skip_eq_self fun c hc => ?_
  cases as with
  | nil => exact absurd rfl hne
  | cons a as => exact isGap_of_isBlank_eq_false (ha.head c hc)

/-! ## Marks and words -/

/-- A mark of one character is read where it stands. -/
theorem mark?_cons {m : Char} (hm : isGap m = false) (rest : List Char) :
    mark? [m] (m :: rest) = some rest := by
  unfold mark?
  rw [skip_cons hm]
  simp

theorem mark?_space (mark cs : List Char) : mark? mark (' ' :: cs) = mark? mark cs := rfl

/-- A mark is not read where another character comes first. -/
theorem mark?_eq_none {m : Char} {mark cs : List Char}
    (h : ∀ c, (skip cs).head? = some c → c ≠ m) : mark? (m :: mark) cs = none := by
  unfold mark?
  cases hcs : skip cs with
  | nil => rfl
  | cons c cs =>
      rw [hcs] at h
      have hne : (m == c) = false := by
        rw [beq_eq_false_iff_ne]
        exact (h c rfl).symm
      show (if (m :: mark).isPrefixOf (c :: cs) = true then _ else none) = none
      rw [List.isPrefixOf_cons_cons, hne, Bool.false_and]
      rfl

/-- What a mark is followed by, spelled out. -/
theorem mark?_eq_some {mark cs rest : List Char} (h : mark? mark cs = some rest) :
    skip cs = mark ++ rest := by
  unfold mark? at h
  dsimp only at h
  split at h
  · next hpre =>
      obtain ⟨after, hafter⟩ := List.isPrefixOf_iff_prefix.mp hpre
      rw [← hafter, List.drop_left] at h
      rw [← hafter, Option.some.inj h]
  · exact nomatch h

/-- What a word is followed by, spelled out; its letters may be in any
    case. -/
theorem word?_eq_some {word cs rest : List Char} (h : word? word cs = some rest) :
    ∃ spelled, skip cs = spelled ++ rest ∧ foldCase spelled = word := by
  unfold word? at h
  dsimp only at h
  split at h
  · next hword =>
      refine ⟨(skip cs).take word.length, ?_, hword⟩
      rw [← Option.some.inj h, List.take_append_drop]
  · exact nomatch h

/-! ## Tokens -/

/-- Up to the next stop, which the token does not hold. -/
theorem spanTo_append {stop : Char} {token : List Char} (hstop : stop ∉ token)
    (hgap : ∀ c, token.head? = some c → isGap c = false) (hs : isGap stop = false)
    (rest : List Char) : spanTo stop (token ++ stop :: rest) = (token, stop :: rest) := by
  have hskip : skip (token ++ stop :: rest) = token ++ stop :: rest := by
    refine skip_eq_self fun c hc => ?_
    cases token with
    | nil =>
        rw [← Option.some.inj hc]
        exact hs
    | cons t token => exact hgap c hc
  unfold spanTo
  rw [hskip, List.span_eq_takeWhile_dropWhile]
  have htake : ∀ c ∈ token, (c != stop) = true := by
    intro c hc
    rw [bne_iff_ne]
    rintro rfl
    exact hstop hc
  rw [List.takeWhile_append_of_pos htake, List.dropWhile_append_of_pos htake]
  simp

/-- A token goes on over characters at none of whose positions `stop`
    holds. -/
theorem spanUntil_append {stop : List Char → Bool} {token rest : List Char}
    (h : ∀ part, part <:+ token → part ≠ [] → stop (part ++ rest) = false) :
    spanUntil stop (token ++ rest)
      = (token ++ (spanUntil stop rest).1, (spanUntil stop rest).2) := by
  induction token with
  | nil => rfl
  | cons t token ih =>
      have hhere : stop (t :: (token ++ rest)) = false :=
        h (t :: token) (List.suffix_refl _) (by simp)
      have hlater : ∀ part, part <:+ token → part ≠ [] → stop (part ++ rest) = false :=
        fun part hpart => h part (hpart.trans (List.suffix_cons t token))
      rw [List.cons_append, spanUntil, hhere, ih hlater]
      rfl

/-- Where the test holds at once, nothing is read. -/
theorem spanUntil_of_stop {stop : List Char → Bool} {rest : List Char}
    (h : stop rest = true) : spanUntil stop rest = ([], rest) := by
  cases rest with
  | nil => rfl
  | cons c rest => rw [spanUntil, if_pos h]

/-- A token ends before a rest where `stop` holds. -/
theorem spanUntil_append_of_stop {stop : List Char → Bool} {token rest : List Char}
    (h : ∀ part, part <:+ token → part ≠ [] → stop (part ++ rest) = false)
    (hrest : stop rest = true) : spanUntil stop (token ++ rest) = (token, rest) := by
  rw [spanUntil_append h, spanUntil_of_stop hrest, List.append_nil]

/-- A token and what is behind it are the text, and the token ends at none of
    its positions. -/
theorem spanUntil_goes (stop : List Char → Bool) (cs : List Char) :
    cs = (spanUntil stop cs).1 ++ (spanUntil stop cs).2 ∧
      ∀ part, part <:+ (spanUntil stop cs).1 → part ≠ [] →
        stop (part ++ (spanUntil stop cs).2) = false := by
  induction cs with
  | nil =>
      refine ⟨rfl, ?_⟩
      intro part hpart hne
      exact absurd (List.suffix_nil.mp hpart) hne
  | cons c cs ih =>
      obtain ⟨hsplit, hgoes⟩ := ih
      rw [spanUntil]
      by_cases hstop : stop (c :: cs) = true
      · rw [if_pos hstop]
        refine ⟨rfl, ?_⟩
        intro part hpart hne
        exact absurd (List.suffix_nil.mp hpart) hne
      · rw [if_neg hstop]
        dsimp only
        refine ⟨congrArg (c :: ·) hsplit, ?_⟩
        intro part hpart hne
        rcases List.suffix_cons_iff.mp hpart with rfl | hpart
        · rw [List.cons_append, ← hsplit]
          exact Bool.eq_false_iff.mpr hstop
        · exact hgoes part hpart hne

/-- A token follows the gaps and is not empty, and the test holds at none of its
    positions. -/
theorem token?_eq_some {stop : List Char → Bool} {cs token rest : List Char}
    (h : token? stop cs = some (token, rest)) :
    skip cs = token ++ rest ∧ token ≠ [] ∧
      ∀ part, part <:+ token → part ≠ [] → stop (part ++ rest) = false := by
  rw [token?] at h
  dsimp only at h
  split at h
  · exact nomatch h
  · next hne =>
      obtain ⟨rfl, rfl⟩ := Prod.mk.inj (Option.some.inj h)
      obtain ⟨hsplit, hgoes⟩ := spanUntil_goes stop (skip cs)
      refine ⟨hsplit, ?_, hgoes⟩
      intro hnil
      exact hne (List.isEmpty_iff.mpr hnil)

theorem atNameEnd_cons (c : Char) (cs : List Char) :
    atNameEnd (c :: cs)
      = (c == ':' || c == '{' || c == '"' || isGap c || atComment (c :: cs)) := rfl

/-- A bare name ends at a gap. -/
theorem atNameEnd_of_isGap {c : Char} (h : isGap c = true) (cs : List Char) :
    atNameEnd (c :: cs) = true := by
  rw [atNameEnd_cons, h]
  simp

/-- No comment starts inside a text without a comment mark, nor at its end
    before anything but a slash. -/
theorem atComment_append {part rest : List Char} (hne : part ≠ [])
    (hmark : holds commentMark part = false) (hrest : rest.head? ≠ some '/') :
    atComment (part ++ rest) = false := by
  cases hat : atComment (part ++ rest) with
  | false => rfl
  | true =>
      exfalso
      -- the two slashes are both in the part, or the second one starts the rest
      obtain ⟨after, hafter⟩ := List.isPrefixOf_iff_prefix.mp hat
      cases part with
      | nil => exact hne rfl
      | cons p part =>
          obtain ⟨rfl, htail⟩ := List.cons.inj hafter
          cases part with
          | nil =>
              have hslash : ['/'] ++ after = rest := htail
              rw [← hslash] at hrest
              exact hrest rfl
          | cons q part =>
              obtain ⟨rfl, -⟩ := List.cons.inj htail
              have : holds commentMark ('/' :: '/' :: part) = true :=
                holds_iff.mpr (List.prefix_append commentMark part).isInfix
              rw [hmark] at this
              exact Bool.false_ne_true this

/-- A name that goes on in one line goes on as far before a space. -/
theorem atNameEnd_before_space {part rest : List Char} (hne : part ≠ [])
    (h : atNameEnd (part ++ rest) = false) (more : List Char) :
    atNameEnd (part ++ ' ' :: more) = false := by
  cases part with
  | nil => exact absurd rfl hne
  | cons c part =>
      rw [List.cons_append, atNameEnd_cons, Bool.or_eq_false_iff] at h ⊢
      refine ⟨h.1, ?_⟩
      -- whether a comment starts here is decided by two characters
      cases part with
      | nil =>
          show ('/' == c && ('/' == ' ' && true)) = false
          rw [show ('/' == ' ') = false from rfl, Bool.false_and, Bool.and_false]
      | cons d part => exact h.2

/-! ## The end of a line -/

/-- What a line may end in, spelled out. -/
theorem ending?_isSome {cs : List Char} (h : (ending? cs).isSome = true) :
    skip cs = [] ∨ ∃ text, skip cs = '/' :: '/' :: text := by
  unfold ending? at h
  split at h
  · next hnil => exact Or.inl hnil
  · next text htext => exact Or.inr ⟨text, htext⟩
  · exact nomatch h

end PlcTypes.Grammar
