import Mathlib.Data.List.TakeDrop
import PlcTypes.Grammar.Declaration
import PlcTypes.Proofs.Text.Trim

/-! # What a declaration leaves of its line

    Every reader of tokens leaves an end of what it was given, so the comment
    of a declaration is a trimmed part of the line: it holds no character
    that the line does not hold. -/

namespace PlcTypes.Grammar

open Text

/-! ## Tokens -/

/-- Without its first gaps a text is an end of itself. -/
theorem skip_suffix (cs : List Char) : skip cs <:+ cs :=
  List.dropWhile_suffix _

/-- What follows a mark is an end of the text. -/
theorem mark?_suffix {mark cs rest : List Char} (h : mark? mark cs = some rest) :
    rest <:+ cs := by
  unfold mark? at h
  dsimp only at h
  split at h
  · obtain rfl := Option.some.inj h
    exact (List.drop_suffix _ _).trans (skip_suffix cs)
  · exact nomatch h

/-- What follows a word is an end of the text, in whatever case it is written. -/
theorem word?_suffix {word cs rest : List Char} (h : word? word cs = some rest) :
    rest <:+ cs := by
  unfold word? at h
  dsimp only at h
  split at h
  · obtain rfl := Option.some.inj h
    exact (List.drop_suffix _ _).trans (skip_suffix cs)
  · exact nomatch h

/-- What a span leaves starts at the character that stops it. -/
theorem spanTo_suffix (stop : Char) (cs : List Char) : (spanTo stop cs).2 <:+ cs := by
  unfold spanTo
  rw [List.span_eq_takeWhile_dropWhile]
  exact (List.dropWhile_suffix _).trans (skip_suffix cs)

/-- What a span leaves starts where the test first holds, or is nothing. -/
theorem spanUntil_suffix (stop : List Char → Bool) (cs : List Char) :
    (spanUntil stop cs).2 <:+ cs := by
  induction cs with
  | nil => exact List.suffix_refl []
  | cons c cs ih =>
      rw [spanUntil]
      by_cases hstop : stop (c :: cs) = true
      · simp only [if_pos hstop, List.suffix_refl]
      · rw [if_neg hstop]
        exact ih.trans (List.suffix_cons c cs)

/-- What follows a token is an end of the text. -/
theorem token?_suffix {stop : List Char → Bool} {cs token rest : List Char}
    (h : token? stop cs = some (token, rest)) : rest <:+ cs := by
  unfold token? at h
  dsimp only at h
  split at h
  · exact nomatch h
  · obtain ⟨-, rfl⟩ := Prod.mk.inj (Option.some.inj h)
    exact (spanUntil_suffix stop (skip cs)).trans (skip_suffix cs)

/-- A comment that ends a line is a trimmed part of the line. -/
theorem ending?_eq_some {cs comment : List Char} (h : ending? cs = some comment) :
    IsTrimmed comment ∧ comment <:+: cs := by
  unfold ending? at h
  split at h
  · obtain rfl := Option.some.inj h
    exact ⟨isTrimmed_nil, List.nil_infix⟩
  · next text htext =>
      obtain rfl := Option.some.inj h
      refine ⟨isTrimmed_trim text, (trim_isInfix text).trans ?_⟩
      have htail : text <:+ skip cs := by
        rw [htext]
        exact ⟨['/', '/'], rfl⟩
      exact (htail.trans (skip_suffix cs)).isInfix
  · exact nomatch h

/-! ## Names, settings and defaults -/

/-- A name in quotes takes both of them along, and a bare name is a token. -/
theorem fieldName?_suffix {cs name rest : List Char} (h : fieldName? cs = some (name, rest)) :
    rest <:+ cs := by
  unfold fieldName? at h
  split at h
  · next inner hinner =>
      dsimp only at h
      obtain ⟨after, hafter, h⟩ := Option.map_eq_some_iff.mp h
      obtain ⟨-, rfl⟩ := Prod.mk.inj h
      exact (mark?_suffix hafter).trans ((spanTo_suffix '"' inner).trans (mark?_suffix hinner))
  · exact token?_suffix h

/-- Settings that are not closed are not skipped at all. -/
theorem skipSettings_suffix (cs : List Char) : skipSettings cs <:+ cs := by
  unfold skipSettings
  split
  · next inner hinner =>
      cases hclose : mark? ['}'] (inner.dropWhile (· != '}')) with
      | none => exact List.suffix_refl cs
      | some after =>
          exact (mark?_suffix hclose).trans
            ((List.dropWhile_suffix _).trans (mark?_suffix hinner))
  · exact List.suffix_refl cs

/-- A text without a default is left as it is. -/
theorem initial_suffix (cs : List Char) : (initial cs).2 <:+ cs := by
  unfold initial
  split
  · next inner hinner =>
      exact (spanUntil_suffix _ _).trans ((skip_suffix inner).trans (mark?_suffix hinner))
  · exact List.suffix_refl cs

/-! ## The five forms -/

variable {cs rest : List Char} {spec : Spec}

/-- The keyword of a structure is all that its form takes. -/
theorem struct?_suffix (h : struct? cs = some (spec, rest)) : rest <:+ cs := by
  unfold struct? at h
  obtain ⟨after, hafter, h⟩ := Option.bind_eq_some_iff.mp h
  split at h
  · obtain ⟨-, rfl⟩ := Prod.mk.inj (Option.some.inj h)
    exact word?_suffix hafter
  · exact nomatch h

/-- A reference takes its quotes and the semicolon behind them. -/
theorem reference?_suffix (h : reference? cs = some (spec, rest)) : rest <:+ cs := by
  unfold reference? at h
  obtain ⟨inner, hinner, h⟩ := Option.bind_eq_some_iff.mp h
  dsimp only at h
  split at h
  · exact nomatch h
  · obtain ⟨after, hafter, h⟩ := Option.bind_eq_some_iff.mp h
    obtain ⟨last, hlast, h⟩ := Option.bind_eq_some_iff.mp h
    obtain ⟨-, rfl⟩ := Prod.mk.inj (Option.some.inj h)
    exact (mark?_suffix hlast).trans ((mark?_suffix hafter).trans
      ((spanTo_suffix '"' inner).trans (mark?_suffix hinner)))

/-- The form of an array is the longest: two keywords with a range between them, a
    type, a default and a semicolon. -/
theorem array?_suffix (h : array? cs = some (spec, rest)) : rest <:+ cs := by
  unfold array? at h
  obtain ⟨opened, hopened, h⟩ := Option.bind_eq_some_iff.mp h
  obtain ⟨inner, hinner, h⟩ := Option.bind_eq_some_iff.mp h
  obtain ⟨closed, hclosed, h⟩ := Option.bind_eq_some_iff.mp h
  obtain ⟨element, helement, h⟩ := Option.bind_eq_some_iff.mp h
  obtain ⟨⟨token, after⟩, hafter, h⟩ := Option.bind_eq_some_iff.mp h
  obtain ⟨last, hlast, h⟩ := Option.bind_eq_some_iff.mp h
  obtain ⟨-, rfl⟩ := Prod.mk.inj (Option.some.inj h)
  have hrange : closed <:+ cs :=
    (mark?_suffix hclosed).trans ((spanTo_suffix ']' inner).trans
      ((mark?_suffix hinner).trans (word?_suffix hopened)))
  exact (mark?_suffix hlast).trans ((initial_suffix after).trans
    ((token?_suffix hafter).trans ((word?_suffix helement).trans hrange)))

/-- A string has a length in brackets, and a default that is read over. -/
theorem text?_suffix (h : text? cs = some (spec, rest)) : rest <:+ cs := by
  unfold text? at h
  obtain ⟨opened, hopened, h⟩ := Option.bind_eq_some_iff.mp h
  obtain ⟨inner, hinner, h⟩ := Option.bind_eq_some_iff.mp h
  obtain ⟨closed, hclosed, h⟩ := Option.bind_eq_some_iff.mp h
  obtain ⟨last, hlast, h⟩ := Option.bind_eq_some_iff.mp h
  obtain ⟨-, rfl⟩ := Prod.mk.inj (Option.some.inj h)
  have hlength : closed <:+ cs :=
    (mark?_suffix hclosed).trans ((spanTo_suffix ']' inner).trans
      ((mark?_suffix hinner).trans (word?_suffix hopened)))
  exact (mark?_suffix hlast).trans ((initial_suffix closed).trans hlength)

/-- The type of a scalar is a token, with a default and a semicolon behind it. -/
theorem scalar?_suffix (h : scalar? cs = some (spec, rest)) : rest <:+ cs := by
  unfold scalar? at h
  obtain ⟨⟨token, after⟩, hafter, h⟩ := Option.bind_eq_some_iff.mp h
  obtain ⟨last, hlast, h⟩ := Option.bind_eq_some_iff.mp h
  obtain ⟨-, rfl⟩ := Prod.mk.inj (Option.some.inj h)
  exact (mark?_suffix hlast).trans ((initial_suffix after).trans (token?_suffix hafter))

/-- Whichever form is found, what it leaves is an end of its text. -/
theorem spec?_suffix (h : spec? cs = some (spec, rest)) : rest <:+ cs := by
  unfold spec? at h
  rcases Option.or_eq_some_iff.mp h with h | ⟨-, h⟩
  · exact struct?_suffix h
  rcases Option.or_eq_some_iff.mp h with h | ⟨-, h⟩
  · exact reference?_suffix h
  rcases Option.or_eq_some_iff.mp h with h | ⟨-, h⟩
  · exact array?_suffix h
  rcases Option.or_eq_some_iff.mp h with h | ⟨-, h⟩
  · exact text?_suffix h
  · exact scalar?_suffix h

/-- **THE COMMENT OF A DECLARATION** is a trimmed part of its line. -/
theorem comment_of_declaration? {d : Declaration} (h : declaration? cs = some d) :
    IsTrimmed d.comment.toList ∧ d.comment.toList <:+: cs := by
  unfold declaration? at h
  obtain ⟨⟨name, named⟩, hnamed, h⟩ := Option.bind_eq_some_iff.mp h
  obtain ⟨form, hform, h⟩ := Option.bind_eq_some_iff.mp h
  obtain ⟨⟨spec, rest⟩, hrest, h⟩ := Option.bind_eq_some_iff.mp h
  obtain ⟨comment, hcomment, h⟩ := Option.bind_eq_some_iff.mp h
  obtain rfl := Option.some.inj h
  -- the ending is what the form leaves, the form is what the name leaves
  obtain ⟨htrim, hpart⟩ := ending?_eq_some hcomment
  have hform' : form <:+ cs :=
    (mark?_suffix hform).trans ((skipSettings_suffix named).trans (fieldName?_suffix hnamed))
  rw [String.toList_ofList]
  exact ⟨htrim, hpart.trans ((spec?_suffix hrest).trans hform').isInfix⟩

/-- The name of a declaration is trimmed. -/
theorem name_of_declaration? {d : Declaration} (h : declaration? cs = some d) :
    IsTrimmed d.name.toList := by
  rw [declaration?] at h
  obtain ⟨⟨name, named⟩, -, h⟩ := Option.bind_eq_some_iff.mp h
  obtain ⟨form, -, h⟩ := Option.bind_eq_some_iff.mp h
  obtain ⟨⟨spec, rest⟩, -, h⟩ := Option.bind_eq_some_iff.mp h
  obtain ⟨comment, -, h⟩ := Option.bind_eq_some_iff.mp h
  obtain rfl := Option.some.inj h
  rw [trimmedToken, String.toList_ofList]
  exact isTrimmed_trim name

end PlcTypes.Grammar
