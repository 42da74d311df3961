import PlcTypes.Proofs.Grammar.Declaration
import PlcTypes.Proofs.RoundTrip.Field

/-! # Names as they are spelled

    A name may stand in quotes that it does not need, and it may stand without
    quotes although it is written with them.  However it is spelled in one
    declaration, it can be taken over into another and is read there as the
    same name: a name in quotes ends at its quote, and where a name without
    quotes ends is decided by the two characters behind it, which are no part
    of it before a space, either. -/

namespace PlcTypes

open Text Grammar Render

namespace Grammar

/-- The name that a declaration starts with, as it is spelled. -/
def spelled (cs : List Char) : List Char :=
  match mark? ['"'] cs with
  | some inner => '"' :: ((spanTo '"' inner).1 ++ ['"'])
  | none => ((token? atNameEnd cs).map Prod.fst).getD []

/-- The name in quotes at the start of a line holds no quote, and no gap in
    front. -/
theorem of_spanTo (stop : Char) (cs : List Char) :
    stop ∉ (spanTo stop cs).1 ∧
      ∀ c, (spanTo stop cs).1.head? = some c → isGap c = false := by
  rw [spanTo, List.span_eq_takeWhile_dropWhile]
  refine ⟨?_, ?_⟩
  · intro hc
    have := List.mem_takeWhile_imp hc
    simp at this
  · intro c hc
    have hskip : (skip cs).head? = some c := by
      cases hcs : skip cs with
      | nil =>
          rw [hcs] at hc
          exact nomatch hc
      | cons d ds =>
          rw [hcs, List.takeWhile_cons] at hc
          split at hc
          · exact hc
          · exact nomatch hc
    have := head_dropWhile hskip
    simpa using this

/-- **A SPELLED NAME** is read again as the name that it spells. -/
theorem fieldName?_spelled {cs name rest : List Char} (h : fieldName? cs = some (name, rest))
    (more : List Char) : fieldName? (spelled cs ++ ' ' :: more) = some (name, ' ' :: more) := by
  rw [fieldName?] at h
  rw [spelled]
  cases hmark : mark? ['"'] cs with
  | some inner =>
      rw [hmark] at h
      dsimp only at h
      obtain ⟨after, -, h⟩ := Option.map_eq_some_iff.mp h
      obtain ⟨rfl, -⟩ := Prod.mk.inj h
      obtain ⟨hquote, hgap⟩ := of_spanTo '"' inner
      have hread := fieldName?_quoted hgap hquote (' ' :: more)
      rw [← hread]
      simp
  | none =>
      rw [hmark] at h
      dsimp only at h ⊢
      rw [h]
      obtain ⟨-, hne, hgoes⟩ := token?_eq_some h
      exact fieldName?_token hne fun part hpart hpartne =>
        atNameEnd_before_space hpartne (hgoes part hpart hpartne) more

/-- A spelled name is made of what stands on the line, and of quotes. -/
theorem mem_of_mem_spelled {cs : List Char} {c : Char} (h : c ∈ spelled cs) :
    c = '"' ∨ c ∈ cs := by
  rw [spelled] at h
  cases hmark : mark? ['"'] cs with
  | some inner =>
      rw [hmark] at h
      simp only [List.mem_cons, List.mem_append, List.not_mem_nil, or_false] at h
      rcases h with rfl | h | rfl
      · exact Or.inl rfl
      · right
        rw [spanTo, List.span_eq_takeWhile_dropWhile] at h
        have hskip : c ∈ skip inner := (List.takeWhile_prefix _).subset h
        exact (mark?_suffix hmark).subset ((skip_suffix inner).subset hskip)
      · exact Or.inl rfl
  | none =>
      rw [hmark] at h
      dsimp only at h
      cases htoken : token? atNameEnd cs with
      | none =>
          rw [htoken] at h
          exact nomatch h
      | some found =>
          obtain ⟨token, rest⟩ := found
          rw [htoken] at h
          obtain ⟨hsplit, -, -⟩ := token?_eq_some htoken
          have hskip : c ∈ skip cs := by
            rw [hsplit]
            exact List.mem_append_left _ h
          exact Or.inr ((skip_suffix cs).subset hskip)

/-- The spelled name at the start of a trimmed line starts with no blank. -/
theorem head_spelled {cs name rest : List Char} (htrim : IsTrimmed cs)
    (h : fieldName? cs = some (name, rest)) :
    ∃ c more, spelled cs = c :: more ∧ isBlank c = false := by
  rw [fieldName?] at h
  rw [spelled]
  cases hmark : mark? ['"'] cs with
  | some inner => exact ⟨'"', _, rfl, by decide⟩
  | none =>
      rw [hmark] at h
      dsimp only at h ⊢
      obtain ⟨hsplit, hne, -⟩ := token?_eq_some h
      rw [h]
      cases name with
      | nil => exact absurd rfl hne
      | cons c name =>
          refine ⟨c, name, rfl, htrim.head c ?_⟩
          cases cs with
          | nil => exact nomatch hsplit
          | cons d ds =>
              have hgap := isGap_of_isBlank_eq_false (htrim.head d rfl)
              rw [skip_cons hgap] at hsplit
              exact congrArg some (List.cons.inj hsplit).1

end Grammar

/-! ## Opening a structure with a spelled name -/

/-- The line that opens a structure in the place of another declaration. -/
def structHead (cs : List Char) (comment : String) : List Char :=
  spelled cs ++ ' ' :: ':' :: (" STRUCT".toList ++ (remark comment).toList)

theorem declaration?_structHead {cs : List Char} {d : Declaration}
    (h : declaration? cs = some d) (comment : String) :
    declaration? (structHead cs comment)
      = some { name := d.name, spec := .struct,
               comment := String.ofList (trim comment.toList) } := by
  rw [declaration?] at h
  obtain ⟨⟨name, named⟩, hname, h⟩ := Option.bind_eq_some_iff.mp h
  obtain ⟨form, -, h⟩ := Option.bind_eq_some_iff.mp h
  obtain ⟨⟨spec, rest⟩, -, h⟩ := Option.bind_eq_some_iff.mp h
  obtain ⟨ending, -, h⟩ := Option.bind_eq_some_iff.mp h
  obtain rfl := Option.some.inj h
  exact declaration?_of_name (fieldName?_spelled hname) (spec?_struct comment)
    (ending?_remark comment)

theorem isTrimmed_structHead {cs : List Char} {d : Declaration} (htrim : IsTrimmed cs)
    (h : declaration? cs = some d) (comment : String) : IsTrimmed (structHead cs comment) := by
  rw [declaration?] at h
  obtain ⟨⟨name, named⟩, hname, -⟩ := Option.bind_eq_some_iff.mp h
  obtain ⟨c, more, hspelled, hblank⟩ := head_spelled htrim hname
  have hword : ∃ c, " STRUCT".toList.getLast? = some c ∧ isBlank c = false :=
    ⟨'T', rfl, by decide⟩
  obtain ⟨l, hl, hlast⟩ := Field.getLast?_append_remark comment hword
  constructor
  · intro e he
    rw [structHead, hspelled] at he
    rw [← Option.some.inj he]
    exact hblank
  · intro e he
    rw [structHead, List.getLast?_append, List.getLast?_cons_cons, List.getLast?_cons, hl] at he
    rw [← Option.some.inj he]
    exact hlast

/-- The line is one line. -/
theorem not_mem_structHead {cs : List Char} (hcs : '\n' ∉ cs) {comment : String}
    (hcomment : IsRemark comment) : '\n' ∉ structHead cs comment := by
  have hspelled : '\n' ∉ spelled cs := by
    intro hn
    rcases mem_of_mem_spelled hn with hquote | hn
    · exact absurd hquote (by decide)
    · exact hcs hn
  have hremark : '\n' ∉ (remark comment).toList := by
    rw [Field.mem_remark (by decide), hcomment.trimmed.trim_eq]
    exact hcomment.unbroken
  rw [structHead]
  simp [hspelled, hremark]

end PlcTypes
