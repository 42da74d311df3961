import Mathlib.Data.List.Forall2
import PlcTypes.Proofs.Text.Utf8

/-! # Lines that differ at their ends only

    Two lines are the same after trimming, or neither can be had.  That is so,
    line by line, for a source and the same source with a carriage return before
    every line feed: a line of the second is the line of the first, or has one
    carriage return more, which was a part of the ending before.

    The bytes of a source are decoded line by line.  A carriage return is one byte
    that stands for itself, so one more at the end of a line makes no text of bytes
    that are none, and puts a carriage return behind those that are one. -/

namespace PlcTypes.Text

/-- The same line after trimming. -/
inductive Line.SameTrimmed : Line → Line → Prop where
  | text {s s' : String} (h : trim s'.toList = trim s.toList) :
      SameTrimmed (.text s) (.text s')
  | unreadable (fault : ReadFault) : SameTrimmed (.unreadable fault) (.unreadable fault)

/-- The same line, or the line with a carriage return behind it. -/
inductive Line.Returned : Line → Line → Prop where
  | same (l : Line) : Returned l l
  | returned (s : String) : Returned (.text s) (.text (s ++ "\r"))

/-- A carriage return at the end is trimmed away. -/
theorem trim_append_return (cs : List Char) : trim (cs ++ ['\r']) = trim cs := by
  refine trim_append_right ?_ cs
  intro c hc
  rw [List.mem_singleton.mp hc]
  decide

/-- A carriage return at the end of a line is lost when the line is trimmed. -/
theorem Line.Returned.sameTrimmed {l l' : Line} (h : l.Returned l') : l.SameTrimmed l' := by
  cases h with
  | same l =>
      cases l with
      | text s => exact .text rfl
      | unreadable fault => exact .unreadable fault
  | returned s =>
      refine .text ?_
      rw [String.toList_append]
      exact trim_append_return s.toList

/-! ## Carriage returns before line feeds -/

section Cutting

variable {α : Type} [BEq α] [LawfulBEq α] {lf cr : α}

/-- A sequence with a carriage return before each of its line feeds. -/
def withReturns (lf cr : α) (xs : List α) : List α :=
  xs.flatMap fun x => if x == lf then [cr, lf] else [x]

/-- Pieces with a carriage return behind each but the last. -/
def returnPieces (cr : α) : List (List α) → List (List α)
  | [] => []
  | [last] => [last]
  | piece :: next :: more => (piece ++ [cr]) :: returnPieces cr (next :: more)

omit [BEq α] [LawfulBEq α] in
theorem returnPieces_cons_cons (piece next : List α) (more : List (List α)) :
    returnPieces cr (piece :: next :: more) = (piece ++ [cr]) :: returnPieces cr (next :: more) :=
  rfl

omit [BEq α] [LawfulBEq α] in
/-- There are as many pieces with carriage returns as without, so one at least. -/
theorem exists_returnPieces_cons (cr : α) (piece : List α) (more : List (List α)) :
    ∃ first rest, returnPieces cr (piece :: more) = first :: rest := by
  cases more with
  | nil => exact ⟨_, _, rfl⟩
  | cons next more => exact ⟨_, _, rfl⟩

/-- A sequence without line feeds gets no carriage returns. -/
theorem withReturns_of_not_mem (cr : α) {xs : List α} (h : lf ∉ xs) : withReturns lf cr xs = xs := by
  induction xs with
  | nil => rfl
  | cons x xs ih =>
      have hx : (x == lf) = false := by
        rw [beq_eq_false_iff_ne]
        rintro rfl
        exact h List.mem_cons_self
      show (if x == lf then [cr, lf] else [x]) ++ withReturns lf cr xs = x :: xs
      rw [hx, ih fun hmem => h (List.mem_cons_of_mem x hmem)]
      rfl

/-- Between its line feeds the sequence has the pieces with their carriage
    returns. -/
theorem withReturns_intercalate (cr : α) {pieces : List (List α)} (h : ∀ p ∈ pieces, lf ∉ p) :
    withReturns lf cr ([lf].intercalate pieces) = [lf].intercalate (returnPieces cr pieces) := by
  induction pieces with
  | nil => rfl
  | cons piece pieces ih =>
      have hpiece := withReturns_of_not_mem cr (h piece List.mem_cons_self)
      cases pieces with
      | nil =>
          rw [List.intercalate_singleton, hpiece]
          exact List.intercalate_singleton.symm
      | cons next more =>
          have hlf : withReturns lf cr [lf] = [cr, lf] := by
            show (if lf == lf then [cr, lf] else [lf]) ++ [] = [cr, lf]
            rw [beq_self_eq_true]
            rfl
          rw [List.intercalate_cons_cons, withReturns, List.flatMap_append, List.flatMap_append]
          show withReturns lf cr piece ++ withReturns lf cr [lf] ++ withReturns lf cr _ = _
          rw [hpiece, hlf, ih fun p hp => h p (List.mem_cons_of_mem piece hp),
            returnPieces_cons_cons]
          obtain ⟨first, rest, hfirst⟩ := exists_returnPieces_cons cr next more
          rw [hfirst, List.intercalate_cons_cons]
          simp

omit [BEq α] [LawfulBEq α] in
/-- Carriage returns are no line feeds. -/
theorem not_mem_returnPieces (hne : cr ≠ lf) {pieces : List (List α)} (h : ∀ p ∈ pieces, lf ∉ p) :
    ∀ p ∈ returnPieces cr pieces, lf ∉ p := by
  induction pieces with
  | nil => exact h
  | cons piece pieces ih =>
      cases pieces with
      | nil => exact h
      | cons next more =>
          rw [returnPieces_cons_cons]
          refine List.forall_mem_cons.mpr ⟨?_, ih fun p hp => h p (List.mem_cons_of_mem piece hp)⟩
          rw [List.mem_append, List.mem_singleton]
          rintro (hmem | heq)
          · exact h piece List.mem_cons_self hmem
          · exact hne heq.symm

/-- Pieces with carriage returns end as they would without, but for a carriage
    return that ended a piece already. -/
theorem endPieces_returnPieces (pieces : List (List α)) :
    List.Forall₂ (fun line line' => line' = line ∨ line' = line ++ [cr])
      (endPieces cr pieces) (endPieces cr (returnPieces cr pieces)) := by
  induction pieces with
  | nil => exact .nil
  | cons piece pieces ih =>
      cases pieces with
      | nil => exact List.forall₂_same.mpr fun _ _ => Or.inl rfl
      | cons next more =>
          obtain ⟨first, rest, hfirst⟩ := exists_returnPieces_cons cr next more
          rw [hfirst] at ih
          rw [returnPieces_cons_cons, hfirst, endPieces, endPieces]
          refine .cons ?_ ih
          have hdrop : dropReturn cr (piece ++ [cr]) = piece := by
            rw [dropReturn, List.getLast?_concat, if_pos (beq_self_eq_true _), List.dropLast_concat]
          rw [hdrop, dropReturn]
          split
          · next hlast =>
              obtain ⟨start, rfl⟩ := List.getLast?_eq_some_iff.mp (eq_of_beq hlast)
              rw [List.dropLast_concat]
              exact Or.inr rfl
          · exact Or.inl rfl

/-- **CARRIAGE RETURNS**: with one before every line feed a sequence is cut into as
    many lines, each the same or with a carriage return behind it. -/
theorem cutLines_withReturns (hne : cr ≠ lf) (xs : List α) :
    List.Forall₂ (fun line line' => line' = line ∨ line' = line ++ [cr])
      (cutLines lf cr xs) (cutLines lf cr (withReturns lf cr xs)) := by
  have hpieces : ∀ p ∈ xs.splitOn lf, lf ∉ p := by
    intro p hp hmem
    have hfree := eq_false_of_mem_splitOnP p hp lf hmem
    rw [beq_self_eq_true] at hfree
    exact Bool.noConfusion hfree
  have hsplit : (withReturns lf cr xs).splitOn lf = returnPieces cr (xs.splitOn lf) := by
    have hne' : returnPieces cr (xs.splitOn lf) ≠ [] := by
      rcases List.exists_cons_of_ne_nil (List.splitOn_ne_nil lf xs) with ⟨piece, more, hcons⟩
      obtain ⟨first, rest, hfirst⟩ := exists_returnPieces_cons cr piece more
      rw [hcons, hfirst]
      exact List.cons_ne_nil _ _
    have hjoined := withReturns_intercalate cr hpieces
    rw [List.intercalate_splitOn] at hjoined
    rw [hjoined]
    exact List.splitOn_intercalate lf (not_mem_returnPieces hne hpieces) hne'
  rw [cutLines, cutLines, hsplit]
  exact endPieces_returnPieces _

end Cutting

/-! ## Texts and bytes -/

/-- A text with a carriage return before every line feed. -/
def returnedText (s : String) : String :=
  String.ofList (withReturns '\n' '\r' s.toList)

/-- Bytes with a carriage return before every line feed. -/
def returnedBytes (bytes : List UInt8) : List UInt8 :=
  withReturns 10 13 bytes

/-- The lines of a text with other line endings are the same but for carriage
    returns. -/
theorem returned_linesOfText (s : String) :
    List.Forall₂ Line.Returned (linesOfText s) (linesOfText (returnedText s)) := by
  rw [linesOfText, linesOfText, returnedText, String.toList_ofList, List.forall₂_map_left_iff,
    List.forall₂_map_right_iff]
  refine (cutLines_withReturns (by decide) s.toList).imp ?_
  rintro line _ (rfl | rfl)
  · exact .same _
  · rw [String.ofList_append]
    exact .returned (String.ofList line)

/-- A carriage return behind some bytes is read as one behind their text. -/
theorem Utf8.decode_append_return (bytes : List UInt8) :
    decode (bytes ++ [13]) = (decode bytes).map (· ++ ['\r']) := by
  have htail : tailBits 13 = none := by decide
  fun_induction decode bytes with
  | case1 => decide
  | case2 a rest ha ih =>
      rw [List.cons_append, decode.eq_def]
      simp only [ha, if_true, ih, Option.map_map]
      rfl
  -- a character that lacks tail bytes does not get one
  | case3 a ha =>
      rw [List.cons_append, decode.eq_def]
      simp [ha, htail]
  | case4 a ha b rest hb =>
      rw [List.cons_append, decode.eq_def]
      simp [ha, hb]
  | case5 a ha b rest hb hc ih =>
      rw [List.cons_append, List.cons_append, decode.eq_def]
      simp [ha, hb, hc, ih, Option.map_bind, Function.comp_def]
  | case6 a ha b hb hc =>
      rw [List.cons_append, List.cons_append, decode.eq_def]
      simp [ha, hb, hc, htail]
  | case7 a ha b hb hc b' rest hd ih =>
      rw [List.cons_append, List.cons_append, List.cons_append, decode.eq_def]
      simp [ha, hb, hc, hd, ih, Option.map_bind, Function.comp_def]
  | case8 a ha b hb hc b' hd =>
      rw [List.cons_append, List.cons_append, List.cons_append, decode.eq_def]
      simp [ha, hb, hc, hd, htail]
  | case9 a ha b hb hc b' hd b'' rest he ih =>
      rw [List.cons_append, List.cons_append, List.cons_append, List.cons_append, decode.eq_def]
      simp [ha, hb, hc, hd, he, ih, Option.map_bind, Function.comp_def]
  | case10 a ha b hb hc b' hd b'' rest he =>
      rw [List.cons_append, List.cons_append, List.cons_append, List.cons_append, decode.eq_def]
      simp [ha, hb, hc, hd, he]

/-- The lines of bytes with a carriage return before each line feed are the lines
    of the bytes, or these with a return behind them, whether they are text or
    not. -/
theorem returned_linesOfBytes (bytes : List UInt8) :
    List.Forall₂ Line.Returned (linesOfBytes bytes) (linesOfBytes (returnedBytes bytes)) := by
  rw [linesOfBytes, linesOfBytes, returnedBytes, List.forall₂_map_left_iff,
    List.forall₂_map_right_iff]
  refine (cutLines_withReturns (by decide) bytes).imp ?_
  rintro line _ (rfl | rfl)
  · exact .same _
  · rw [Line.ofBytes, Line.ofBytes, Utf8.decode_append_return]
    cases Utf8.decode line with
    | none => exact .same _
    | some cs =>
        show Line.Returned (.text (String.ofList cs)) (.text (String.ofList (cs ++ ['\r'])))
        rw [String.ofList_append]
        exact .returned (String.ofList cs)

end PlcTypes.Text
