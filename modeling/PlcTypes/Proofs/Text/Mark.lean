import PlcTypes.Proofs.Text.Utf8

/-! # Texts behind a byte order mark

    A byte order mark that is put in front of a text stands in front of its first
    line.  If the text has no lines, the mark is one.  The bytes of a text may hold
    lines that are no text: a mark in front of the bytes makes no difference to
    that. -/

namespace PlcTypes.Text

/-! ## A start without line ends -/

section Cutting

variable {α : Type} [BEq α] [LawfulBEq α] {lf cr : α} {start : List α}

/-- What stands in front of a sequence stands in front of its first piece. -/
theorem splitOn_append (hlf : lf ∉ start) (xs : List α) :
    (start ++ xs).splitOn lf = (xs.splitOn lf).modifyHead (start ++ ·) := by
  induction start with
  | nil =>
      show xs.splitOn lf = (xs.splitOn lf).modifyHead id
      cases xs.splitOn lf with
      | nil => rfl
      | cons piece more => rfl
  | cons x start ih =>
      have hx : (x == lf) = false := by
        rw [beq_eq_false_iff_ne]
        rintro rfl
        exact hlf List.mem_cons_self
      rw [List.cons_append, List.splitOn, List.splitOnP_cons_eq_if_modifyHead, if_neg (by simp [hx])]
      show List.modifyHead (List.cons x) ((start ++ xs).splitOn lf) = _
      rw [ih fun hmem => hlf (List.mem_cons_of_mem x hmem)]
      cases xs.splitOn lf with
      | nil => rfl
      | cons piece more => rfl

/-- Lines with more in front of the first, or with that as a line of its own. -/
def startLines (start : List α) : List (List α) → List (List α)
  | [] => [start]
  | line :: rest => (start ++ line) :: rest

theorem dropReturn_append (hcr : cr ∉ start) (piece : List α) :
    dropReturn cr (start ++ piece) = start ++ dropReturn cr piece := by
  by_cases hpiece : piece = []
  · rw [hpiece, List.append_nil, dropReturn, if_neg]
    · exact (List.append_nil start).symm
    · rw [beq_iff_eq]
      exact fun hlast => hcr (List.mem_of_getLast? hlast)
  · rw [dropReturn, dropReturn, List.getLast?_append, List.getLast?_eq_some_getLast hpiece,
      Option.some_or, List.dropLast_append_of_ne_nil hpiece]
    split
    · rfl
    · rfl

/-- What stands in front of a sequence stands in front of its first line. -/
theorem cutLines_append (hstart : start ≠ []) (hlf : lf ∉ start) (hcr : cr ∉ start) (xs : List α) :
    cutLines lf cr (start ++ xs) = startLines start (cutLines lf cr xs) := by
  rw [cutLines, cutLines, splitOn_append hlf]
  cases hpieces : xs.splitOn lf with
  | nil => exact absurd hpieces (List.splitOn_ne_nil _ _)
  | cons piece more =>
      rw [List.modifyHead_cons]
      cases more with
      | nil =>
          rw [endPieces, endPieces, if_neg (by simp [hstart])]
          split
          · next hempty =>
              rw [List.isEmpty_iff.mp hempty, List.append_nil]
              rfl
          · rfl
      | cons next more =>
          rw [endPieces, endPieces, dropReturn_append hcr]
          rfl

end Cutting

/-! ## The mark -/

/-- A text behind a byte order mark. -/
def markedText (s : String) : String :=
  "\uFEFF" ++ s

/-- Bytes behind the bytes of a byte order mark. -/
def markedBytes (bytes : List UInt8) : List UInt8 :=
  [0xEF, 0xBB, 0xBF] ++ bytes

/-- Lines with a mark in front of the first, if that can be had. -/
def markedLines : List Line → List Line
  | [] => [.text "\uFEFF"]
  | .text s :: rest => .text ("\uFEFF" ++ s) :: rest
  | .unreadable fault :: rest => .unreadable fault :: rest

/-- The lines of a text behind a mark are its lines with the mark in front of the
    first. -/
theorem linesOfText_markedText (s : String) :
    linesOfText (markedText s) = markedLines (linesOfText s) := by
  rw [linesOfText, linesOfText, markedText, String.toList_append,
    cutLines_append (by decide) (by decide) (by decide)]
  cases cutLines '\n' '\r' s.toList with
  | nil => rfl
  | cons line rest =>
      show Line.text (String.ofList ("\uFEFF".toList ++ line)) :: _ = _
      rw [String.ofList_append]
      rfl

/-- The bytes of a mark are read as the mark. -/
theorem Utf8.decode_markedBytes (bytes : List UInt8) :
    decode (markedBytes bytes) = (decode bytes).map ('\uFEFF' :: ·) := by
  have hmark : String.utf8EncodeChar '\uFEFF' = [0xEF, 0xBB, 0xBF] := by decide
  rw [markedBytes, ← hmark]
  exact decode_encodeChar bytes '\uFEFF'

/-- The lines of bytes behind a mark are their lines with the mark in front of the
    first. -/
theorem linesOfBytes_markedBytes (bytes : List UInt8) :
    linesOfBytes (markedBytes bytes) = markedLines (linesOfBytes bytes) := by
  rw [linesOfBytes, linesOfBytes, markedBytes, cutLines_append (by decide) (by decide) (by decide)]
  cases cutLines 10 13 bytes with
  | nil => decide
  | cons line rest =>
      show Line.ofBytes (markedBytes line) :: _ = _
      rw [Line.ofBytes, Utf8.decode_markedBytes, List.map_cons, Line.ofBytes]
      cases Utf8.decode line with
      | none => rfl
      | some cs =>
          show Line.text (String.ofList (['\uFEFF'] ++ cs)) :: _ = _
          rw [String.ofList_append]
          rfl

end PlcTypes.Text
