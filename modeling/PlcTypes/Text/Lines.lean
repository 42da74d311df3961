import PlcTypes.Text.Utf8

/-! # Lines

    A text is a sequence of lines, each ended by a line feed.  One carriage
    return before the line feed belongs to the ending; a carriage return
    anywhere else belongs to the line.  What follows the last line feed is a
    line of its own unless it is empty, and keeps all its characters.

    Bytes are cut into lines in the same way and each line is decoded by
    itself, so a line that is not well-formed text spoils only itself. -/

namespace PlcTypes.Text

/-- The reasons for which a line cannot be had. -/
inductive ReadFault where
  /-- The bytes of the line are no text. -/
  | invalidText
  /-- The source is a directory, not a file. -/
  | isDirectory
deriving DecidableEq, Repr

/-- A line as its reader gets it. -/
inductive Line where
  | text (content : String)
  | unreadable (fault : ReadFault)
deriving DecidableEq, Repr

/-- A line without the carriage return before its line feed. -/
def dropReturn {α : Type} [BEq α] (cr : α) (piece : List α) : List α :=
  if piece.getLast? == some cr then piece.dropLast else piece

/-- The lines whose pieces between line feeds are given. -/
def endPieces {α : Type} [BEq α] (cr : α) : List (List α) → List (List α)
  | [] => []
  | [last] => if last.isEmpty then [] else [last]
  | piece :: next :: more => dropReturn cr piece :: endPieces cr (next :: more)

/-- The lines of a sequence, for its own line feed and carriage return. -/
def cutLines {α : Type} [BEq α] (lf cr : α) (xs : List α) : List (List α) :=
  endPieces cr (xs.splitOn lf)

/-- The lines of a text. -/
def linesOfText (s : String) : List Line :=
  (cutLines '\n' '\r' s.toList).map fun cs => .text (String.ofList cs)

/-- The line that some bytes spell. -/
def Line.ofBytes (bytes : List UInt8) : Line :=
  match Utf8.decode bytes with
  | some cs => .text (String.ofList cs)
  | none => .unreadable .invalidText

/-- The lines of a sequence of bytes. -/
def linesOfBytes (bytes : List UInt8) : List Line :=
  (cutLines 10 13 bytes).map Line.ofBytes

example : cutLines '\n' '\r' "a\r\n\nb\r".toList = [['a'], [], ['b', '\r']] := by
  decide

end PlcTypes.Text
