import PlcTypes.Text.Blank

/-! # Text as a list of characters

    The operations on text that the rest of the library is built from:
    trimming, cutting at a mark, folding ASCII letters to upper case, and
    joining lines.  Each works on a list of characters; the versions for
    strings stand at the end, with the kinds of documents that keep one
    string. -/

namespace PlcTypes.Text

/-! ## Trimming -/

/-- The text without its leading blanks. -/
def trimStart (cs : List Char) : List Char :=
  cs.dropWhile isBlank

/-- The text without its trailing blanks. -/
def trimEnd (cs : List Char) : List Char :=
  (cs.reverse.dropWhile isBlank).reverse

/-- The text without its leading and trailing blanks. -/
def trim (cs : List Char) : List Char :=
  trimEnd (trimStart cs)

/-! ## Marks -/

/-- The text before and after the first occurrence of a mark. -/
def cutAt (mark : List Char) : List Char → Option (List Char × List Char)
  | [] => if mark.isEmpty then some ([], []) else none
  | c :: cs =>
      if mark.isPrefixOf (c :: cs) then some ([], (c :: cs).drop mark.length)
      else (cutAt mark cs).map fun (before, after) => (c :: before, after)

/-- Whether a mark occurs in the text. -/
def holds (mark cs : List Char) : Bool :=
  (cutAt mark cs).isSome

/-- The two characters that start a comment. -/
def commentMark : List Char := ['/', '/']

/-- The characters that end a line of text. -/
def isLineBreak (c : Char) : Bool :=
  c == '\r' || c == '\n'

/-! ## Letter case -/

/-- The text with its ASCII letters in upper case. -/
def foldCase (cs : List Char) : List Char :=
  cs.map Char.toUpper

/-! ## Strings -/

/-- A string without its leading and trailing blanks. -/
def trimmed (s : String) : String :=
  String.ofList (trim s.toList)

/-- Whether two strings are equal when the case of ASCII letters is ignored. -/
def sameName (a b : String) : Bool :=
  foldCase a.toList == foldCase b.toList

/-- The lines as one text, each ended by a line feed. -/
def ofLines (lines : List String) : String :=
  String.join (lines.map (· ++ "\n"))

/-- A kind of documents that keep a string: how a string is written, and which
    string a document holds, if it holds one. -/
structure Codec (Document : Type) where
  encode : String → Document
  decode : Document → Option String

end PlcTypes.Text
