import PlcTypes.Error

/-! # Names and one-line texts

    What the strings of a definition may hold.  A name is trimmed, not empty
    and holds no dot, which separates the segments of a path, no double
    quote, which would end a quoted name, and no line break.  A comment is
    brought to one line, a version starts at its first digit, and a default
    may hold nothing that ends its own declaration. -/

namespace PlcTypes

/-! ## Names -/

/-- Whether a character may stand in a name. -/
def isNameChar (c : Char) : Bool :=
  c != '.' && c != '"' && !Text.isLineBreak c

/-- Whether a text is a name as it stands. -/
def isName (cs : List Char) : Bool :=
  !cs.isEmpty && cs.all isNameChar

/-- The name that a text gives when its outer blanks are dropped. -/
def nameOf (s : String) : Except Error String :=
  let name := Text.trimmed s
  if isName name.toList then .ok name else .error (.invalidName name)

/-! ## Comments -/

/-- A comment on one line: each line break, with the blanks around it, becomes
    a single space. -/
def oneLine (s : String) : String :=
  let parts := (s.toList.splitOnP Text.isLineBreak).map Text.trim
  String.ofList ([' '].intercalate (parts.filter fun part => !part.isEmpty))

/-! ## Versions -/

/-- The text from its first digit on, trimmed. -/
def versionOf (cs : List Char) : List Char :=
  Text.trim (cs.dropWhile fun c => !c.isDigit)

/-! ## Defaults -/

/-- The default that a text gives: none if it is blank, an error if it holds
    a semicolon, a comment mark or a line break. -/
def defaultOf (s : String) : Except Error (Option String) :=
  let cs := s.toList
  let value := Text.trimmed s
  if cs.contains ';' || Text.holds Text.commentMark cs || cs.any Text.isLineBreak then
    .error (.malformedField none (.defaultText value))
  else .ok (if value.isEmpty then none else some value)

end PlcTypes
