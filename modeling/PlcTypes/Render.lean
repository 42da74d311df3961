import PlcTypes.Field.Build

/-! # The written form of a definition

    A definition is written as lines, each ended by a line feed.  Members are
    indented by four spaces for each structure around them, a comment follows
    its declaration after three spaces, and the range of an array is written
    with its last index.  A name stands in double quotes where it could not
    be read without them.

    What is written is read back as the same definition; see
    `PlcTypes.Source.Definition`. -/

namespace PlcTypes

namespace Render

/-- The blanks before a line that stands inside `depth` structures. -/
def indent (depth : Nat) : String :=
  String.ofList (List.replicate (4 * depth) ' ')

/-- A comment as it follows a declaration; a blank one is left out. -/
def remark (comment : String) : String :=
  let text := Text.trimmed comment
  if text.isEmpty then "" else "   // " ++ text

/-- Whether a name can be read without quotes. -/
def isBare (cs : List Char) : Bool :=
  !cs.isEmpty && !Text.holds Text.commentMark cs &&
    !cs.any fun c => Text.isBlank c || c == ':' || c == '{' || c == '"'

/-- A name, in quotes if it needs them. -/
def nameText (name : String) : String :=
  if isBare name.toList then name else "\"" ++ name ++ "\""

/-- The end of a declaration: a default, if there is one, and the semicolon. -/
def ending : Option String → String
  | some value => " := " ++ value ++ ";"
  | none => ";"

end Render

open Render

namespace ScalarField

/-- The declaration of a scalar, without indentation. -/
def render (f : ScalarField) : String :=
  nameText f.name ++ " : " ++ f.type.name ++ ending f.initial ++ remark f.comment

end ScalarField

namespace TextField

/-- The declaration of a string, without indentation. -/
def render (f : TextField) : String :=
  nameText f.name ++ " : STRING[" ++ Decimal.ofNat f.capacity ++ "];" ++ remark f.comment

end TextField

namespace ArrayField

/-- The declaration of an array, without indentation. -/
def render (f : ArrayField) : String :=
  nameText f.name ++ " : ARRAY[" ++ Decimal.ofInt f.start ++ ".."
    ++ Decimal.ofInt (f.stop - 1) ++ "] OF " ++ f.element.name ++ ending f.initial
    ++ remark f.comment

end ArrayField

namespace Field

mutual

/-- The lines of a field that stands inside `depth` structures. -/
def lines (depth : Nat) : Field → List String
  | scalar f => [indent depth ++ f.render]
  | text f => [indent depth ++ f.render]
  | array f => [indent depth ++ f.render]
  | struct name comment members =>
      (indent depth ++ nameText name ++ " : STRUCT" ++ remark comment)
        :: (linesAll (depth + 1) members ++ [indent depth ++ "END_STRUCT;"])

/-- The lines of a list of fields that stand inside `depth` structures. -/
def linesAll (depth : Nat) : List Field → List String
  | [] => []
  | f :: fs => lines depth f ++ linesAll depth fs

end

end Field

namespace TypeDefinition

/-- The lines of a definition. -/
def lines (t : TypeDefinition) : List String :=
  ["TYPE \"" ++ t.name ++ "\"" ++ remark t.comment,
   "VERSION : " ++ t.version,
   indent 1 ++ "STRUCT"]
    ++ Field.linesAll 2 t.members
    ++ [indent 1 ++ "END_STRUCT;", "", "END_TYPE"]

/-- The written form of a definition. -/
def render (t : TypeDefinition) : String :=
  Text.ofLines t.lines

end TypeDefinition

end PlcTypes
