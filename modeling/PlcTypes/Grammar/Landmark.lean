import PlcTypes.Grammar.Token
import PlcTypes.Name

/-! # Lines of the frame

    The lines that frame the members of a definition:

        TYPE "Name"   // comment
        VERSION : 0.1
        STRUCT
        END_STRUCT;
        END_TYPE

    Their words may be written in any case, and all but the version may end
    in a comment. -/

namespace PlcTypes.Grammar

/-- The name and the comment of a heading. -/
def heading? (cs : List Char) : Option (List Char × List Char) := do
  let cs ← mark? ['"'] (← word? "TYPE".toList cs)
  let (title, cs) := spanTo '"' cs
  let comment ← ending? (← mark? ['"'] cs)
  return (Text.trim title, comment)

/-- The version on a version line, from its first digit on. -/
def version? (cs : List Char) : Option (List Char) :=
  (word? "VERSION".toList cs).map versionOf

/-- Whether a line opens the members of a definition. -/
def isStruct (cs : List Char) : Bool :=
  ((word? "STRUCT".toList cs).bind ending?).isSome

/-- Whether a line closes a structure. -/
def isEndStruct (cs : List Char) : Bool :=
  (((word? "END_STRUCT".toList cs).bind (mark? [';'])).bind ending?).isSome

/-- Whether a line ends a definition. -/
def isEndType (cs : List Char) : Bool :=
  ((word? "END_TYPE".toList cs).bind ending?).isSome

end PlcTypes.Grammar
