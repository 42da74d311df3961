import PlcTypes.Grammar.Landmark

/-! # Declarations

    A member is declared on one line:

        Name { settings } : TYPE := default;   // comment

    The name may stand in double quotes, the settings are passed over, and
    what follows the colon is one of five forms.  They are tried in the order
    of `spec?`, and the first that fits is taken for good: when the rest of
    the line does not end as it must, no other form is tried.

    Inside a structure a line is blank, a remark, a closing line, a
    declaration or nothing of these; `BodyLine.ofText` tells which. -/

namespace PlcTypes.Grammar

/-- What the declaration of a field without members says of it.  The texts
    are trimmed and not examined further. -/
inductive PlainSpec where
  | array (range element initial : String)
  | text (length : String)
  | scalar (type initial : String)
deriving DecidableEq, Repr

/-- What a declaration says after its colon. -/
inductive Spec where
  /-- A structure, whose members are on the lines that follow. -/
  | struct
  /-- A structure whose members are those of another definition. -/
  | reference (target : String)
  | plain (spec : PlainSpec)
deriving DecidableEq, Repr

/-- A declaration as it is written. -/
structure Declaration where
  name : String
  spec : Spec
  comment : String
deriving DecidableEq, Repr

/-- The trimmed string of a token. -/
def trimmedToken (cs : List Char) : String :=
  String.ofList (Text.trim cs)

/-! ## Where tokens end -/

/-- Whether a comment starts here. -/
def atComment (cs : List Char) : Bool :=
  Text.commentMark.isPrefixOf cs

/-- Whether a name without quotes ends here. -/
def atNameEnd : List Char → Bool
  | [] => true
  | c :: cs => c == ':' || c == '{' || c == '"' || isGap c || atComment (c :: cs)

/-- Whether the name of a type ends here. -/
def atTypeEnd : List Char → Bool
  | [] => true
  | c :: cs =>
      c == ';' || isGap c || [':', '='].isPrefixOf (c :: cs) || atComment (c :: cs)

/-- Whether a default ends here. -/
def atDefaultEnd : List Char → Bool
  | [] => true
  | c :: cs => c == ';' || atComment (c :: cs)

/-! ## Names, settings and defaults -/

/-- The name that a declaration starts with. -/
def fieldName? (cs : List Char) : Option (List Char × List Char) :=
  match mark? ['"'] cs with
  | some cs =>
      let (name, cs) := spanTo '"' cs
      (mark? ['"'] cs).map fun cs => (name, cs)
  | none => token? atNameEnd cs

/-- The line after the settings, if there are any. -/
def skipSettings (cs : List Char) : List Char :=
  match mark? ['{'] cs with
  | some inner => (mark? ['}'] (inner.dropWhile (· != '}'))).getD cs
  | none => cs

/-- The default of a declaration, which is empty if none is given. -/
def initial (cs : List Char) : List Char × List Char :=
  match mark? [':', '='] cs with
  | some cs => spanUntil atDefaultEnd (skip cs)
  | none => ([], cs)

/-! ## The five forms -/

/-- The form `STRUCT`, after which only a comment may follow. -/
def struct? (cs : List Char) : Option (Spec × List Char) := do
  let cs ← word? "STRUCT".toList cs
  if (ending? cs).isSome then some (.struct, cs) else none

/-- The form `"Other";`. -/
def reference? (cs : List Char) : Option (Spec × List Char) := do
  let (target, cs) := spanTo '"' (← mark? ['"'] cs)
  if target.isEmpty then none
  else
    let cs ← mark? [';'] (← mark? ['"'] cs)
    some (.reference (trimmedToken target), cs)

/-- The form `ARRAY[a..b] OF TYPE := default;`. -/
def array? (cs : List Char) : Option (Spec × List Char) := do
  let (range, cs) := spanTo ']' (← mark? ['['] (← word? "ARRAY".toList cs))
  let (element, cs) ← token? atTypeEnd (← word? "OF".toList (← mark? [']'] cs))
  let (value, cs) := initial cs
  let cs ← mark? [';'] cs
  let spec := PlainSpec.array (trimmedToken range) (trimmedToken element) (trimmedToken value)
  some (.plain spec, cs)

/-- The form `STRING[n] := default;`, whose default is passed over. -/
def text? (cs : List Char) : Option (Spec × List Char) := do
  let (length, cs) := spanTo ']' (← mark? ['['] (← word? "STRING".toList cs))
  let cs ← mark? [';'] (initial (← mark? [']'] cs)).2
  some (.plain (.text (trimmedToken length)), cs)

/-- The form `TYPE := default;`. -/
def scalar? (cs : List Char) : Option (Spec × List Char) := do
  let (type, cs) ← token? atTypeEnd cs
  let (value, cs) := initial cs
  let cs ← mark? [';'] cs
  some (.plain (.scalar (trimmedToken type) (trimmedToken value)), cs)

/-- The first of the five forms that fits. -/
def spec? (cs : List Char) : Option (Spec × List Char) :=
  (struct? cs).or <| (reference? cs).or <| (array? cs).or <| (text? cs).or (scalar? cs)

/-- The declaration on a line. -/
def declaration? (cs : List Char) : Option Declaration := do
  let (name, cs) ← fieldName? cs
  let (spec, cs) ← spec? (← mark? [':'] (skipSettings cs))
  let comment ← ending? cs
  return { name := trimmedToken name, spec, comment := String.ofList comment }

/-! ## Lines inside a structure -/

/-- What a line inside a structure is. -/
inductive BodyLine where
  | blank
  /-- A comment and nothing else. -/
  | remark
  /-- The line that closes the structure. -/
  | closing
  | declaration (d : Declaration)
  | malformed
deriving DecidableEq, Repr

/-- What a trimmed line inside a structure is. -/
def BodyLine.ofText (cs : List Char) : BodyLine :=
  if cs.isEmpty then .blank
  else if atComment cs then .remark
  else if isEndStruct cs then .closing
  else match declaration? cs with
    | some d => .declaration d
    | none => .malformed

end PlcTypes.Grammar
