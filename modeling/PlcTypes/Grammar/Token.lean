import PlcTypes.Text.Basic

/-! # Tokens of a line

    The readers from which the readers of whole lines are put together.  Each
    takes what is left of a line and first skips spaces and tabs, the only
    characters that are free between tokens; other blanks belong to the
    tokens.  A reader that can fail gives none. -/

namespace PlcTypes.Grammar

/-- Whether a character is free between tokens. -/
def isGap (c : Char) : Bool :=
  c == ' ' || c == '\t'

/-- The line without its leading spaces and tabs. -/
def skip (cs : List Char) : List Char :=
  cs.dropWhile isGap

/-- What follows a mark. -/
def mark? (mark cs : List Char) : Option (List Char) :=
  let cs := skip cs
  if mark.isPrefixOf cs then some (cs.drop mark.length) else none

/-- What follows a word, whatever the case of its letters.  The word is given
    in upper case. -/
def word? (word cs : List Char) : Option (List Char) :=
  let cs := skip cs
  if Text.foldCase (cs.take word.length) = word then some (cs.drop word.length) else none

/-- The characters before the next `stop`, and the rest of the line. -/
def spanTo (stop : Char) (cs : List Char) : List Char × List Char :=
  (skip cs).span (· != stop)

/-- The longest start of a line such that `stop` holds at none of its
    positions, and the rest of the line. -/
def spanUntil (stop : List Char → Bool) : List Char → List Char × List Char
  | [] => ([], [])
  | c :: cs =>
      if stop (c :: cs) then ([], c :: cs)
      else
        let (token, rest) := spanUntil stop cs
        (c :: token, rest)

/-- A token that reaches up to where `stop` holds and is not empty. -/
def token? (stop : List Char → Bool) (cs : List Char) :
    Option (List Char × List Char) :=
  let (token, rest) := spanUntil stop (skip cs)
  if token.isEmpty then none else some (token, rest)

/-- The comment that ends a line, which is empty if nothing is left. -/
def ending? (cs : List Char) : Option (List Char) :=
  match skip cs with
  | [] => some []
  | '/' :: '/' :: text => some (Text.trim text)
  | _ => none

end PlcTypes.Grammar
