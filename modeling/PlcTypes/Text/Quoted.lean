import PlcTypes.Text.Basic

/-! # Quoted text

    A text as one JSON string: between double quotes, with a backslash before
    a quote or a backslash, and control characters below U+0020 escaped.
    `encode` writes the shortest form; `decode` reads every form, that is
    also the escapes nobody needs and pairs of UTF-16 surrogates, and refuses
    raw control characters, half pairs and anything after the string. -/

namespace PlcTypes.Text.Quoted

/-! ## Writing -/

/-- The characters that have an escape of one letter, with that letter. -/
def letterEscapes : List (Char × Char) :=
  [('"', '"'), ('\\', '\\'), ('\x08', 'b'), ('\x09', 't'), ('\x0a', 'n'),
   ('\x0c', 'f'), ('\x0d', 'r')]

/-- A character as it stands between the quotes. -/
def escape (c : Char) : List Char :=
  match letterEscapes.lookup c with
  | some letter => ['\\', letter]
  | none =>
      if c.toNat < 0x20 then
        ['\\', 'u', '0', '0', (c.toNat / 16).digitChar, (c.toNat % 16).digitChar]
      else [c]

/-- The quoted form of a text. -/
def encode (cs : List Char) : List Char :=
  '"' :: cs.flatMap escape ++ ['"']

/-! ## Reading -/

/-- The characters that stand for another one after a backslash. -/
def letterMeanings : List (Char × Char) :=
  [('"', '"'), ('\\', '\\'), ('/', '/'), ('b', '\x08'), ('t', '\x09'),
   ('n', '\x0a'), ('f', '\x0c'), ('r', '\x0d')]

/-- The value of a hexadecimal digit. -/
def hexValue (c : Char) : Option Nat :=
  if '0' ≤ c ∧ c ≤ '9' then some (c.toNat - '0'.toNat)
  else if 'a' ≤ c ∧ c ≤ 'f' then some (c.toNat - 'a'.toNat + 10)
  else if 'A' ≤ c ∧ c ≤ 'F' then some (c.toNat - 'A'.toNat + 10)
  else none

/-- The value of four hexadecimal digits. -/
def hexUnit (a b c d : Char) : Option Nat := do
  return (((← hexValue a) * 16 + (← hexValue b)) * 16 + (← hexValue c)) * 16
    + (← hexValue d)

/-- A part of a quoted text: a character, or a UTF-16 unit given by its
    number. -/
inductive Piece where
  | char (c : Char)
  | unit (n : Nat)
deriving DecidableEq, Repr

/-- The pieces up to the closing quote, and what follows the quote. -/
def pieces : List Char → Option (List Piece × List Char)
  | [] => none
  | c :: rest =>
      if c = '"' then some ([], rest)
      else if c.toNat < 0x20 then none
      else if c ≠ '\\' then
        (pieces rest).map fun (ps, after) => (.char c :: ps, after)
      else match rest with
      | [] => none
      | letter :: rest =>
          if letter = 'u' then match rest with
            | a :: b :: c :: d :: rest => do
                let n ← hexUnit a b c d
                (pieces rest).map fun (ps, after) => (.unit n :: ps, after)
            | _ => none
          else do
            let meaning ← letterMeanings.lookup letter
            (pieces rest).map fun (ps, after) => (.char meaning :: ps, after)

/-- The text that pieces spell.  A unit is a character by itself unless it
    is a surrogate; a high surrogate and the low one after it are one
    character; any other surrogate spells nothing. -/
def spell : List Piece → Option (List Char)
  | [] => some []
  | .char c :: ps => (spell ps).map (c :: ·)
  | .unit n :: ps =>
      if n.isValidChar then (spell ps).map (Char.ofNat n :: ·)
      else if n < 0xDC00 then match ps with
        | .unit low :: ps =>
            if 0xDC00 ≤ low ∧ low < 0xE000 then
              let point := 0x10000 + (n - 0xD800) * 0x400 + (low - 0xDC00)
              (spell ps).map (Char.ofNat point :: ·)
            else none
        | _ => none
      else none

/-- The white space that may stand around a quoted text. -/
def isSpace (c : Char) : Bool :=
  c == ' ' || c == '\t' || c == '\n' || c == '\r'

/-- The text of a document that holds one quoted text and nothing else. -/
def decode (cs : List Char) : Option (List Char) :=
  match cs.dropWhile isSpace with
  | '"' :: body => do
      let (ps, after) ← pieces body
      if after.all isSpace then spell ps else none
  | _ => none

/-- Strings are kept as quoted texts. -/
def codec : Codec String where
  encode text := String.ofList (encode text.toList)
  decode document := (decode document.toList).map String.ofList

example : decode (encode "a\"\\\x01\n€😀".toList) = some "a\"\\\x01\n€😀".toList := by
  decide +kernel

example : decode "\"\\ud83d\\ude00\"".toList = some ['😀'] ∧
    decode "\"\\ud83d\"".toList = none := by decide +kernel

end PlcTypes.Text.Quoted
