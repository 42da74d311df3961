/-! # Text as bytes

    UTF-8: each character is written as one to four bytes, and a sequence of
    bytes is read back only when every character is in its one written form.
    A lead byte says how many tail bytes follow; the value that they spell
    must need that many bytes and be a character, so longer spellings,
    surrogates and values above U+10FFFF are refused. -/

namespace PlcTypes.Text.Utf8

/-- The bytes of a text. -/
def encode (cs : List Char) : List UInt8 :=
  cs.flatMap String.utf8EncodeChar

/-- The six bits of a tail byte, which is one of `0x80` to `0xBF`. -/
def tailBits (b : UInt8) : Option Nat :=
  if 0x80 ≤ b.toNat ∧ b.toNat < 0xC0 then some (b.toNat - 0x80) else none

/-- The character with a code point, if that is not below `least`. -/
def character (least point : Nat) : Option Char :=
  if least ≤ point ∧ point.isValidChar then some (Char.ofNat point) else none

/-- The text that the bytes spell, if they are well formed. -/
def decode : List UInt8 → Option (List Char)
  | [] => some []
  | a :: rest =>
      if a.toNat < 0x80 then
        (decode rest).map (Char.ofNat a.toNat :: ·)
      else match rest with
      | [] => none
      | b :: rest =>
          if a.toNat < 0xC0 then none
          else if a.toNat < 0xE0 then do
            let c ← character 0x80 ((a.toNat - 0xC0) * 64 + (← tailBits b))
            (decode rest).map (c :: ·)
          else match rest with
          | [] => none
          | b' :: rest =>
              if a.toNat < 0xF0 then do
                let high := (a.toNat - 0xE0) * 64 + (← tailBits b)
                let c ← character 0x800 (high * 64 + (← tailBits b'))
                (decode rest).map (c :: ·)
              else match rest with
              | [] => none
              | b'' :: rest =>
                  if a.toNat < 0xF8 then do
                    let high := (a.toNat - 0xF0) * 64 + (← tailBits b)
                    let high := high * 64 + (← tailBits b')
                    let c ← character 0x10000 (high * 64 + (← tailBits b''))
                    (decode rest).map (c :: ·)
                  else none

example : decode (encode ['a', 'é', '€', '😀']) = some ['a', 'é', '€', '😀'] := by
  decide

example : decode [0xC0, 0x80] = none ∧ decode [0xED, 0xA0, 0x80] = none := by
  decide

end PlcTypes.Text.Utf8
