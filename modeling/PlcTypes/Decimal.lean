/-! # Decimal numbers

    Numbers are written with the fewest decimal digits, a minus sign before
    a negative one.  They are read more freely: leading zeros and one sign
    are allowed, but nothing else; a number without digits is none. -/

namespace PlcTypes.Decimal

/-! ## Writing -/

/-- The decimal text of a natural number. -/
def ofNat (n : Nat) : String :=
  String.ofList (Nat.toDigits 10 n)

/-- The decimal text of an integer. -/
def ofInt (n : Int) : String :=
  if n < 0 then "-" ++ ofNat n.natAbs else ofNat n.natAbs

/-! ## Reading -/

/-- The number that a sequence of at least one digit spells. -/
def digits? (cs : List Char) : Option Nat :=
  if cs.isEmpty || !cs.all Char.isDigit then none
  else some (Nat.ofDigitChars 10 cs 0)

/-- The natural number that a text spells, after an optional plus sign. -/
def nat? : List Char → Option Nat
  | '+' :: cs => digits? cs
  | cs => digits? cs

/-- The integer that a text spells, after an optional sign. -/
def int? : List Char → Option Int
  | '-' :: cs => (digits? cs).map fun n => -(n : Int)
  | cs => (nat? cs).map Int.ofNat

example : int? "-007".toList = some (-7) ∧ int? "+".toList = none ∧
    nat? "-0".toList = none := by decide

end PlcTypes.Decimal
