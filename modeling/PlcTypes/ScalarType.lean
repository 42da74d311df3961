import PlcTypes.Text.Basic

/-! # Scalar types

    The elementary types that a field can be declared with.  Each has a
    canonical upper-case name and a width in bits; names are looked up
    without regard to the case of ASCII letters or to surrounding blanks.

    `STRING` and `WSTRING` are registered too, but only as markers: a string
    field carries a length of its own and is no scalar. -/

namespace PlcTypes

/-- A registered scalar type. -/
inductive ScalarType where
  | bool
  | byte
  | word
  | dword
  | lword
  | sint
  | int
  | dint
  | lint
  | usint
  | uint
  | udint
  | ulint
  | real
  | lreal
  | time
  | date
  | timeOfDay
  | dateAndTime
  | char
  | wchar
  | string
  | wstring
deriving DecidableEq, Repr

namespace ScalarType

/-- The registered types in the order of the registry. -/
def all : List ScalarType :=
  [bool, byte, word, dword, lword, sint, int, dint, lint, usint, uint, udint,
   ulint, real, lreal, time, date, timeOfDay, dateAndTime, char, wchar, string,
   wstring]

/-- The canonical name. -/
def name : ScalarType → String
  | bool => "BOOL"
  | byte => "BYTE"
  | word => "WORD"
  | dword => "DWORD"
  | lword => "LWORD"
  | sint => "SINT"
  | int => "INT"
  | dint => "DINT"
  | lint => "LINT"
  | usint => "USINT"
  | uint => "UINT"
  | udint => "UDINT"
  | ulint => "ULINT"
  | real => "REAL"
  | lreal => "LREAL"
  | time => "TIME"
  | date => "DATE"
  | timeOfDay => "TIME_OF_DAY"
  | dateAndTime => "DATE_AND_TIME"
  | char => "CHAR"
  | wchar => "WCHAR"
  | string => "STRING"
  | wstring => "WSTRING"

/-- The width in bits. -/
def bits : ScalarType → Nat
  | bool => 1
  | byte | sint | usint | char | string => 8
  | word | int | uint | date | wchar | wstring => 16
  | dword | dint | udint | real | time | timeOfDay => 32
  | lword | lint | ulint | lreal | dateAndTime => 64

/-- The width in bytes, a part of a byte counting as a whole one. -/
def bytes (t : ScalarType) : Nat :=
  (t.bits + 7) / 8

/-- Whether a field of this type is a single bit. -/
def isBool : ScalarType → Bool
  | bool => true
  | _ => false

/-- Whether the type only marks a string, which needs a declared length. -/
def needsLength : ScalarType → Bool
  | string | wstring => true
  | _ => false

/-- The type with a name, in any case of its ASCII letters and between any
    blanks. -/
def ofName? (name : String) : Option ScalarType :=
  all.find? fun t => Text.sameName t.name (Text.trimmed name)

/-- Every type is found by its canonical name. -/
theorem ofName?_name (t : ScalarType) : ofName? t.name = some t := by
  cases t <;> decide

/-- Every type takes at least one byte. -/
theorem bytes_pos (t : ScalarType) : 0 < t.bytes := by
  cases t <;> decide

end ScalarType

end PlcTypes
