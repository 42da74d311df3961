import PlcTypes.Field.Build
import PlcTypes.Grammar.Declaration

/-! # Fields from declarations

    The texts of a declaration are examined here: ranges, lengths and names
    of types.  What is wrong with them is found in the order in which a
    declaration is read, the range of an array before its type. -/

namespace PlcTypes

/-- The index that a text spells. -/
def indexOf? (cs : List Char) : Option Int :=
  (Decimal.int? (Text.trim cs)).filter isIndex

/-- The first and the last index of a range, which stand before and after two
    dots. -/
def rangeOf (range : String) : Except Error (Int × Int) :=
  let cs := Text.trim range.toList
  let text := String.ofList cs
  if cs.isEmpty then .error (.invalidRange none .empty)
  else match Text.cutAt ['.', '.'] cs with
    | none => .error (.invalidRange none (.noDots text))
    | some (low, high) =>
        match indexOf? low, indexOf? high with
        | none, _ => .error (.invalidRange none (.startNotInteger text))
        | _, none => .error (.invalidRange none (.endNotInteger text))
        | some first, some last => .ok (first, last)

/-- The length of a string, which is an unsigned 64-bit number. -/
def lengthOf (field length : String) : Except Error Nat :=
  let cs := Text.trim length.toList
  match (Decimal.nat? cs).filter (· < 18446744073709551616) with
  | some n => .ok n
  | none => .error (.invalidRange none (.lengthNotInteger field (String.ofList cs)))

/-- The field without members that a declaration describes. -/
def Grammar.PlainSpec.field (name comment : String) : PlainSpec → Except Error Field
  | .array range element initial => do
      let (first, last) ← rangeOf range
      let element ← scalarTypeOf element
      let f ← ArrayField.create name element (.included first) (.included last)
      return .array (← (f.withComment comment).withDefault initial)
  | .text length => do
      let f ← TextField.create name (← lengthOf name length)
      return .text (f.withComment comment)
  | .scalar type initial => do
      let f ← ScalarField.create name (← scalarTypeOf type)
      return .scalar (← (f.withComment comment).withDefault initial)

end PlcTypes
