import PlcTypes.Field.Basic
import PlcTypes.Name

/-! # Making fields

    Every field of a tree is made by one of the functions here, which trim
    and check its name, refuse the string types where a length is needed,
    bound the size of strings and arrays, and bring comments and defaults to
    their stored form.  None of them fails for another reason than those that
    it names. -/

namespace PlcTypes

/-- The scalar type with a name. -/
def scalarTypeOf (name : String) : Except Error ScalarType :=
  match ScalarType.ofName? name with
  | some type => .ok type
  | none => .error (.unknownType (Text.trimmed name))

/-- A string type cannot stand where a length is needed. -/
def requireSized (type : ScalarType) (field : String) : Except Error Unit :=
  if type.needsLength then .error (.malformedField none (.lengthNeeded field type))
  else .ok ()

/-! ## Scalars and strings -/

namespace ScalarField

/-- The scalar field with a name and a type, without comment or default. -/
def create (name : String) (type : ScalarType) : Except Error ScalarField := do
  let name ← nameOf name
  requireSized type name
  return { name, comment := "", type, initial := none }

/-- The field with another comment. -/
def withComment (f : ScalarField) (comment : String) : ScalarField :=
  { f with comment := oneLine comment }

/-- The field with another default; a blank one is no default. -/
def withDefault (f : ScalarField) (value : String) : Except Error ScalarField := do
  return { f with initial := ← defaultOf value }

end ScalarField

namespace TextField

/-- The string field with a name and a capacity.  Its two bytes of
    administration count towards the greatest size. -/
def create (name : String) (capacity : Nat) : Except Error TextField := do
  let name ← nameOf name
  if capacity + 2 > maxFieldBytes then
    throw (.invalidRange none (.tooLong name capacity))
  return { name, comment := "", capacity }

/-- The field with another comment. -/
def withComment (f : TextField) (comment : String) : TextField :=
  { f with comment := oneLine comment }

end TextField

/-! ## Arrays -/

/-- One end of a range of indices. -/
inductive Bound where
  | included (index : Int)
  | excluded (index : Int)
  | unbounded
deriving DecidableEq, Repr

/-- Indices and numbers of elements are signed 64-bit numbers. -/
def isIndex (n : Int) : Bool :=
  -9223372036854775808 ≤ n && n ≤ 9223372036854775807

/-- An index, if it is a 64-bit number. -/
def checkIndex (field : String) (n : Int) : Except Error Int :=
  if isIndex n then .ok n else .error (.invalidRange none (.outOfRange field))

/-- The first index of a range that starts at a bound. -/
def Bound.first (field : String) : Bound → Except Error Int
  | included index => checkIndex field index
  | excluded index => checkIndex field (index + 1)
  | unbounded => .error (.invalidRange none (.unbounded field))

/-- The index after the last of a range that ends at a bound. -/
def Bound.afterLast (field : String) : Bound → Except Error Int
  | included index => checkIndex field (index + 1)
  | excluded index => checkIndex field index
  | unbounded => .error (.invalidRange none (.unbounded field))

namespace ArrayField

/-- The array with a name, a type of element and the two ends of its range.
    Both ends must be given, in order, and the elements must fit. -/
def create (name : String) (element : ScalarType) (low high : Bound) :
    Except Error ArrayField := do
  let name ← nameOf name
  requireSized element name
  let start ← low.first name
  let stop ← high.afterLast name
  let length ← checkIndex name (stop - start)
  if length < 0 then
    throw (.invalidRange none (.reversed name))
  if length.toNat * element.bytes > maxFieldBytes then
    throw (.invalidRange none (.tooManyElements name length.toNat element))
  return { name, comment := "", element, start, stop, initial := none }

/-- The array with another comment. -/
def withComment (f : ArrayField) (comment : String) : ArrayField :=
  { f with comment := oneLine comment }

/-- The array with another default, which all its elements share. -/
def withDefault (f : ArrayField) (value : String) : Except Error ArrayField := do
  return { f with initial := ← defaultOf value }

/-- The elements of an array: scalars named by their indices, with the type
    and the default of the array and without a comment. -/
def elements (f : ArrayField) : List ScalarField :=
  f.indices.map fun index =>
    { name := Decimal.ofInt index, comment := "", type := f.element, initial := f.initial }

end ArrayField

/-! ## Structures and definitions -/

namespace Field

/-- The structure with a name and members. -/
def createStruct (name : String) (members : List Field) : Except Error Field := do
  return .struct (← nameOf name) "" members

/-- The field with another comment. -/
def withComment (f : Field) (comment : String) : Field :=
  match f with
  | scalar f => scalar (f.withComment comment)
  | text f => text (f.withComment comment)
  | array f => array (f.withComment comment)
  | struct name _ members => struct name (oneLine comment) members

end Field

namespace TypeDefinition

/-- The definition with a name, a version on one line, and members. -/
def create (name version : String) (members : List Field) :
    Except Error TypeDefinition := do
  let name ← nameOf name
  if version.toList.any Text.isLineBreak then
    throw (.malformedHeader (.versionBreaks name))
  return { name, version := String.ofList (versionOf version.toList), comment := "", members }

/-- The definition with another comment. -/
def withComment (t : TypeDefinition) (comment : String) : TypeDefinition :=
  { t with comment := oneLine comment }

end TypeDefinition

end PlcTypes
