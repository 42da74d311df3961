import PlcTypes.Decimal
import PlcTypes.ScalarType
import PlcTypes.Text.Lines

/-! # Errors

    The causes for which a definition cannot be built or read, and the one
    wording of each.  An error of a single declaration is made without a
    line; the reader that knows the line places it with `Error.at`. -/

namespace PlcTypes

/-- The bytes that a string or an array may take at most. -/
def maxFieldBytes : Nat := 16777216

/-- The two lines that must stand between the heading and the members. -/
inductive Landmark where
  | version
  | struct
deriving DecidableEq, Repr

/-- The word that a landmark starts with. -/
def Landmark.word : Landmark → String
  | .version => "VERSION"
  | .struct => "STRUCT"

/-- What is wrong with the head of a definition. -/
inductive HeaderFault where
  /-- There is no line but blank ones. -/
  | emptySource
  /-- The first line names no type. -/
  | notType (line : String)
  /-- The source ends where a landmark is due. -/
  | missing (owner : String) (due : Landmark)
  /-- Another line stands where a landmark is due. -/
  | expected (line : Nat) (due : Landmark) (found : String)
  /-- The version holds a line break. -/
  | versionBreaks (owner : String)
deriving DecidableEq, Repr

/-- What is wrong with a declaration, its name, type and range apart. -/
inductive FieldFault where
  /-- The line, which is kept without the blanks around it, is no
      declaration. -/
  | grammar (line : String)
  /-- The default would end its own declaration. -/
  | defaultText (text : String)
  /-- A scalar or an array is declared with a string type. -/
  | lengthNeeded (field : String) (type : ScalarType)
deriving DecidableEq, Repr

/-- What is wrong with the range of an array or the length of a string. -/
inductive RangeFault where
  /-- The text of the range is blank. -/
  | empty
  /-- The text of the range has no two dots. -/
  | noDots (text : String)
  | startNotInteger (text : String)
  | endNotInteger (text : String)
  | lengthNotInteger (field text : String)
  /-- An index or the number of elements is no 64-bit number. -/
  | outOfRange (field : String)
  /-- An end of the range is not given. -/
  | unbounded (field : String)
  | reversed (field : String)
  | tooManyElements (field : String) (count : Nat) (type : ScalarType)
  | tooLong (field : String) (length : Nat)
deriving DecidableEq, Repr

/-- The causes for which a definition cannot be built or read. -/
inductive Error where
  /-- A line cannot be had from its file. -/
  | unreadable (fault : Text.ReadFault)
  | notFound (path : String)
  | malformedHeader (fault : HeaderFault)
  /-- A declaration is wrong, on a line if it was read from one. -/
  | malformedField (line : Option Nat) (fault : FieldFault)
  | unterminatedStruct (owner : String)
  /-- A range is wrong, on a line if it was read from one. -/
  | invalidRange (line : Option Nat) (fault : RangeFault)
  | invalidName (name : String)
  | unknownType (name : String)
  /-- A type refers back to one of the types that it is read for. -/
  | cyclicReference (chain : List String) (name : String)
deriving DecidableEq, Repr

/-- The error of a declaration that was read from a line. -/
def Error.at (line : Nat) : Error → Error
  | .malformedField _ fault => .malformedField (some line) fault
  | .invalidRange _ fault => .invalidRange (some line) fault
  | e => e

end PlcTypes

/-! ## Wording -/

namespace PlcTypes.Text

/-- The wording of a read fault. -/
def ReadFault.message : ReadFault → String
  | .invalidText => "stream did not contain valid UTF-8"
  | .isDirectory => "Is a directory (os error 21)"

end PlcTypes.Text

namespace PlcTypes

/-- The wording of a header fault. -/
def HeaderFault.message : HeaderFault → String
  | .emptySource => "file is not a valid UDT type (empty)"
  | .notType line => s!"file is not a valid UDT type: '{line}'"
  | .missing owner due => s!"'{owner}': missing {due.word}"
  | .expected line due found =>
      s!"line {Decimal.ofNat line}: expected {due.word}, found '{found}'"
  | .versionBreaks owner => s!"'{owner}': version must fit on one line"

/-- The wording of a field fault.  A line that is no declaration is quoted; at
    which character it stops being one is not said. -/
def FieldFault.message : FieldFault → String
  | .grammar line => s!"Parse error: expected NAME : TYPE;, found '{line}'"
  | .defaultText text =>
      s!"default '{text}' cannot contain ';', '//' or line breaks"
  | .lengthNeeded field type =>
      s!"'{field}': cannot create a {type.name} field without a length"

/-- The wording of a range fault. -/
def RangeFault.message : RangeFault → String
  | .empty => "range cannot be empty"
  | .noDots text => s!"'{text}' must be in format 'start..end'"
  | .startNotInteger text => s!"start of '{text}' is not a valid integer"
  | .endNotInteger text => s!"end of '{text}' is not a valid integer"
  | .lengthNotInteger field text =>
      s!"'{field}': string length '{text}' is not a valid integer"
  | .outOfRange field => s!"'{field}': bounds out of range"
  | .unbounded field => s!"'{field}': cannot index from end with unknown length"
  | .reversed field => s!"'{field}': range ends before it starts"
  | .tooManyElements field count type =>
      s!"'{field}': {Decimal.ofNat count} elements of {type.name} exceed "
        ++ s!"{Decimal.ofNat maxFieldBytes} bytes"
  | .tooLong field length =>
      s!"'{field}': string length {Decimal.ofNat length} exceeds "
        ++ s!"{Decimal.ofNat maxFieldBytes} bytes"

/-- The wording of an error. -/
def Error.message : Error → String
  | .unreadable fault => s!"IO: {fault.message}"
  | .notFound path => s!"Could not find {path}"
  | .malformedHeader fault => s!"Malformed header: {fault.message}"
  | .malformedField line fault =>
      s!"Line {Decimal.ofNat (line.getD 0)}: {fault.message}"
  | .unterminatedStruct owner =>
      s!"Struct never ended: '{owner}' has no END_STRUCT;"
  | .invalidRange none fault => s!"Invalid range: {fault.message}"
  | .invalidRange (some line) fault =>
      s!"Invalid range: line {Decimal.ofNat line}: {fault.message}"
  | .invalidName name =>
      s!"'{name}': names must be non-empty and cannot contain '.', '\"' or line breaks"
  | .unknownType name => s!"UDT type {name} is not implemented"
  | .cyclicReference chain name =>
      let route := " -> ".intercalate (chain ++ [name])
      s!"Cyclic reference: {route}"

end PlcTypes
