import PlcTypes.Leaf

/-! # Columns

    Each leaf of a definition becomes one column of an SQL Server table: its
    name or path in brackets, then the type of the column. -/

namespace PlcTypes

/-- The column type of a scalar. -/
def ScalarType.columnType : ScalarType → String
  | .bool => "BIT"
  | .byte => "BINARY(1)"
  | .word => "BINARY(2)"
  | .dword => "BINARY(4)"
  | .lword => "BINARY(8)"
  | .sint | .usint => "TINYINT"
  | .int => "SMALLINT"
  | .dint | .uint | .time => "INT"
  | .lint | .udint => "BIGINT"
  | .ulint => "DECIMAL(20, 0)"
  | .real => "FLOAT(24)"
  | .lreal => "FLOAT(53)"
  | .date => "DATE"
  | .timeOfDay => "TIME"
  | .dateAndTime => "DATETIME2"
  | .char | .wchar => "NCHAR(1)"
  | .string | .wstring => "NVARCHAR(254)"

/-- The column type of a leaf; a string keeps its capacity. -/
def Leaf.columnType : Leaf → String
  | .scalar f => f.type.columnType
  | .text f => "nvarchar(" ++ Decimal.ofNat f.capacity ++ ")"

/-- A column: its name in brackets, then its type. -/
def columnText (name type : String) : String :=
  "[" ++ name ++ "] " ++ type

/-- The column of a leaf under its own name. -/
def Leaf.column (leaf : Leaf) : String :=
  columnText leaf.name leaf.columnType

/-- The columns of a definition in the order of its leaves, each under the
    path of its leaf. -/
def TypeDefinition.columns (t : TypeDefinition) (separator : Char) : List String :=
  t.flattenRelative.map fun (path, leaf) =>
    columnText (path.render separator) leaf.columnType

end PlcTypes
