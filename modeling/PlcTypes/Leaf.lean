import PlcTypes.Field.Build
import PlcTypes.FieldPath

/-! # Leaves

    A leaf is a field that fits a single cell: a scalar or a string.  The
    leaves of a tree come out depth first in the order of declaration, on
    which the order of generated columns rests.  Each element of an array is
    a scalar leaf named by its index.

    `flatten` gives each leaf with the path that leads to it, `leaves` gives
    the leaves alone. -/

namespace PlcTypes

/-- A field that fits a single cell. -/
inductive Leaf where
  | scalar (field : ScalarField)
  | text (field : TextField)
deriving DecidableEq, Repr

namespace Leaf

/-- The name of a leaf. -/
def name : Leaf → String
  | scalar f => f.name
  | text f => f.name

/-- The comment of a leaf. -/
def comment : Leaf → String
  | scalar f => f.comment
  | text f => f.comment

/-- The field that a leaf is. -/
def toField : Leaf → Field
  | scalar f => .scalar f
  | text f => .text f

end Leaf

namespace Field

mutual

/-- The leaves of a field with their paths, which start with `base` and the
    name of the field. -/
def flatten (base : FieldPath) : Field → List (FieldPath × Leaf)
  | scalar f => [(base.nest f.name, .scalar f)]
  | text f => [(base.nest f.name, .text f)]
  | array f => f.elements.map fun e => ((base.nest f.name).nest e.name, .scalar e)
  | struct name _ members => flattenAll (base.nest name) members

/-- The leaves of a list of fields with their paths, which start with
    `base`. -/
def flattenAll (base : FieldPath) : List Field → List (FieldPath × Leaf)
  | [] => []
  | f :: fs => flatten base f ++ flattenAll base fs

end

/-- The leaves inside a structure with their paths from its name on. -/
def flattenMembers (f : Field) : List (FieldPath × Leaf) :=
  flattenAll (.single f.name) f.members

mutual

/-- The leaves of a field. -/
def leaves : Field → List Leaf
  | scalar f => [.scalar f]
  | text f => [.text f]
  | array f => f.elements.map .scalar
  | struct _ _ members => leavesAll members

/-- The leaves of a list of fields. -/
def leavesAll : List Field → List Leaf
  | [] => []
  | f :: fs => leaves f ++ leavesAll fs

end

end Field

namespace TypeDefinition

/-- The leaves of a definition with their paths from its name on. -/
def flatten (t : TypeDefinition) : List (FieldPath × Leaf) :=
  Field.flattenAll (.single t.name) t.members

/-- The leaves of a definition with their paths inside it. -/
def flattenRelative (t : TypeDefinition) : List (FieldPath × Leaf) :=
  Field.flattenAll .root t.members

/-- The leaves of a definition. -/
def leaves (t : TypeDefinition) : List Leaf :=
  Field.leavesAll t.members

end TypeDefinition

end PlcTypes
