import PlcTypes.ScalarType

/-! # The field tree

    A definition is an ordered tree of fields.  A field is a scalar, a string
    of fixed capacity, an array of scalars over a range of indices, or a
    structure of further fields.  Order matters everywhere.

    This module holds the tree alone.  What a well-made tree may hold is
    decided where trees are made, in `PlcTypes.Field.Build`. -/

namespace PlcTypes

/-- A field of a scalar type, perhaps with a default value. -/
structure ScalarField where
  name : String
  comment : String
  type : ScalarType
  initial : Option String
deriving DecidableEq, Repr

/-- A string field, with room for `capacity` characters of one byte. -/
structure TextField where
  name : String
  comment : String
  capacity : Nat
deriving DecidableEq, Repr

/-- An array of scalars with the indices from `start` up to, but not
    including, `stop`. -/
structure ArrayField where
  name : String
  comment : String
  element : ScalarType
  start : Int
  stop : Int
  initial : Option String
deriving DecidableEq, Repr

/-- A node of the tree. -/
inductive Field where
  | scalar (field : ScalarField)
  | text (field : TextField)
  | array (field : ArrayField)
  | struct (name comment : String) (members : List Field)
deriving Repr

/-- A whole definition: a named and versioned list of fields. -/
structure TypeDefinition where
  name : String
  version : String
  comment : String
  members : List Field
deriving Repr

/-! ## Parts of a field -/

namespace Field

/-- The name of a field. -/
def name : Field → String
  | scalar f => f.name
  | text f => f.name
  | array f => f.name
  | struct name _ _ => name

/-- The comment of a field. -/
def comment : Field → String
  | scalar f => f.comment
  | text f => f.comment
  | array f => f.comment
  | struct _ comment _ => comment

/-- The fields directly inside a field. -/
def members : Field → List Field
  | struct _ _ members => members
  | _ => []

/-- Whether a field fits a single cell. -/
def isAtomic : Field → Bool
  | scalar _ | text _ => true
  | array _ | struct _ _ _ => false

/-- Whether a field is a single bit, which is what the packed layout packs. -/
def isBool : Field → Bool
  | scalar f => f.type.isBool
  | _ => false

end Field

/-- The number of elements of an array. -/
def ArrayField.count (a : ArrayField) : Nat :=
  (a.stop - a.start).toNat

/-- The indices of an array in order: the numbers from its start up to, but not
    including, its stop. -/
def ArrayField.indices (a : ArrayField) : List Int :=
  (List.range (a.stop - a.start).toNat).map fun (k : Nat) => a.start + k

/-- There are as many indices as elements. -/
@[simp] theorem ArrayField.length_indices (a : ArrayField) : a.indices.length = a.count := by
  rw [indices, List.length_map, List.length_range, count]

/-- The structure that has the name, comment and members of a definition. -/
def TypeDefinition.toStruct (t : TypeDefinition) : Field :=
  .struct t.name t.comment t.members

/-- The structure that stands for a definition where a field refers to it: it
    has the field's name, and the field's comment unless that is empty. -/
def TypeDefinition.graft (t : TypeDefinition) (name comment : String) : Field :=
  .struct name (if comment.isEmpty then t.comment else comment) t.members

/-! ## Equality of trees -/

namespace Field

mutual

/-- Equality of two fields is decided part by part. -/
def decideEq : (a b : Field) → Decidable (a = b)
  | .scalar f, .scalar g => decidable_of_iff (f = g) (by simp)
  | .text f, .text g => decidable_of_iff (f = g) (by simp)
  | .array f, .array g => decidable_of_iff (f = g) (by simp)
  | .struct n c ms, .struct n' c' ms' =>
      match decideEqAll ms ms' with
      | isTrue h => decidable_of_iff (n = n' ∧ c = c') (by simp [h])
      | isFalse h => isFalse (by simp [h])
  | .scalar _, .text _ | .scalar _, .array _ | .scalar _, .struct .. => isFalse nofun
  | .text _, .scalar _ | .text _, .array _ | .text _, .struct .. => isFalse nofun
  | .array _, .scalar _ | .array _, .text _ | .array _, .struct .. => isFalse nofun
  | .struct .., .scalar _ | .struct .., .text _ | .struct .., .array _ => isFalse nofun

/-- Equality of two lists of fields is decided field by field. -/
def decideEqAll : (as bs : List Field) → Decidable (as = bs)
  | [], [] => isTrue rfl
  | a :: as, b :: bs =>
      match decideEq a b, decideEqAll as bs with
      | isTrue h, isTrue h' => isTrue (by rw [h, h'])
      | isFalse h, _ => isFalse (by simp [h])
      | _, isFalse h => isFalse (by simp [h])
  | [], _ :: _ | _ :: _, [] => isFalse nofun

end

instance : DecidableEq Field := decideEq

end Field

deriving instance DecidableEq for TypeDefinition

end PlcTypes
