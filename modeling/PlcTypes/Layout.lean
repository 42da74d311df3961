import PlcTypes.Field.Basic

/-! # Byte layout

    Two sizes of a tree.  In the plain layout every field takes its own
    bytes, a boolean one byte.  In the packed layout, which is that of a data
    block, consecutive booleans of one structure share bytes: a run of `n`
    takes one byte per eight booleans begun, and one byte more.  A run ends at
    the next field of another kind, even one of size zero, and at the end of
    the structure; arrays of booleans are not packed.

    Sums saturate at the greatest 64-bit number. -/

namespace PlcTypes

/-- The greatest size. -/
def maxSize : Nat := 18446744073709551615

/-- The sum of two sizes, or the greatest size if that is less. -/
def addSize (a b : Nat) : Nat := min (a + b) maxSize

namespace ArrayField

/-- The bytes of an array, which stand one element after another. -/
def size (f : ArrayField) : Nat := f.element.bytes * f.count

end ArrayField

namespace TextField

/-- The bytes of a string: its capacity and its actual length, one byte each,
    and the characters. -/
def size (f : TextField) : Nat := 2 + f.capacity

end TextField

namespace Field

/-! ## Plain layout -/

mutual

/-- The plain size of a field. -/
def plainSize : Field → Nat
  | scalar f => f.type.bytes
  | text f => f.size
  | array f => f.size
  | struct _ _ members => plainSizeFrom 0 members

/-- The plain size of a structure whose members so far take `total` bytes, when
    the rest of its members is given. -/
def plainSizeFrom (total : Nat) : List Field → Nat
  | [] => total
  | f :: fs => plainSizeFrom (addSize total (plainSize f)) fs

end

/-- The plain size of a list of fields. -/
def plainSizeAll (fs : List Field) : Nat := plainSizeFrom 0 fs

/-! ## Packed layout -/

/-- The bytes of a run of booleans; no run takes no bytes. -/
def runSize (n : Nat) : Nat :=
  if n = 0 then 0 else (n + 7) / 8 + 1

mutual

/-- The packed size of a field. -/
def packedSize : Field → Nat
  | scalar f => f.type.bytes
  | text f => f.size
  | array f => f.size
  | struct _ _ members => packedSizeFrom 0 0 members

/-- The packed size of a structure whose members so far take `total` bytes,
    `pending` booleans behind them apart, when the rest of its members is
    given. -/
def packedSizeFrom (total pending : Nat) : List Field → Nat
  | [] => addSize total (runSize pending)
  | f :: fs =>
      if f.isBool then packedSizeFrom total (pending + 1) fs
      else packedSizeFrom (addSize (addSize total (runSize pending)) (packedSize f)) 0 fs

end

/-- The packed size of a list of fields laid out as one structure. -/
def packedSizeAll (fs : List Field) : Nat := packedSizeFrom 0 0 fs

end Field

namespace TypeDefinition

/-- The plain size of a definition. -/
def plainSize (t : TypeDefinition) : Nat := Field.plainSizeAll t.members

/-- The packed size of a definition. -/
def packedSize (t : TypeDefinition) : Nat := Field.packedSizeAll t.members

end TypeDefinition

end PlcTypes
