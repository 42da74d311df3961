import PlcTypes.Text.Quoted

/-! # Paths to fields

    A path is the list of names that lead from a root to a field.  Outside
    the library a path is kept as one string, its segments joined by a
    separator; usually that is a dot, which no name holds.  Joining and
    cutting are inverse only for paths whose segments are free of the
    separator, and the path of one empty segment is written like the root.

    A document of any kind keeps a path as its text with dots. -/

namespace PlcTypes

/-- The names from a root to a field. -/
structure FieldPath where
  segments : List String
deriving DecidableEq, Repr

namespace FieldPath

/-- The character that separates the segments unless another is chosen. -/
def dot : Char := '.'

/-- The empty path. -/
def root : FieldPath := ⟨[]⟩

/-- The path of one segment. -/
def single (name : String) : FieldPath := ⟨[name]⟩

/-- The path with a segment added at its end. -/
def nest (p : FieldPath) (name : String) : FieldPath := ⟨p.segments ++ [name]⟩

/-- The path without its first segment; the root stays the root. -/
def popRoot (p : FieldPath) : FieldPath := ⟨p.segments.drop 1⟩

/-- Paths are ordered segment by segment, a path before its extensions. -/
instance : Ord FieldPath := ⟨fun p q => compare p.segments q.segments⟩

/-! ## Paths as text -/

/-- The segments joined by a separator. -/
def render (p : FieldPath) (separator : Char) : String :=
  (String.singleton separator).intercalate p.segments

/-- The path whose segments stand between the separators of a text; the
    empty text gives the root. -/
def parse (text : String) (separator : Char) : FieldPath :=
  if text.isEmpty then root
  else ⟨(text.toList.splitOn separator).map String.ofList⟩

instance : ToString FieldPath := ⟨fun p => p.render dot⟩

/-! ## Paths in documents -/

/-- The path as a document: it is kept as its text with dots. -/
def serialize {Document : Type} (codec : Text.Codec Document) (p : FieldPath) : Document :=
  codec.encode (toString p)

/-- The path that a document keeps. -/
def deserialize? {Document : Type} (codec : Text.Codec Document) (document : Document) :
    Option FieldPath :=
  (codec.decode document).map fun text => parse text dot

/-- The path as a quoted text. -/
def toJson (p : FieldPath) : String :=
  p.serialize Text.Quoted.codec

/-- The path that a quoted text holds. -/
def ofJson? (document : String) : Option FieldPath :=
  deserialize? Text.Quoted.codec document

/-- Nesting adds one segment. -/
@[simp] theorem segments_nest (p : FieldPath) (name : String) :
    (p.nest name).segments = p.segments ++ [name] := rfl

end FieldPath

end PlcTypes
