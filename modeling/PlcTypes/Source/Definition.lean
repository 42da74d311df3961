import PlcTypes.Source.Stage

/-! # Reading a definition

    A definition starts with its heading, the first line that is not blank.
    Byte order marks at the very start of that line are dropped before it is
    trimmed.  The heading names the definition; when a definition of that
    name, in any case of ASCII letters, is being read already, it refers back
    to itself and is refused. -/

namespace PlcTypes

/-- The heading of a source with what follows it. -/
structure Heading where
  name : String
  comment : String
  /-- The number of the line. -/
  line : Nat
  /-- The lines after it. -/
  rest : List Text.Line

namespace Heading

/-- The trimmed text of the line that a heading stands on, without byte order
    marks. -/
def clean (s : String) : List Char :=
  Text.trim (s.toList.dropWhile (· == '\uFEFF'))

/-- The heading on line `n`, before the lines `rest`. -/
def ofText (n : Nat) (s : String) (rest : List Text.Line) : Except Error Heading :=
  let cs := clean s
  match Grammar.heading? cs with
  | none => .error (.malformedHeader (.notType (String.ofList cs)))
  | some (title, comment) => do
      let name ← nameOf (String.ofList title)
      return { name, comment := String.ofList comment, line := n, rest }

/-- The heading of the lines after line `n`. -/
def find (n : Nat) : List Text.Line → Except Error Heading
  | [] => .error (.malformedHeader .emptySource)
  | .unreadable fault :: _ => .error (.unreadable fault)
  | .text s :: rest =>
      if (Text.trim s.toList).isEmpty then find (n + 1) rest
      else ofText (n + 1) s rest

/-- The definition under a heading. -/
def definition (h : Heading) (refer : String → String → Traced TypeDefinition) :
    Traced TypeDefinition := do
  let (version, members) ← Stage.run refer h.name h.line .metadata h.rest
  let t ← Traced.lift (TypeDefinition.create h.name version members)
  return t.withComment h.comment

end Heading

/-- Whether a name is one of those of the definitions being read. -/
def isWithin (within : List String) (name : String) : Bool :=
  within.any (Text.sameName · name)

/-- The definition in a source that is read for the definitions `within`,
    outermost first.  What references mean may depend on the heading, of
    which it is known that it was found and that its name is new. -/
def TypeDefinition.ofLines (within : List String) (lines : List Text.Line)
    (refer : (h : Heading) → Heading.find 0 lines = .ok h →
      isWithin within h.name = false → String → String → Traced TypeDefinition) :
    Traced TypeDefinition :=
  match found : Heading.find 0 lines with
  | .error e => Traced.fail e
  | .ok h =>
      if new : isWithin within h.name = false then do
        Traced.note (.begun h.name within)
        h.definition (refer h found new)
      else Traced.fail (.cyclicReference within h.name)

/-- Under a heading with a new name a source is read by the heading. -/
theorem TypeDefinition.ofLines_of_found {within : List String} {lines : List Text.Line}
    {h : Heading} (found : Heading.find 0 lines = .ok h)
    (new : isWithin within h.name = false)
    (refer : (h : Heading) → Heading.find 0 lines = .ok h →
      isWithin within h.name = false → String → String → Traced TypeDefinition) :
    TypeDefinition.ofLines within lines refer =
      Traced.note (.begun h.name within) >>= fun _ => h.definition (refer h found new) := by
  unfold TypeDefinition.ofLines
  split
  · next _ failed => rw [failed] at found; contradiction
  · next h' found' =>
      obtain rfl : h' = h := by rw [found'] at found; exact Except.ok.inj found
      rw [dif_pos new]

end PlcTypes
