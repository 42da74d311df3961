import PlcTypes.Source.Member
import PlcTypes.Trace

/-! # Reading the body of a definition

    After its heading a definition is read line by line.  The reader is in
    one of five stages: before the version, where one line of metadata may
    stand; at the version, after such a line; before the line that opens the
    members; among the members; and after them.  Each line takes it to the
    next stage, ends the definition, or fails.

    Among the members the reader keeps the structures that are open, the
    innermost first, so that nested structures need no recursion: a closing
    line turns the innermost into a member of the one around it.

    A step sees a line only trimmed and never sees a later line, so blanks
    around lines do not matter and nothing is read beyond the line that ends
    the definition.  What a reference means is left to `refer`, which is
    given the names of the field and of the definition that it refers to. -/

namespace PlcTypes

open Grammar

/-- A structure whose closing line has not been read.  Its members so far
    stand last first. -/
structure OpenStruct where
  name : String
  comment : String
  members : List Field

/-- The field that an open structure becomes at its closing line. -/
def OpenStruct.close (s : OpenStruct) : Field :=
  .struct s.name (oneLine s.comment) s.members.reverse

/-- The members that have been read: the open structures, innermost first,
    and the members of the definition itself, last first. -/
structure Members where
  own : List Field
  inner : List OpenStruct

namespace Members

/-- No members. -/
def empty : Members := ⟨[], []⟩

/-- The members with a field added to the innermost structure. -/
def add (ms : Members) (f : Field) : Members :=
  match ms.inner with
  | [] => { ms with own := f :: ms.own }
  | s :: outer => { ms with inner := { s with members := f :: s.members } :: outer }

/-- The members after a structure has been opened. -/
def openStruct (ms : Members) (name comment : String) : Members :=
  { ms with inner := ⟨name, comment, []⟩ :: ms.inner }

/-- The name of the structure that the next closing line closes. -/
def innermost (ms : Members) (owner : String) : String :=
  match ms.inner with
  | [] => owner
  | s :: _ => s.name

end Members

/-- How far the reader has come. -/
inductive Stage where
  /-- Before the version; one line of metadata may come first. -/
  | metadata
  /-- At the version. -/
  | version
  /-- Before the line that opens the members. -/
  | opening (version : String)
  | members (version : String) (read : Members)
  /-- After the members. -/
  | footer (version : String) (members : List Field)

/-- What a line leads to. -/
inductive Progress where
  | more (next : Stage)
  /-- The definition has ended. -/
  | done (version : String) (members : List Field)

namespace Stage

/-! ## One line -/

variable (refer : String → String → Traced TypeDefinition) (owner : String)

/-- The members after a declaration on line `n`. -/
def declare (n : Nat) (ms : Members) (d : Declaration) : Traced Members := do
  let name ← Traced.lift (nameOf d.name)
  match d.spec with
  | .struct => return ms.openStruct name d.comment
  | .reference target => return ms.add ((← refer name target).graft name d.comment)
  | .plain spec =>
      match spec.field name d.comment with
      | .ok f => return ms.add f
      | .error e => Traced.fail (e.at n)

/-- The stage after a closing line. -/
def close (version : String) (ms : Members) : Stage :=
  match ms.inner with
  | [] => footer version ms.own.reverse
  | s :: outer => members version (Members.add { ms with inner := outer } s.close)

/-- What the trimmed line `n` leads to. -/
def step (n : Nat) (cs : List Char) : Stage → Traced Progress
  | metadata =>
      match version? cs with
      | some v => return .more (opening (String.ofList v))
      | none => do
          Traced.note (.metadata owner n)
          return .more version
  | version =>
      match version? cs with
      | some v => return .more (opening (String.ofList v))
      | none => Traced.fail (.malformedHeader (.expected n .version (String.ofList cs)))
  | opening v =>
      if cs.isEmpty then return .more (opening v)
      else if isStruct cs then return .more (members v .empty)
      else Traced.fail (.malformedHeader (.expected n .struct (String.ofList cs)))
  | members v ms =>
      match BodyLine.ofText cs with
      | .blank | .remark => return .more (members v ms)
      | .closing => return .more (close v ms)
      | .declaration d => return .more (members v (← declare refer n ms d))
      | .malformed => Traced.fail (.malformedField (some n) (.grammar (String.ofList cs)))
  | footer v fs =>
      if cs.isEmpty then return .more (footer v fs)
      else if isEndType cs then return .done v fs
      else do
        Traced.note (.ignored owner n (String.ofList cs))
        return .more (footer v fs)

/-! ## All lines -/

/-- What the end of the source leads to. -/
def finish : Stage → Traced (String × List Field)
  | metadata | version => Traced.fail (.malformedHeader (.missing owner .version))
  | opening _ => Traced.fail (.malformedHeader (.missing owner .struct))
  | members _ ms => Traced.fail (.unterminatedStruct (ms.innermost owner))
  | footer v fs => do
      Traced.note (.endMissing owner)
      return (v, fs)

/-- The version and the members that the lines after line `n` give. -/
def run (n : Nat) (stage : Stage) : List Text.Line → Traced (String × List Field)
  | [] => stage.finish owner
  | .unreadable fault :: _ => Traced.fail (.unreadable fault)
  | .text s :: rest => do
      match ← stage.step refer owner (n + 1) (Text.trim s.toList) with
      | .more next => run (n + 1) next rest
      | .done v fs => return (v, fs)

end Stage

end PlcTypes
