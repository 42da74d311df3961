import PlcTypes.Column
import PlcTypes.Command.Arguments
import PlcTypes.Layout
import PlcTypes.Render
import PlcTypes.Source.Load

/-! # Running a task

    A task reads its files one after another and stops at the first that
    cannot be read or written.  What was printed and written before stays.  A
    file is read from the tree as the writes before it have left it. -/

namespace PlcTypes.Command

/-- What a run leaves behind. -/
structure Report where
  exit : Nat
  output : String
  errors : String
  files : FileSystem
  events : List Event

/-! ## Failures -/

/-- A message as one of the causes of a failure: it starts after `lead`, and
    each further line of it after as many blanks. -/
def causeText (lead message : String) : String :=
  let pad := String.ofList (List.replicate lead.length ' ')
  let lines := message.toList.splitOn '\n'
  lead ++ ("\n" ++ pad).intercalate (lines.map String.ofList)

/-- The causes of an error: its message, and below the message of a line that
    cannot be had the fault itself. -/
def causes (e : Error) : String :=
  match e with
  | .unreadable fault =>
      causeText "    0: " e.message ++ "\n" ++ causeText "    1: " fault.message
  | _ => causeText "    " e.message

/-- The report of a failure: what has failed, and its causes. -/
def failureText (failed causes : String) : String :=
  "Error: " ++ failed ++ "\n\nCaused by:\n" ++ causes ++ "\n"

/-- The report of an error in a file. -/
def readFailureText (path : Path) (e : Error) : String :=
  failureText path.text (causes e)

/-- The report of a file that cannot be written, with what the system says. -/
def writeFailureText (path : Path) (fault : String) : String :=
  failureText (path.text ++ ": write failed") (causeText "    " fault)

/-! ## Output -/

/-- The text of one definition in the answer of a size task. -/
def sizeLine (path : Path) (t : TypeDefinition) : String :=
  path.text ++ ": " ++ t.name ++ " v" ++ t.version
    ++ " plain=" ++ Decimal.ofNat t.plainSize
    ++ " packed=" ++ Decimal.ofNat t.packedSize ++ "\n"

/-- A leaf as a line: its path, a tab and its column type. -/
def leafLine (separator : Char) (path : FieldPath) (leaf : Leaf) : String :=
  path.render separator ++ "\t" ++ leaf.columnType ++ "\n"

/-- A leaf as an object of JSON. -/
def leafJson (path : FieldPath) (leaf : Leaf) : String :=
  let quote := Text.Quoted.codec.encode
  "  \x7b\n    \"path\": " ++ path.toJson
    ++ ",\n    \"type\": " ++ quote leaf.columnType
    ++ ",\n    \"comment\": " ++ quote leaf.comment ++ "\n  \x7d"

/-- The leaves of a definition as an array of JSON. -/
def leavesJson (leaves : List (FieldPath × Leaf)) : String :=
  if leaves.isEmpty then "[]\n"
  else
    let rows := leaves.map fun (path, leaf) => leafJson path leaf
    "[\n" ++ (",\n").intercalate rows ++ "\n]\n"

/-- The answer to a flatten task. -/
def flattenText (t : TypeDefinition) (separator : Char) (json : Bool) : String :=
  if json then leavesJson t.flattenRelative
  else String.join (t.flattenRelative.map fun (path, leaf) => leafLine separator path leaf)

/-- The answer to a columns task. -/
def columnsText (t : TypeDefinition) (separator : Char) : String :=
  (",\n").intercalate (t.columns separator) ++ "\n"

/-! ## Running -/

/-- The definition in a file, with the reference directory of the run. -/
def read (references : Option Path) (fs : FileSystem) (path : Path) : Traced TypeDefinition :=
  match references with
  | some dir => fs.readPathIn path dir
  | none => fs.readPath path

/-- What a task does with a definition: a text is printed, or replaces the
    contents of the file. -/
inductive Effect where
  | print (text : String)
  | replace (text : String)

/-- The files one after another, each with the effect that its definition
    has.  A failure ends the run, and a write that fails is one. -/
def each (references : Option Path) (effect : Path → TypeDefinition → Effect)
    (write : FileSystem.Writing) (fs : FileSystem) : List Path → Report
  | [] => { exit := 0, output := "", errors := "", files := fs, events := [] }
  | path :: rest =>
      let ⟨events, outcome⟩ := read references fs path
      match outcome with
      | .error e =>
          { exit := 1, output := "", errors := readFailureText path e, files := fs, events }
      | .ok t =>
          match effect path t with
          | .print text =>
              let after := each references effect write fs rest
              { after with output := text ++ after.output, events := events ++ after.events }
          | .replace text =>
              let ⟨fs, fault⟩ := write fs path (Text.Utf8.encode text.toList)
              match fault with
              | some fault =>
                  { exit := 1, output := "", errors := writeFailureText path fault, files := fs,
                    events }
              | none =>
                  let after := each references effect write fs rest
                  { after with events := events ++ .formatted path.text :: after.events }

/-- The files of a task. -/
def Task.files : Task → List Path
  | .format files _ | .size files => files
  | .flatten file .. | .columns file _ => [file]

/-- What a task does with each of its files. -/
def Task.effect : Task → Path → TypeDefinition → Effect
  | .format _ inPlace, _, t => if inPlace then .replace t.render else .print t.render
  | .size _, path, t => .print (sizeLine path t)
  | .flatten _ separator json, _, t => .print (flattenText t separator json)
  | .columns _ separator, _, t => .print (columnsText t separator)

/-- The report of an invocation, where files are written in some way. -/
def Invocation.run (i : Invocation) (fs : FileSystem)
    (write : FileSystem.Writing := FileSystem.write) : Report :=
  each i.references i.task.effect write fs i.task.files

/-- The name and the version of the tool. -/
def versionText : String := "udt 0.1.0\n"

/-- How the tool is used. -/
def usageText : String :=
  Text.ofLines [
    "Usage: udt [--reference-dir DIR] [-v] COMMAND",
    "",
    "  fmt FILE... [--write]                    normal form, printed or in place",
    "  size FILE...                             plain and packed sizes in bytes",
    "  flatten FILE [--separator C] [--json]    every leaf with its path",
    "  sql FILE [--separator C]                 a column for every leaf"]

/-- The report of a command line.  A mistake in it prints nothing here; its
    only answer is the exit status. -/
def run (args : List String) (fs : FileSystem)
    (write : FileSystem.Writing := FileSystem.write) : Report :=
  let quiet (exit : Nat) (output : String) : Report :=
    { exit, output, errors := "", files := fs, events := [] }
  match Invocation.ofArgs args with
  | .ok i => i.run fs write
  | .error .mistake => quiet 2 ""
  | .error .help => quiet 0 usageText
  | .error .version => quiet 0 versionText

end PlcTypes.Command
