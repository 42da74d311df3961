import PlcTypes.Files.Path

/-! # Command-line arguments

    A command line is read from left to right in two levels: the options of
    the tool up to the name of a command, then the options and operands of
    that command.  The reference directory and the verbose flag may be given
    on either level, and the inner one counts.

    Options have a long and some a short name.  A value stands in the next
    argument or is attached, after `=` or, for a short name, directly.  Short
    flags may be joined in one argument.  An argument `--` makes operands of
    all that follow, and `-` alone is an operand or a value.

    Nothing is taken back: the first mistake, or the first request for help
    or for the version, decides. -/

namespace PlcTypes.Command

/-! ## Options -/

/-- The options of the tool and of its commands. -/
inductive Opt where
  | referenceDir
  | verbose
  | write
  | separator
  | json
  | help
  | version
deriving DecidableEq, Repr

namespace Opt

/-- The long name. -/
def long : Opt → String
  | referenceDir => "reference-dir"
  | verbose => "verbose"
  | write => "write"
  | separator => "separator"
  | json => "json"
  | help => "help"
  | version => "version"

/-- The short name, if there is one. -/
def short? : Opt → Option Char
  | verbose => some 'v'
  | write => some 'w'
  | separator => some 's'
  | help => some 'h'
  | version => some 'V'
  | referenceDir | json => none

/-- Whether the option takes a value. -/
def takesValue : Opt → Bool
  | referenceDir | separator => true
  | _ => false

end Opt

/-- The commands. -/
inductive Verb where
  | format
  | size
  | flatten
  | columns
deriving DecidableEq, Repr

namespace Verb

/-- The commands in the order in which they are listed. -/
def all : List Verb := [format, size, flatten, columns]

/-- The name of a command. -/
def name : Verb → String
  | format => "fmt"
  | size => "size"
  | flatten => "flatten"
  | columns => "sql"

/-- The options that a command has. -/
def options : Verb → List Opt
  | format => [.referenceDir, .verbose, .write, .help]
  | size => [.referenceDir, .verbose, .help]
  | flatten => [.referenceDir, .verbose, .separator, .json, .help]
  | columns => [.referenceDir, .verbose, .separator, .help]

/-- Whether a command takes exactly one file; the others take any number. -/
def takesOneFile : Verb → Bool
  | format | size => false
  | flatten | columns => true

/-- The command with a name. -/
def ofName? (name : String) : Option Verb :=
  all.find? fun verb => verb.name == name

end Verb

/-- The options before the name of a command. -/
def toolOptions : List Opt := [.referenceDir, .verbose, .help, .version]

/-! ## Reading one level -/

/-- What stands on a command line. -/
inductive Item where
  | option (opt : Opt) (value : String)
  /-- An operand, with the arguments after it. -/
  | operand (text : String) (rest : List String)
  /-- An operand after the argument that makes operands of all that follow. -/
  | trailing (text : String)
  /-- Something that cannot be read; no item after it matters. -/
  | mistake
deriving DecidableEq, Repr

/-- Whether an argument can be an operand or the value of an option. -/
def isPlain (arg : String) : Bool :=
  arg == "-" || arg.toList.head? != some '-'

/-- The items of joined short options.  If the last one needs a value that
    is not attached, it is given apart. -/
def shortItems (allowed : List Opt) : List Char → List Item × Option Opt
  | [] => ([], none)
  | c :: cs =>
      match allowed.find? fun opt => opt.short? == some c with
      | none => ([.mistake], none)
      | some opt =>
          if opt.takesValue then match cs with
            | [] => ([], some opt)
            | '=' :: value => ([.option opt (String.ofList value)], none)
            | value => ([.option opt (String.ofList value)], none)
          else
            let (items, pending) := shortItems allowed cs
            (.option opt "" :: items, pending)

/-- The items of an argument that starts with two dashes. -/
def longItems (allowed : List Opt) (cs : List Char) : List Item × Option Opt :=
  let (name, value?) := match Text.cutAt ['='] cs with
    | some (name, value) => (name, some value)
    | none => (cs, none)
  match allowed.find? fun opt => opt.long.toList == name, value? with
  | some opt, some value =>
      if opt.takesValue then ([.option opt (String.ofList value)], none)
      else ([.mistake], none)
  | some opt, none =>
      if opt.takesValue then ([], some opt) else ([.option opt ""], none)
  | none, _ => ([.mistake], none)

/-- The items of a list of arguments. -/
def items (allowed : List Opt) : List String → List Item
  | [] => []
  | arg :: rest =>
      if isPlain arg then .operand arg rest :: items allowed rest
      else if arg == "--" then rest.map .trailing
      else
        let (found, pending) := match arg.toList with
          | '-' :: '-' :: cs => longItems allowed cs
          | cs => shortItems allowed (cs.drop 1)
        match pending with
        | none => found ++ items allowed rest
        | some opt =>
            match rest with
            | [] => found ++ [.mistake]
            | value :: rest =>
                if isPlain value then found ++ .option opt value :: items allowed rest
                else found ++ [.mistake]

/-! ## Settings -/

/-- What the options of a level say. -/
structure Settings where
  references : Option Path := none
  verbose : Bool := false
  write : Bool := false
  separator : Option Char := none
  json : Bool := false
deriving DecidableEq, Repr

/-- Why reading a command line stops early. -/
inductive Stop where
  | mistake
  | help
  | version
deriving DecidableEq, Repr

/-- The path that an argument gives, which may not be empty. -/
def pathOf (arg : String) : Except Stop Path :=
  if arg.isEmpty then .error .mistake else .ok ⟨arg⟩

/-- The settings after an option.  No option may be given twice on a level,
    and a separator is a single character. -/
def Settings.set (s : Settings) (opt : Opt) (value : String) : Except Stop Settings :=
  match opt with
  | .help => .error .help
  | .version => .error .version
  | .referenceDir => do
      let path ← pathOf value
      if s.references.isSome then throw .mistake
      return { s with references := some path }
  | .verbose => if s.verbose then .error .mistake else .ok { s with verbose := true }
  | .write => if s.write then .error .mistake else .ok { s with write := true }
  | .json => if s.json then .error .mistake else .ok { s with json := true }
  | .separator =>
      match value.toList with
      | [c] => if s.separator.isSome then .error .mistake else .ok { s with separator := some c }
      | _ => .error .mistake

/-! ## The whole command line -/

/-- What the tool is asked to do with the definitions in files. -/
inductive Task where
  /-- Write the files in normal form, to the output or in place. -/
  | format (files : List Path) (inPlace : Bool)
  | size (files : List Path)
  | flatten (file : Path) (separator : Char) (json : Bool)
  | columns (file : Path) (separator : Char)
deriving DecidableEq, Repr

/-- A task with the settings that all tasks share. -/
structure Invocation where
  references : Option Path
  verbose : Bool
  task : Task
deriving DecidableEq, Repr

/-- The task of a command with its settings and its files. -/
def Verb.task (verb : Verb) (s : Settings) (files : List Path) : Except Stop Task :=
  let separator := s.separator.getD '.'
  match verb, files with
  | .format, files => .ok (.format files s.write)
  | .size, files => .ok (.size files)
  | .flatten, [file] => .ok (.flatten file separator s.json)
  | .columns, [file] => .ok (.columns file separator)
  | .flatten, _ | .columns, _ => .error .mistake

/-- The settings and the files, last first, after the items of a command. -/
def readCommand (verb : Verb) (s : Settings) (files : List Path) :
    List Item → Except Stop (Settings × List Path)
  | [] => .ok (s, files)
  | .mistake :: _ => .error .mistake
  | .option opt value :: rest => do
      readCommand verb (← s.set opt value) files rest
  | .operand arg _ :: rest | .trailing arg :: rest => do
      if verb.takesOneFile && !files.isEmpty then throw .mistake
      readCommand verb s ((← pathOf arg) :: files) rest

/-- The invocation of a command whose arguments are given, after the settings
    before its name. -/
def invoke (outer : Settings) (verb : Verb) (args : List String) : Except Stop Invocation := do
  let (inner, files) ← readCommand verb {} [] (items verb.options args)
  return {
    references := inner.references.or outer.references
    verbose := inner.verbose || outer.verbose
    task := ← verb.task inner files.reverse }

/-- What comes of the operand in the place of a command name. -/
def readVerb (outer : Settings) (name : String) (args : List String) :
    Except Stop Invocation :=
  match Verb.ofName? name with
  | some verb => invoke outer verb args
  | none =>
      let known := args.all fun arg => arg == "help" || (Verb.ofName? arg).isSome
      .error (if name == "help" && known && args.length ≤ 1 then .help else .mistake)

/-- The invocation that items before and after the name of a command give. -/
def readTool (s : Settings) : List Item → Except Stop Invocation
  | [] | .mistake :: _ | .trailing _ :: _ => .error .mistake
  | .option opt value :: rest => do readTool (← s.set opt value) rest
  | .operand name args :: _ => readVerb s name args

/-- The invocation that a command line gives. -/
def Invocation.ofArgs (args : List String) : Except Stop Invocation :=
  readTool {} (items toolOptions args)

end PlcTypes.Command
