import PlcTypes.Command.Run

/-! # The command-line tool

    A run is a function of the arguments, of a tree of files and of how they
    are written.  The tool finds the part of the real tree that a run needs by
    running it: whenever a run asks for paths that have not been looked at,
    they are added to the tree, if something is there, and the run is repeated.
    Which files may not be written and which paths lead to the same file is
    found out on the way.  The last run is the answer; only then is anything
    printed or written. -/

namespace PlcTypes.Tool

open Command

/-- A path with the legacy extension in the place of the usual one. -/
def legacyOf (path : String) : String :=
  String.ofList (path.toList.take (path.length - 4)) ++ ".awl"

/-- The paths that a run asks for. -/
def asked (args : List String) (report : Report) : List String :=
  let given := match Invocation.ofArgs args with
    | .ok i => i.task.files.map Path.text
    | .error _ => []
  given ++ report.events.flatMap fun
    | .references _ path => [path, legacyOf path]
    | _ => []

/-- A path and the directories that it leads through. -/
def leads (path : String) : List String :=
  let components := Path.components path.toList
  (List.range components.length).map fun k =>
    String.ofList (['/'].intercalate (components.take (k + 1)))

/-- What has been found of the real files. -/
structure Findings where
  tree : FileSystem
  /-- The paths of files that have been looked at, each with the path that the
      system has for the file. -/
  names : List (String × String) := []
  /-- The files that may not be written, with what the system says. -/
  refused : List (String × String) := []

/-- Writing as the system does it: a file gets new contents under all its
    names, unless it may not be written. -/
def Findings.write (found : Findings) : FileSystem.Writing := fun fs path bytes =>
  match found.names.lookup path.text with
  | none => fs.write path bytes
  | some file =>
      let same := found.names.filter fun name => name.2 == file
      match found.refused.lookup file with
      | some fault => { files := fs, fault := some fault }
      | none =>
          let files := same.foldl (fun fs name => fs.overwrite ⟨name.1⟩ bytes) fs
          { files, fault := none }

/-- What the system says of an error, with its number. -/
def wording : IO.Error → String
  | .permissionDenied _ code details | .resourceBusy code details
  | .inappropriateType _ code details | .otherError code details =>
      details ++ " (os error " ++ Decimal.ofNat code.toNat ++ ")"
  | e => toString e

/-- What is known after a path has been looked at. -/
def learn (found : Findings) (path : String) : IO Findings := do
  let real? ← try pure (some (← IO.FS.realPath path)) catch _ => pure none
  match real? with
  | none => return found
  | some real =>
      if ← real.isDir then
        return { found with tree := found.tree.insert ⟨path⟩ .directory }
      let bytes := (← IO.FS.readBinFile real).toList
      let refused ← try
          discard (IO.FS.Handle.mk real .readWrite)
          pure found.refused
        catch e => pure ((real.toString, wording e) :: found.refused)
      return {
        tree := found.tree.insert ⟨path⟩ (.file bytes)
        names := (path, real.toString) :: found.names
        refused }

/-- The report of the run that asks for nothing new. -/
partial def settle (args : List String) (found : Findings) (known : List String) :
    IO Report := do
  let report := run args found.tree found.write
  let new := (asked args report).filter fun path => !known.contains path
  if new.isEmpty then return report
  let parts := ((new.flatMap leads).filter fun part => !part.isEmpty).eraseDups
  settle args (← parts.foldlM learn found) (known ++ new)

/-- Whether an event is shown. -/
def isShown (args : List String) (e : Event) : Bool :=
  match Invocation.ofArgs args with
  | .ok i => e.level == .warn || (i.verbose && e.level != .trace)
  | .error _ => false

end PlcTypes.Tool

open PlcTypes PlcTypes.Tool in
/-- The tool: prints and writes what the run reports, and ends with its exit
    status. -/
def main (args : List String) : IO UInt32 := do
  let home := (← IO.FS.realPath ".").components.filter fun name => !name.isEmpty
  let report ← settle args { tree := .ofHome home } []
  for event in report.events do
    if isShown args event then
      IO.eprintln ("[" ++ event.level.word ++ "] " ++ event.message)
    if let .formatted path := event then
      if let some (.file bytes) := report.files.at? ⟨path⟩ then
        IO.FS.writeBinFile path bytes.toByteArray
  IO.print report.output
  IO.eprint (if report.exit == 2 then Command.usageText else report.errors)
  return report.exit.toUInt32
