import PlcTypes.Files.Basic
import PlcTypes.Source.Definition

/-! # References

    A field that refers to a definition names a file in the reference
    directory: the name with the extension `.udt`, or with the legacy
    extension `.awl` if only that file exists.  The references in a loaded
    file are looked up in the directory of that file.

    Loading ends for every tree of files, also when files refer to one
    another in a loop.  A definition is loaded only if its name is not among
    those that it is loaded for, and its name is in the heading of some file;
    so with each level there is one name less that may still be met. -/

namespace PlcTypes

namespace FileSystem

/-! ## The names that can be met -/

/-- The name in the heading of a file. -/
def headingName? : Entry → Option String
  | .file bytes =>
      match Heading.find 0 (Text.linesOfBytes bytes) with
      | .ok h => some h.name
      | .error _ => none
  | .directory => none

/-- The names in the headings of all files. -/
def headingNames (fs : FileSystem) : List String :=
  fs.entries.filterMap fun e => headingName? e.2

/-- How many headings have a name that is not among `within`. -/
def unmet (fs : FileSystem) (within : List String) : Nat :=
  fs.headingNames.countP fun name => !isWithin within name

theorem mem_headingNames {fs : FileSystem} {path : Path} {lines : List Text.Line}
    {h : Heading} (there : fs.lines? path = some lines)
    (found : Heading.find 0 lines = .ok h) : h.name ∈ fs.headingNames := by
  obtain ⟨entry, at_path, rfl⟩ := Option.map_eq_some_iff.mp there
  cases entry with
  | directory => simp [Entry.lines, Heading.find] at found
  | file bytes =>
      have stored : ∃ location, (location, Entry.file bytes) ∈ fs.entries := by
        obtain ⟨location, -, stands⟩ := Option.bind_eq_some_iff.mp at_path
        unfold entry? at stands
        split at stands
        · simp at stands
        · obtain ⟨before, after, split, -⟩ := List.lookup_eq_some_iff.mp stands
          exact ⟨location, by simp [split]⟩
      obtain ⟨location, mem⟩ := stored
      exact List.mem_filterMap.mpr
        ⟨_, mem, by simp [headingName?, show Heading.find 0 (Text.linesOfBytes bytes) = _ from found]⟩

/-- With a new name that can be met, fewer are left to meet. -/
theorem unmet_lt {fs : FileSystem} {within : List String} {name : String}
    (mem : name ∈ fs.headingNames) (new : isWithin within name = false) :
    fs.unmet (within ++ [name]) < fs.unmet within := by
  have more : ∀ other, isWithin (within ++ [name]) other = false →
      isWithin within other = false := by
    intro other h
    simp only [isWithin, List.any_append, Bool.or_eq_false_iff] at h
    exact h.1
  have met : isWithin (within ++ [name]) name = true := by
    simp [isWithin, Text.sameName]
  have le : ∀ names : List String,
      names.countP (fun n => !isWithin (within ++ [name]) n)
        ≤ names.countP fun n => !isWithin within n := by
    intro names
    exact List.countP_mono_left fun n _ h => by
      simpa using more n (by simpa using h)
  unfold unmet
  obtain ⟨before, after, split⟩ := List.append_of_mem mem
  rw [split, List.countP_append, List.countP_append, List.countP_cons, List.countP_cons]
  have h₁ := le before
  have h₂ := le after
  simp only [met, new, Bool.not_true, Bool.not_false, if_true, Bool.false_eq_true, if_false]
  omega

/-! ## Loading -/

/-- The path of the file that holds the definition `target`.  If there is
    none, it is the path where the file would usually be. -/
def resolve (fs : FileSystem) (dir : Path) (target : String) : Traced Path :=
  let usual := dir.join (target ++ ".udt")
  let legacy := dir.join (target ++ ".awl")
  if fs.isThere usual then pure usual
  else if fs.isThere legacy then do
    Traced.note (.legacyTaken usual.text legacy.text)
    return legacy
  else pure usual

/-- What a reference in a field means, when `load` loads a file. -/
def refer (fs : FileSystem) (dir : Path) (load : Path → Traced TypeDefinition)
    (field target : String) : Traced TypeDefinition := do
  let path ← fs.resolve dir target
  Traced.note (.references field path.text)
  load path

-- `there`, `found` and `new` are used where the linter does not look: in the
-- proof that loading ends.
set_option linter.unusedVariables false in
/-- The definition in a file, whose references are looked up in `dir`.  It is
    read for the definitions `within`, outermost first. -/
def load (fs : FileSystem) (within : List String) (path dir : Path) :
    Traced TypeDefinition :=
  match there : fs.lines? path with
  | none => Traced.fail (.notFound path.text)
  | some lines =>
      TypeDefinition.ofLines within lines fun h found new =>
        fs.refer dir fun p => load fs (within ++ [h.name]) p p.parent
termination_by fs.unmet within
decreasing_by exact unmet_lt (mem_headingNames there found) new

/-- Nothing is loaded from where nothing is. -/
theorem load_of_missing {fs : FileSystem} {path : Path}
    (missing : fs.lines? path = none) (within : List String) (dir : Path) :
    fs.load within path dir = Traced.fail (.notFound path.text) := by
  rw [load]
  split
  · rfl
  · next there => rw [missing] at there; contradiction

/-- What is loaded from a file is the definition in its lines. -/
theorem load_of_lines {fs : FileSystem} {path : Path} {lines : List Text.Line}
    (there : fs.lines? path = some lines) (within : List String) (dir : Path) :
    fs.load within path dir = TypeDefinition.ofLines within lines fun h _ _ =>
      fs.refer dir fun p => fs.load (within ++ [h.name]) p p.parent := by
  rw [load]
  split
  · next missing => rw [missing] at there; contradiction
  · next lines' there' =>
      obtain rfl : lines' = lines := by rw [there'] at there; exact Option.some.inj there
      rfl

/-- The definition in the lines of a source, whose references are looked up
    in `dir`. -/
def readLines (fs : FileSystem) (dir : Path) (lines : List Text.Line) :
    Traced TypeDefinition :=
  TypeDefinition.ofLines [] lines fun h _ _ =>
    fs.refer dir fun p => fs.load [h.name] p p.parent

/-! ## The ways to read a definition -/

/-- The definition that a text holds. -/
def readText (fs : FileSystem) (source : String) (dir : Path) : Traced TypeDefinition :=
  fs.readLines dir (Text.linesOfText source)

/-- The definition that some bytes hold. -/
def readBytes (fs : FileSystem) (source : List UInt8) (dir : Path) :
    Traced TypeDefinition :=
  fs.readLines dir (Text.linesOfBytes source)

/-- The definition in a file, whose references are looked up beside it. -/
def readPath (fs : FileSystem) (path : Path) : Traced TypeDefinition :=
  fs.load [] path path.parent

/-- The definition in a file, whose references are looked up in `dir`. -/
def readPathIn (fs : FileSystem) (path dir : Path) : Traced TypeDefinition :=
  fs.load [] path dir

end FileSystem

end PlcTypes
