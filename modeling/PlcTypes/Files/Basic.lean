import PlcTypes.Files.Path
import PlcTypes.Text.Lines

/-! # Files

    The files that references are resolved in: a finite tree below a root,
    with a working directory in which relative paths start.  A path is
    followed component by component; each component but the last must lead to
    an existing directory, two dots lead to the directory above even when
    what they leave is empty, and idle components lead nowhere but still need
    a directory to stand in.

    The tree is an ideal one.  There are no links in it, so what stands at one
    location stands at no other.  Nothing is said of owners and rights: each
    file can be opened and read to its end, bytes apart that are no text.  What
    comes of a write is not decided by the tree and is given with it, as a
    `Writing`: the system may refuse a file, and may keep it under more names
    than one. -/

namespace PlcTypes

/-- The names that lead from the root to an entry. -/
abbrev Location := List String

/-- What stands at a location. -/
inductive Entry where
  | file (bytes : List UInt8)
  | directory
deriving DecidableEq, Repr

/-- The lines of an entry.  Those of a directory cannot be had. -/
def Entry.lines : Entry → List Text.Line
  | .file bytes => Text.linesOfBytes bytes
  | .directory => [.unreadable .isDirectory]

/-- A tree of files, given by its entries.  Of two entries at one location the
    first counts, and the root is always a directory. -/
structure FileSystem where
  /-- The working directory. -/
  home : Location
  entries : List (Location × Entry)
deriving Repr

namespace FileSystem

/-- What stands at a location. -/
def entry? (fs : FileSystem) (location : Location) : Option Entry :=
  if location.isEmpty then some .directory else fs.entries.lookup location

/-! ## Following paths -/

/-- Where a component leads from a location, which must be a directory. -/
def follow (fs : FileSystem) (location : Location) (component : List Char) :
    Option Location :=
  if fs.entry? location ≠ some .directory then none
  else if Path.isIdle component then some location
  else if component == ['.', '.'] then some location.dropLast
  else
    let next := location ++ [String.ofList component]
    if (fs.entry? next).isSome then some next else none

/-- Where a path starts. -/
def start (fs : FileSystem) (path : Path) : Location :=
  if Path.isAbsolute path.text.toList then [] else fs.home

/-- The greatest number of bytes in a path that can be followed. -/
def maxPathBytes : Nat := 4095

/-- Where a path leads, if something is there. -/
def locate (fs : FileSystem) (path : Path) : Option Location :=
  if path.text.isEmpty || path.text.utf8ByteSize > maxPathBytes then none
  else (Path.components path.text.toList).foldlM fs.follow (fs.start path)

/-- What stands at the end of a path. -/
def at? (fs : FileSystem) (path : Path) : Option Entry :=
  (fs.locate path).bind fs.entry?

/-- Whether a path leads to a file or a directory. -/
def isThere (fs : FileSystem) (path : Path) : Bool :=
  (fs.at? path).isSome

/-- The lines of what stands at the end of a path. -/
def lines? (fs : FileSystem) (path : Path) : Option (List Text.Line) :=
  (fs.at? path).map Entry.lines

/-! ## Changing a tree -/

/-- The tree after the file at the end of a path, and no other, has got new
    contents; the same tree if there is no file. -/
def overwrite (fs : FileSystem) (path : Path) (bytes : List UInt8) : FileSystem :=
  { fs with entries := fs.entries.map fun (location, entry) =>
      (location,
        if fs.locate path = some location && entry ≠ .directory then .file bytes
        else entry) }

/-- What comes of a write: the tree that it leaves, and what the system says if
    it fails. -/
structure Written where
  files : FileSystem
  fault : Option String

/-- How files are written: what comes of new contents for the file at the end
    of a path. -/
abbrev Writing := FileSystem → Path → List UInt8 → Written

/-- Writing that never fails, to files without a second name. -/
def write : Writing :=
  fun fs path bytes => { files := fs.overwrite path bytes, fault := none }

/-- The location that a path spells, whether something is there or not. -/
def spelled (fs : FileSystem) (path : Path) : Location :=
  (Path.components path.text.toList).foldl
    (fun location component =>
      if Path.isIdle component then location
      else if component == ['.', '.'] then location.dropLast
      else location ++ [String.ofList component])
    (fs.start path)

/-- The entries of the directories above a location. -/
def directoriesAbove (location : Location) : List (Location × Entry) :=
  (List.range location.length).map fun depth => (location.take depth, .directory)

/-- The tree with an entry at the location that a path spells, and with
    directories above it. -/
def insert (fs : FileSystem) (path : Path) (entry : Entry) : FileSystem :=
  let location := fs.spelled path
  { fs with entries := (location, entry) :: fs.entries ++ directoriesAbove location }

/-- The tree that holds nothing but a working directory. -/
def ofHome (home : Location) : FileSystem :=
  { home, entries := (home, .directory) :: directoriesAbove home }

end FileSystem

end PlcTypes
