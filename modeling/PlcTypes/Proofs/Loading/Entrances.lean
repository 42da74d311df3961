import PlcTypes.Proofs.Loading.Termination
import PlcTypes.Proofs.Loading.Place
import PlcTypes.Proofs.Text.Utf8

/-! # The ways to read a definition

    A definition is asked for as a text, as bytes, or as a file.  All ways
    read the lines of a source, with a directory in which references are looked
    up; they differ only in where the lines come from.  The bytes that are
    written for a text have the same lines as the text, however its lines end,
    so a text, its bytes and a file with these bytes are read alike. -/

namespace PlcTypes

open Text

/-! ## A source by its lines -/

/-- Under a heading with a new name the rest of a source is read. -/
theorem TypeDefinition.ofLines_eq_of_found {within : List String} {lines : List Line}
    {h : Heading} (found : Heading.find 0 lines = .ok h) (new : isWithin within h.name = false)
    (refer : (h : Heading) → Heading.find 0 lines = .ok h →
      isWithin within h.name = false → String → String → Traced TypeDefinition) :
    TypeDefinition.ofLines within lines refer
      = ⟨.begun h.name within
            :: (Stage.run (refer h found new) h.name h.line .metadata h.rest).events,
          h.conclude h.name
            (Stage.run (refer h found new) h.name h.line .metadata h.rest).outcome⟩ := by
  rw [TypeDefinition.ofLines_of_found found new, Heading.definition_eq]
  rfl

namespace FileSystem

variable {fs : FileSystem} {dir : Path} {lines : List Line}

/-- Under a heading the rest of a source is read. -/
theorem readLines_of_found {h : Heading} (hfound : Heading.find 0 lines = .ok h) :
    fs.readLines dir lines
      = ⟨.begun h.name []
            :: (Stage.run (fs.referFor [h.name] dir) h.name h.line .metadata h.rest).events,
          h.conclude h.name
            (Stage.run (fs.referFor [h.name] dir) h.name h.line .metadata h.rest).outcome⟩ :=
  TypeDefinition.ofLines_eq_of_found hfound rfl fun h _ _ => fs.referFor [h.name] dir

theorem readLines_of_no_heading {e : Error} (hnone : Heading.find 0 lines = .error e) :
    fs.readLines dir lines = Traced.fail e :=
  TypeDefinition.ofLines_of_no_heading hnone

/-- A file is read by its lines. -/
theorem load_eq_readLines {path : Path} (hthere : fs.lines? path = some lines) :
    fs.load [] path dir = fs.readLines dir lines :=
  load_of_lines hthere [] dir

end FileSystem

/-! ## A request by its lines -/

namespace Request

/-- The directory in which the references of a source are looked up. -/
def dir : Request → Path
  | text _ dir | bytes _ dir | pathIn _ dir => dir
  | path p => p.parent

/-- The lines of the source that is asked for, if there is one. -/
def lines? (fs : FileSystem) : Request → Option (List Line)
  | text source _ => some (linesOfText source)
  | bytes source _ => some (linesOfBytes source)
  | path p | pathIn p _ => fs.lines? p

/-- However a source is asked for, it is read by its lines. -/
theorem answer_eq {fs : FileSystem} {r : Request} {lines : List Line}
    (h : r.lines? fs = some lines) : r.answer fs = fs.readLines r.dir lines := by
  cases r with
  | text source dir =>
      obtain rfl := Option.some.inj h
      rfl
  | bytes source dir =>
      obtain rfl := Option.some.inj h
      rfl
  | path p => exact FileSystem.load_eq_readLines h
  | pathIn p dir => exact FileSystem.load_eq_readLines h

/-- Without a source nothing is read. -/
theorem lines?_of_answer {fs : FileSystem} {r : Request} {t : TypeDefinition}
    (h : (r.answer fs).outcome = .ok t) : ∃ lines, r.lines? fs = some lines := by
  cases r with
  | text source dir => exact ⟨_, rfl⟩
  | bytes source dir => exact ⟨_, rfl⟩
  | path p =>
      obtain ⟨location, bytes, hlocate, hfile⟩ := FileSystem.exists_file_of_load h
      exact ⟨_, FileSystem.lines?_of_locate hlocate hfile⟩
  | pathIn p dir =>
      obtain ⟨location, bytes, hlocate, hfile⟩ := FileSystem.exists_file_of_load h
      exact ⟨_, FileSystem.lines?_of_locate hlocate hfile⟩

/-- Requests for the same lines, with references looked up in the same
    directory, have the same answer. -/
theorem answer_eq_of_lines {fs : FileSystem} {r r' : Request} {lines : List Line}
    (h : r.lines? fs = some lines) (h' : r'.lines? fs = some lines) (hdir : r.dir = r'.dir) :
    r.answer fs = r'.answer fs := by
  rw [answer_eq h, answer_eq h', hdir]

end Request

/-! ## One text, asked for in all ways -/

namespace FileSystem

/-- The lines of a file with the bytes that are written for a text are the
    lines of the text. -/
theorem lines?_of_encode {fs : FileSystem} {path : Path} {source : String}
    (hfile : fs.at? path = some (.file (Utf8.encode source.toList))) :
    fs.lines? path = some (linesOfText source) := by
  show (fs.at? path).map Entry.lines = _
  rw [hfile]
  exact congrArg some (linesOfBytes_encode source)

/-- **ALL WAYS TO READ AGREE**: a text, its bytes and any file with these bytes
    are read with the same result and the same events, whatever ends the lines
    of the text and whatever characters are in it. -/
theorem read_same (fs : FileSystem) (source : String) (dir : Path) :
    fs.readBytes (Utf8.encode source.toList) dir = fs.readText source dir ∧
      ∀ path, fs.at? path = some (.file (Utf8.encode source.toList)) →
        fs.readPathIn path dir = fs.readText source dir ∧
          fs.readPath path = fs.readText source path.parent := by
  have htext : ∀ d, (Request.text source d).lines? fs = some (linesOfText source) := fun _ => rfl
  refine ⟨?_, ?_⟩
  · have hbytes : (Request.bytes (Utf8.encode source.toList) dir).lines? fs
        = some (linesOfText source) := congrArg some (linesOfBytes_encode source)
    exact Request.answer_eq_of_lines hbytes (htext dir) rfl
  · intro path hfile
    have hpathIn : (Request.pathIn path dir).lines? fs = some (linesOfText source) :=
      lines?_of_encode hfile
    have hpath : (Request.path path).lines? fs = some (linesOfText source) :=
      lines?_of_encode hfile
    exact ⟨Request.answer_eq_of_lines hpathIn (htext dir) rfl,
      Request.answer_eq_of_lines hpath (htext path.parent) rfl⟩

/-- A text whose lines end in every way, with characters of one to three bytes
    and a carriage return inside a line. -/
def gateSource : String :=
  "TYPE \"Größe\" // 5\r\nVERSION : 0.1\nSTRUCT\r\nx : \"Axis\"; // left\r→\nEND_STRUCT;\nEND_TYPE\r"

/-- A file with this text, and the file that it refers to. -/
def gateFiles : FileSystem where
  home := []
  entries :=
    [(["lib"], .directory),
     (["lib", "Gate.udt"], .file (Utf8.encode gateSource.toList)),
     (["lib", "Axis.udt"], .file (Utf8.encode
      "TYPE \"Axis\"\nVERSION : 0.1\nSTRUCT\nEND_STRUCT;\nEND_TYPE\n".toList))]

theorem read_same_gate :
    gateFiles.readPath ⟨"lib/Gate.udt"⟩ = gateFiles.readText gateSource ⟨"lib"⟩ ∧
      gateFiles.readPathIn ⟨"lib/Gate.udt"⟩ ⟨"lib"⟩ = gateFiles.readText gateSource ⟨"lib"⟩ ∧
      (gateFiles.readText gateSource ⟨"lib"⟩).outcome
        = .ok ⟨"Größe", "0.1", "5", [.struct "x" "left\r→" []]⟩ := by
  have hfile : gateFiles.at? ⟨"lib/Gate.udt"⟩ = some (.file (Utf8.encode gateSource.toList)) := by
    decide +kernel
  obtain ⟨hpathIn, hpath⟩ := (read_same gateFiles gateSource ⟨"lib"⟩).2 ⟨"lib/Gate.udt"⟩ hfile
  have hparent : Path.parent ⟨"lib/Gate.udt"⟩ = ⟨"lib"⟩ := by decide +kernel
  rw [hparent] at hpath
  exact ⟨hpath, hpathIn, by decide +kernel⟩

end FileSystem

end PlcTypes
