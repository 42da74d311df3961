import PlcTypes.Proofs.Loading.TwoTrees
import PlcTypes.Proofs.Source.Insertion
import PlcTypes.Proofs.Text.Mark

/-! # Sources behind a byte order mark

    Byte order marks are dropped from the line of the heading.  In front of a
    source whose first line is not blank a mark stands in front of the heading, and
    makes no difference.  But a mark is no blank: in front of a blank line it makes
    the line the first that is not blank, and what is left of it when the mark is
    dropped is no heading.

    So a source that starts with a blank line, or has no lines, is refused with a
    mark, whatever follows; and a definition that refers to files with marks is
    read as before, or is refused for one of these. -/

namespace PlcTypes

open Text Traced

namespace Heading

/-- Whether a source starts with a blank line or has no lines. -/
def startsBlank : List Line → Bool
  | [] => true
  | .text s :: _ => (trim s.toList).isEmpty
  | .unreadable _ :: _ => false

/-- Marks in front of a line are not looked at. -/
theorem clean_mark (s : String) : clean ("\uFEFF" ++ s) = clean s := by
  rw [clean, clean, String.toList_append]
  rfl

/-- A mark is no blank. -/
theorem trim_mark_ne_nil (s : String) : trim ("\uFEFF" ++ s).toList ≠ [] := by
  have hmark : '\uFEFF' ∈ trim ("\uFEFF" ++ s).toList := by
    refine mem_trim ?_ (by decide)
    rw [String.toList_append]
    exact List.mem_append_left _ (by decide)
  exact List.ne_nil_of_mem hmark

/-- **A MARK BEFORE A HEADING** makes no difference. -/
theorem find_markedLines {lines : List Line} (h : startsBlank lines = false) (n : Nat) :
    find n (markedLines lines) = find n lines := by
  cases lines with
  | nil => exact nomatch h
  | cons line rest =>
      cases line with
      | unreadable fault => rfl
      | text s =>
          have hs : trim s.toList ≠ [] := List.isEmpty_eq_false_iff.mp h
          rw [markedLines, find_text (trim_mark_ne_nil s), find_text hs, ofText, ofText, clean_mark]

/-- What is left of a blank line behind a mark is no heading. -/
theorem ofText_mark_of_blank {s : String} (h : trim s.toList = []) (n : Nat) (rest : List Line) :
    ofText n ("\uFEFF" ++ s) rest = .error (.malformedHeader (.notType "")) := by
  have hclean : clean s = [] := by
    rw [clean_of_unmarked (by rw [h]; nofun), h]
  have hnone : Grammar.heading? [] = none := by decide
  rw [ofText, clean_mark, hclean, hnone]

/-- **A MARK BEFORE A BLANK LINE** makes it a line that is no heading. -/
theorem find_markedLines_of_startsBlank {lines : List Line} (h : startsBlank lines = true) (n : Nat) :
    find n (markedLines lines) = .error (.malformedHeader (.notType "")) := by
  cases lines with
  | nil =>
      rw [markedLines, find_text (by decide)]
      exact ofText_mark_of_blank (s := "") rfl (n + 1) []
  | cons line rest =>
      cases line with
      | unreadable fault => exact nomatch h
      | text s =>
          rw [markedLines, find_text (trim_mark_ne_nil s)]
          exact ofText_mark_of_blank (List.isEmpty_iff.mp h) (n + 1) rest

end Heading

/-! ## Sources -/

/-- The error of a source that starts with a mark before a blank line. -/
def markError : Error :=
  .malformedHeader (.notType "")

namespace FileSystem

variable {fs fs' : FileSystem} {dir path : Path} {lines : List Line}

/-- A source with a mark is read as without, unless it starts with a blank line. -/
theorem readLines_markedLines :
    fs.readLines dir (markedLines lines)
      = if Heading.startsBlank lines then Traced.fail markError else fs.readLines dir lines := by
  cases hblank : Heading.startsBlank lines with
  | true => exact readLines_of_no_heading (Heading.find_markedLines_of_startsBlank hblank 0)
  | false => exact fs.readLines_eq_of_find (Heading.find_markedLines hblank 0)

/-! ## Files -/

/-- A file system with marks in front of some files, and otherwise the same. -/
structure IsMarked (fs fs' : FileSystem) : Prop where
  home : fs'.home = fs.home
  entry : ∀ location, fs'.entry? location = fs.entry? location ∨
    ∃ bytes, fs.entry? location = some (.file bytes) ∧
      fs'.entry? location = some (.file (markedBytes bytes))

/-- Marks do not change the shape of a tree. -/
theorem IsMarked.sameShape (h : IsMarked fs fs') : SameShape fs fs' where
  home := h.home
  directory location := by
    rcases h.entry location with hsame | ⟨bytes, hfile, hfile'⟩
    · rw [hsame]
    · rw [hfile, hfile']
      exact ⟨nofun, nofun⟩
  isSome location := by
    rcases h.entry location with hsame | ⟨bytes, hfile, hfile'⟩
    · rw [hsame]
    · rw [hfile, hfile']
      rfl

/-- At the end of a path is what was there, perhaps behind a mark. -/
theorem IsMarked.at? (h : IsMarked fs fs') (path : Path) :
    fs'.at? path = fs.at? path ∨
      ∃ location bytes, fs.entry? location = some (.file bytes) ∧
        fs'.entry? location = some (.file (markedBytes bytes)) ∧
          fs.at? path = fs.entry? location ∧ fs'.at? path = fs'.entry? location := by
  rw [FileSystem.at?, FileSystem.at?, h.sameShape.locate_eq]
  cases fs.locate path with
  | none => exact Or.inl rfl
  | some location =>
      refine (h.entry location).imp_right ?_
      rintro ⟨bytes, hfile, hfile'⟩
      exact ⟨location, bytes, hfile, hfile', rfl, rfl⟩

/-- The heading of a marked file is found, unless it starts with a blank line. -/
theorem heading?_of_marked {bytes : List UInt8} (hfile : fs.at? path = some (.file bytes))
    (hfile' : fs'.at? path = some (.file (markedBytes bytes)))
    (h : Heading.startsBlank (linesOfBytes bytes) = false) :
    fs'.heading? path = fs.heading? path := by
  rw [heading?, heading?, lines?, lines?, hfile, hfile']
  show some (Heading.find 0 (linesOfBytes (markedBytes bytes))) = _
  rw [linesOfBytes_markedBytes, Heading.find_markedLines h]
  rfl

/-- A marked file that starts with a blank line is refused. -/
theorem load_of_marked {bytes : List UInt8}
    (hfile : fs.at? path = some (.file (markedBytes bytes)))
    (h : Heading.startsBlank (linesOfBytes bytes) = true) (within : List String) :
    fs.load within path dir = Traced.fail markError := by
  have hthere : fs.lines? path = some (markedLines (linesOfBytes bytes)) := by
    rw [lines?, hfile, ← linesOfBytes_markedBytes]
    rfl
  rw [load_of_lines hthere]
  exact TypeDefinition.ofLines_of_no_heading (Heading.find_markedLines_of_startsBlank h 0)

/-- Marks that are not before blank lines make no difference. -/
theorem IsMarked.heading?_eq (h : IsMarked fs fs')
    (hsolid : ∀ location bytes, fs.entry? location = some (.file bytes) →
      fs'.entry? location = some (.file (markedBytes bytes)) →
        Heading.startsBlank (linesOfBytes bytes) = false) (path : Path) :
    fs'.heading? path = fs.heading? path := by
  rcases h.at? path with hsame | ⟨location, bytes, hfile, hfile', hat, hat'⟩
  · exact heading?_of_at? hsame
  · exact heading?_of_marked (hat.trans hfile) (hat'.trans hfile')
      (hsolid location bytes hfile hfile')

/-- What is loaded is the same, unless it is refused for a mark. -/
theorem IsMarked.relatedAt (h : IsMarked fs fs') (path : Path) :
    RelatedAt (SameUnless markError) fs fs' path := by
  rcases h.at? path with hsame | ⟨location, bytes, hfile, hfile', hat, hat'⟩
  · exact Or.inl (heading?_of_at? hsame)
  · cases hblank : Heading.startsBlank (linesOfBytes bytes) with
    | false => exact Or.inl (heading?_of_marked (hat.trans hfile) (hat'.trans hfile') hblank)
    | true =>
        refine Or.inr fun within dir => Or.inr ?_
        rw [load_of_marked (hat'.trans hfile') hblank]
        rfl

end FileSystem

namespace Request

/-- **A BYTE ORDER MARK** in front of a text or of bytes makes no difference, unless
    these start with a blank line or have no lines: then they are refused with the
    mark, whatever they hold.  With marks in front of any files a request has the same
    answer, with the same events, or is refused in this way; it has the same answer if
    no file with a mark starts with a blank line, and a file with a mark that does
    is refused. -/
theorem answer_of_marked (fs : FileSystem) :
    (∀ source dir, fs.readText (markedText source) dir
      = if Heading.startsBlank (linesOfText source) then Traced.fail markError
        else fs.readText source dir) ∧
    (∀ source dir, fs.readBytes (markedBytes source) dir
      = if Heading.startsBlank (linesOfBytes source) then Traced.fail markError
        else fs.readBytes source dir) ∧
    ∀ fs', fs.IsMarked fs' →
      (∀ r : Request, r.answer fs' = r.answer fs ∨ (r.answer fs').outcome = .error markError) ∧
      ((∀ location bytes, fs.entry? location = some (.file bytes) →
          fs'.entry? location = some (.file (markedBytes bytes)) →
            Heading.startsBlank (linesOfBytes bytes) = false) →
        ∀ r : Request, r.answer fs' = r.answer fs) ∧
      ∀ path bytes, fs'.at? path = some (.file (markedBytes bytes)) →
        Heading.startsBlank (linesOfBytes bytes) = true →
          ∀ within dir, fs'.load within path dir = Traced.fail markError := by
  refine ⟨?_, ?_, ?_⟩
  · intro source dir
    rw [FileSystem.readText, linesOfText_markedText]
    exact FileSystem.readLines_markedLines
  · intro source dir
    rw [FileSystem.readBytes, linesOfBytes_markedBytes]
    exact FileSystem.readLines_markedLines
  · intro fs' h
    have hresolve := h.sameShape.resolve_eq
    refine ⟨?_, ?_, ?_⟩
    · intro r
      have hrelated : FileSystem.RelatedReferences (SameUnless markError) fs fs' :=
        ⟨hresolve, fun dir target => h.relatedAt _⟩
      exact related_answer hrelated (isCongruence_sameUnless markError) fun path _ => h.relatedAt path
    · intro hsolid r
      have hrelated : FileSystem.RelatedReferences Eq fs fs' :=
        ⟨hresolve, fun dir target => Or.inl (h.heading?_eq hsolid _)⟩
      exact (related_answer hrelated isCongruence_eq fun path _ =>
        Or.inl (h.heading?_eq hsolid path)).symm
    · intro path bytes hfile hblank within dir
      exact FileSystem.load_of_marked hfile hblank within

/-- A source with a reference. -/
def pumpText : String :=
  "TYPE \"Pump\"\nVERSION : 0.1\nSTRUCT\nx : \"Axis\";\nEND_STRUCT;\nEND_TYPE\n"

/-- The file that it refers to, with its heading indented. -/
def axisBytes : List UInt8 :=
  Utf8.encode "\t TYPE \"Axis\"\nVERSION : 0.1\nSTRUCT\nEND_STRUCT;\nEND_TYPE\n".toList

/-- A directory that holds such a file. -/
def axisFiles (bytes : List UInt8) : FileSystem :=
  ⟨[], [(["Axis.udt"], .file bytes)]⟩

theorem answer_of_marked_pump :
    Heading.startsBlank (linesOfText pumpText) = false ∧
      (axisFiles axisBytes).IsMarked (axisFiles (markedBytes axisBytes)) ∧
      Heading.startsBlank (linesOfBytes axisBytes) = false ∧
      (axisFiles (markedBytes axisBytes)).readText (markedText pumpText) ⟨""⟩
        = (axisFiles axisBytes).readText pumpText ⟨""⟩ ∧
      ((axisFiles axisBytes).readText pumpText ⟨""⟩).outcome
        = .ok ⟨"Pump", "0.1", "", [.struct "x" "" []]⟩ := by
  have hpump : Heading.startsBlank (linesOfText pumpText) = false := by decide +kernel
  have haxis : Heading.startsBlank (linesOfBytes axisBytes) = false := by decide +kernel
  have hmarked : (axisFiles axisBytes).IsMarked (axisFiles (markedBytes axisBytes)) := by
    refine ⟨rfl, fun location => ?_⟩
    by_cases hlocation : location = ["Axis.udt"]
    · obtain rfl := hlocation
      exact Or.inr ⟨axisBytes, rfl, rfl⟩
    · left
      simp [FileSystem.entry?, axisFiles, List.lookup_cons, beq_false_of_ne hlocation]
  obtain ⟨-, -, hfiles⟩ := answer_of_marked (axisFiles axisBytes)
  obtain ⟨htext, -, -⟩ := answer_of_marked (axisFiles (markedBytes axisBytes))
  refine ⟨hpump, hmarked, haxis, ?_, by decide +kernel⟩
  rw [htext, hpump, if_neg Bool.false_ne_true]
  refine (hfiles _ hmarked).2.1 ?_ (.text pumpText ⟨""⟩)
  intro location bytes hfile hfile'
  by_cases hlocation : location = ["Axis.udt"]
  · obtain rfl := hlocation
    obtain rfl := Entry.file.inj (Option.some.inj hfile)
    exact haxis
  · simp [FileSystem.entry?, axisFiles, List.lookup_cons, beq_false_of_ne hlocation] at hfile

/-- Where a blank line stands before the heading, a mark makes a difference. -/
theorem not_forall_kind_markedText :
    ¬ ∀ (fs : FileSystem) (source : String) (dir : Path), source.toList.head? ≠ some '\uFEFF' →
      (fs.readText (markedText source) dir).outcome.mapError Error.kind
        = (fs.readText source dir).outcome.mapError Error.kind := by
  intro h
  have hsame := h (axisFiles []) "\nTYPE \"Axis\"\nVERSION : 0.1\nSTRUCT\nEND_STRUCT;\nEND_TYPE\n"
    ⟨""⟩ (by decide)
  exact absurd hsame (by decide +kernel)

end Request

end PlcTypes
