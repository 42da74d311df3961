import PlcTypes.Proofs.Loading.Entrances
import PlcTypes.Proofs.Source.Heading
import PlcTypes.Proofs.Text.Ending

/-! # Blanks around lines

    A source is read line by line, and of every line only the trimmed text is
    looked at, but for one: byte order marks are dropped from the line of the
    heading before it is trimmed.  So sources are read alike when their lines are
    the same after trimming and their headings are the same without marks.  The
    latter is so if no mark stands at the start of the trimmed heading, and if the
    lines differ in carriage returns at their ends only.

    The two sources are read side by side, line by line: the heading is found at
    the same place, and from then on every step is the same. -/

namespace PlcTypes

open Text

/-! ## The line of the heading -/

namespace Heading

/-- The first line that is not blank, unless a line before it cannot be had. -/
def first? : List Line → Option String
  | [] | .unreadable _ :: _ => none
  | .text s :: rest => if (trim s.toList).isEmpty then first? rest else some s

/-- A carriage return behind a line is not looked at. -/
theorem clean_append_return (s : String) : clean (s ++ "\r") = clean s := by
  have hdrop : (s.toList ++ ['\r']).dropWhile (· == '\uFEFF')
      = s.toList.dropWhile (· == '\uFEFF') ++ ['\r'] :=
    dropWhile_append_cons (by decide) s.toList []
  rw [clean, String.toList_append]
  show trim ((s.toList ++ ['\r']).dropWhile (· == '\uFEFF')) = _
  rw [hdrop]
  exact trim_append_return _

/-- Lines that are the same after trimming have the same first line after
    trimming. -/
theorem first?_congr {lines lines' : List Line} (h : List.Forall₂ Line.SameTrimmed lines lines') :
    (first? lines').map (fun s => trim s.toList) = (first? lines).map fun s => trim s.toList := by
  induction h with
  | nil => rfl
  | cons hline _ ih =>
      cases hline with
      | unreadable fault => rfl
      | text hs =>
          rw [first?, first?, hs]
          split
          · exact ih
          · exact congrArg some hs

/-- Without a mark at its start it is the same for the reader, too. -/
theorem clean_first?_of_unmarked {lines lines' : List Line}
    (h : List.Forall₂ Line.SameTrimmed lines lines')
    (hmark : ∀ s, first? lines = some s → (trim s.toList).head? ≠ some '\uFEFF') :
    (first? lines').map clean = (first? lines).map clean := by
  have hsame := first?_congr h
  cases hs : first? lines with
  | none =>
      rw [hs] at hsame
      rw [Option.map_eq_none_iff.mp hsame]
  | some s =>
      rw [hs] at hsame
      obtain ⟨s', hs', htrim⟩ := Option.map_eq_some_iff.mp hsame
      have hunmarked := hmark s hs
      rw [hs', Option.map_some, Option.map_some, clean_of_unmarked hunmarked,
        clean_of_unmarked (htrim ▸ hunmarked)]
      exact congrArg some htrim

theorem clean_first?_of_returned {lines lines' : List Line}
    (h : List.Forall₂ Line.Returned lines lines') :
    (first? lines').map clean = (first? lines).map clean := by
  induction h with
  | nil => rfl
  | @cons line _ _ _ hline _ ih =>
      cases hline with
      | same =>
          cases line with
          | unreadable fault => rfl
          | text s =>
              rw [first?, first?]
              split
              · exact ih
              · rfl
      | returned s =>
          have htrim : trim (s ++ "\r").toList = trim s.toList := by
            rw [String.toList_append]
            exact trim_append_return s.toList
          rw [first?, first?, htrim]
          split
          · exact ih
          · exact congrArg some (clean_append_return s)

/-- A heading is read in the same way from every line with the same clean text. -/
theorem ofText_congr {s s' : String} (h : clean s' = clean s) (n : Nat) (rest : List Line) :
    ofText n s' rest = ofText n s rest := by
  rw [ofText, ofText, h]

/-- **THE HEADING** is found at the same place, or is missing for the same reason. -/
theorem find_congr {lines lines' : List Line} (h : List.Forall₂ Line.SameTrimmed lines lines')
    (hclean : (first? lines').map clean = (first? lines).map clean) (n : Nat) :
    (∃ e, find n lines = .error e ∧ find n lines' = .error e) ∨
      ∃ head rest, find n lines = .ok head ∧ find n lines' = .ok { head with rest } ∧
        List.Forall₂ Line.SameTrimmed head.rest rest := by
  induction h generalizing n with
  | nil => exact Or.inl ⟨_, rfl, rfl⟩
  | @cons line line' rest rest' hline hrest ih =>
      cases hline with
      | unreadable fault => exact Or.inl ⟨_, rfl, rfl⟩
      | @text s s' hs =>
          rw [first?, first?, hs] at hclean
          rw [find, find, hs]
          split
          · next hblank =>
              rw [if_pos hblank, if_pos hblank] at hclean
              exact ih hclean (n + 1)
          · next hblank =>
              rw [if_neg hblank, if_neg hblank] at hclean
              rw [ofText_congr (Option.some.inj hclean), ofText_eq (n + 1) s rest,
                ofText_eq (n + 1) s rest']
              cases ofText (n + 1) s [] with
              | error e => exact Or.inl ⟨e, rfl, rfl⟩
              | ok head => exact Or.inr ⟨_, rest', rfl, rfl, hrest⟩

end Heading

/-! ## The lines after it -/

/-- **THE LINES** after the heading are read alike. -/
theorem Stage.run_congr {refer : String → String → Traced TypeDefinition} {owner : String}
    {lines lines' : List Line} (h : List.Forall₂ Line.SameTrimmed lines lines') (n : Nat)
    (stage : Stage) : run refer owner n stage lines' = run refer owner n stage lines := by
  induction h generalizing n stage with
  | nil => rfl
  | cons hline _ ih =>
      cases hline with
      | unreadable fault => rfl
      | text hs =>
          rw [run, run, hs]
          simp only [ih]

namespace FileSystem

variable {fs : FileSystem} {dir : Path} {lines lines' : List Line}

theorem readLines_congr (h : List.Forall₂ Line.SameTrimmed lines lines')
    (hclean : (Heading.first? lines').map Heading.clean
      = (Heading.first? lines).map Heading.clean) :
    fs.readLines dir lines' = fs.readLines dir lines := by
  rcases Heading.find_congr h hclean 0 with ⟨e, hnone, hnone'⟩ | ⟨head, rest, hfound, hfound', hrest⟩
  · rw [readLines_of_no_heading hnone, readLines_of_no_heading hnone']
  · rw [readLines_of_found hfound, readLines_of_found hfound']
    dsimp only
    rw [Stage.run_congr hrest]
    rfl

/-- Carriage returns at the ends of lines make no difference. -/
theorem readLines_of_returned (h : List.Forall₂ Line.Returned lines lines') :
    fs.readLines dir lines' = fs.readLines dir lines :=
  readLines_congr (h.imp fun _ _ hline => hline.sameTrimmed) (Heading.clean_first?_of_returned h)

end FileSystem

/-! ## Sources -/

namespace Request

/-- **BLANKS AROUND LINES DO NOT MATTER**: two sources, of whatever kind, with the
    same lines after trimming have the same answer with the same events, unless
    the first line that is not blank starts with a byte order mark when it is
    trimmed.  In particular a text or a sequence of bytes is read as before, be there
    a mark or not, when a carriage return is put before every line feed in it. -/
theorem answer_of_same_trimmed (fs : FileSystem) :
    (∀ (r r' : Request) (lines lines' : List Line), r.lines? fs = some lines →
      r'.lines? fs = some lines' → r'.dir = r.dir → List.Forall₂ Line.SameTrimmed lines lines' →
      (∀ s, Heading.first? lines = some s → (trim s.toList).head? ≠ some '\uFEFF') →
        r'.answer fs = r.answer fs) ∧
    (∀ source dir, fs.readText (returnedText source) dir = fs.readText source dir) ∧
      ∀ source dir, fs.readBytes (returnedBytes source) dir = fs.readBytes source dir := by
  refine ⟨?_, ?_, ?_⟩
  · intro r r' lines lines' hlines hlines' hdir hsame hmark
    rw [answer_eq hlines, answer_eq hlines', hdir]
    exact FileSystem.readLines_congr hsame (Heading.clean_first?_of_unmarked hsame hmark)
  · intro source dir
    exact FileSystem.readLines_of_returned (returned_linesOfText source)
  · intro source dir
    exact FileSystem.readLines_of_returned (returned_linesOfBytes source)

/-- The text of a file with other blanks around its lines, and other endings. -/
def gateIndented : String :=
  "\t TYPE \"Größe\" // 5\n VERSION : 0.1 \n  STRUCT\n    x : \"Axis\"; // left\r→\u00A0\r\n"
    ++ "  END_STRUCT;\n\u3000END_TYPE"

theorem answer_of_same_trimmed_gate :
    List.Forall₂ Line.SameTrimmed (linesOfText FileSystem.gateSource) (linesOfText gateIndented) ∧
      (∀ s, Heading.first? (linesOfText FileSystem.gateSource) = some s →
        (trim s.toList).head? ≠ some '\uFEFF') ∧
      FileSystem.gateFiles.readText gateIndented ⟨"lib"⟩
        = FileSystem.gateFiles.readPath ⟨"lib/Gate.udt"⟩ := by
  have hlines : (Request.path ⟨"lib/Gate.udt"⟩).lines? FileSystem.gateFiles
      = some (linesOfText FileSystem.gateSource) :=
    FileSystem.lines?_of_encode (by decide +kernel)
  have hsource : linesOfText FileSystem.gateSource
      = ["TYPE \"Größe\" // 5", "VERSION : 0.1", "STRUCT", "x : \"Axis\"; // left\r→",
        "END_STRUCT;", "END_TYPE\r"].map Line.text := by decide +kernel
  have hindented : linesOfText gateIndented
      = ["\t TYPE \"Größe\" // 5", " VERSION : 0.1 ", "  STRUCT",
        "    x : \"Axis\"; // left\r→\u00A0", "  END_STRUCT;", "\u3000END_TYPE"].map Line.text := by
    decide +kernel
  have hsame : List.Forall₂ Line.SameTrimmed (linesOfText FileSystem.gateSource)
      (linesOfText gateIndented) := by
    rw [hsource, hindented]
    exact .cons (.text (by decide)) <| .cons (.text (by decide)) <| .cons (.text (by decide)) <|
      .cons (.text (by decide)) <| .cons (.text (by decide)) <| .cons (.text (by decide)) .nil
  have hmark : ∀ s, Heading.first? (linesOfText FileSystem.gateSource) = some s →
      (trim s.toList).head? ≠ some '\uFEFF' := by
    intro s hs
    rw [hsource] at hs
    obtain rfl := Option.some.inj hs
    decide
  exact ⟨hsame, hmark,
    (answer_of_same_trimmed FileSystem.gateFiles).1 (.path ⟨"lib/Gate.udt"⟩)
      (.text gateIndented ⟨"lib"⟩) _ _ hlines rfl (by decide +kernel) hsame hmark⟩

end Request

end PlcTypes
