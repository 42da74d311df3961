import PlcTypes.Proofs.Loading.OuterBlanks
import PlcTypes.Proofs.Loading.Stopping
import PlcTypes.Proofs.Source.Insertion

/-! # Sources with more blank lines and remarks

    A source into which blank lines and remarks are put, where they may be put, gives
    the same definition, or an error of the same kind.  An error that a declaration
    of the source itself has names the new number of its line; an error that was
    found behind a reference is the same to the letter, for the source that is
    referred to is the same.

    The heading is found behind the lines before it, and from there on the lines
    lead where they led. -/

namespace PlcTypes

open Text Edit

/-- An error of the whole definition names no line, so that numbers may change before
    the definition is made of its members. -/
theorem Heading.conclude_renumbered (h : Heading) (name : String) (stop : Option Stop)
    (number : Nat → Nat) (body : Except Error (String × List Field)) :
    h.conclude name (body.mapError (Error.renumbered stop number))
      = (h.conclude name body).mapError (Error.renumbered stop number) := by
  cases body with
  | error e => rfl
  | ok body =>
      have hfails := h.failsWith_conclude name body
      show h.conclude name (.ok body) = _
      cases hconclude : h.conclude name (.ok body) with
      | ok t => rfl
      | error e =>
          have hlineless := (hfails e hconclude).isLineless
          exact congrArg Except.error (hlineless.renumbered_eq stop number).symm

namespace FileSystem

variable {fs : FileSystem} {dir : Path}

/-- **A SOURCE** with lines put in gives what it gave without, but for the numbers of
    its lines. -/
theorem readLines_after (es : List Edit) (h : Place.heading.allows es = true) :
    (fs.readLines dir (after es)).outcome
      = (fs.readLines dir (before es)).outcome.mapError
          (Error.renumbered (fs.stop? dir (before es)) fun line => line + inserted es (line - 1)) := by
  rcases Heading.foundAhead es h 0 0 with
    ⟨e, hnone, hnone', hlineless⟩ | ⟨head, rest, more, hhead, hfound, hfound', hallows, hlines⟩
  · rw [readLines_of_no_heading hnone, readLines_of_no_heading hnone']
    exact congrArg Except.error (hlineless.renumbered_eq _ _).symm
  · have hstop : fs.stop? dir (before es)
        = Stage.stop? (fs.referFor [head.name] dir) head.name head.line .metadata
            (before rest) := by
      rw [stop?, hfound, ← hhead]
    have hrun : Stage.RunsAhead (fs.referFor [head.name] dir) head.name head.line more .metadata
        rest := by
      refine Stage.runsAhead rest ?_ head.line more
      exact hallows
    rw [readLines_of_found hfound, readLines_of_found hfound', hstop, hhead]
    show head.conclude head.name (Stage.run _ _ (head.line + more) .metadata (after rest)).outcome
      = (head.conclude head.name (Stage.run _ _ head.line .metadata (before rest)).outcome).mapError
          _
    rw [hrun, Heading.conclude_renumbered]
    congr 1
    funext e
    refine Error.renumbered_congr (fun stop hstop' => ?_) e
    exact (hlines stop.line (Stage.lt_of_stop? hstop')).trans (by rw [Nat.add_zero, Nat.sub_zero])

/-- The line of a stop is found by its number. -/
theorem getElem?_of_stop? {lines : List Line} {stop : Stop} (h : fs.stop? dir lines = some stop) :
    1 ≤ stop.line ∧ lines[stop.line - 1]? = some stop.content := by
  obtain ⟨front, rest, rfl, hline, -⟩ := (ends_of_stop? h).front
  refine ⟨by omega, ?_⟩
  rw [hline, Nat.zero_add, Nat.add_sub_cancel, List.getElem?_append_right (Nat.le_refl _),
    Nat.sub_self]
  rfl

end FileSystem

namespace Request

/-- **BLANK LINES AND REMARKS DO NOT MATTER**: with blank lines put before the heading or
    between the version and the line that opens the members, and blank lines and remarks
    everywhere behind that line, a source is read if and only if it was read without, and
    gives the same definition.  Otherwise it fails with an error of the same kind.  If
    that is a malformed declaration on a line of the source, the number of the line is
    greater by the number of lines that are put in before the line; if it was found
    behind the reference on a line, it is the same error. -/
theorem answer_after_insertion (fs : FileSystem) (r r' : Request) {es : List Edit}
    {lines' : List Line} (hlines : r.lines? fs = some (before es))
    (hlines' : r'.lines? fs = some lines') (hreturned : List.Forall₂ Line.Returned lines' (after es))
    (hdir : r'.dir = r.dir) (hallows : Place.heading.allows es = true) :
    (∀ t, (r'.answer fs).outcome = .ok t ↔ (r.answer fs).outcome = .ok t) ∧
    ∀ e, (r.answer fs).outcome = .error e →
      ∃ e', (r'.answer fs).outcome = .error e' ∧ e'.kind = e.kind ∧
        ∀ line fault, e = .malformedField line fault →
          ∃ stop, fs.stop? r.dir (before es) = some stop ∧
            (∀ answer, stop.answer = some answer → answer.outcome = .error e ∧ e' = e) ∧
            (stop.answer = none → line = some stop.line ∧
              (before es)[stop.line - 1]? = some stop.content ∧
              (after es)[stop.line - 1 + inserted es (stop.line - 1)]? = some stop.content ∧
              e' = .malformedField (some (stop.line + inserted es (stop.line - 1))) fault) := by
  have hafter : (r'.answer fs).outcome = (r.answer fs).outcome.mapError
      (Error.renumbered (fs.stop? r.dir (before es)) fun line =>
        line + inserted es (line - 1)) := by
    rw [answer_eq hlines, answer_eq hlines', hdir, ← FileSystem.readLines_of_returned hreturned]
    exact FileSystem.readLines_after es hallows
  refine ⟨?_, ?_⟩
  · intro t
    rw [hafter]
    cases (r.answer fs).outcome with
    | error e => exact ⟨nofun, nofun⟩
    | ok t' => exact Iff.rfl
  · intro e he
    rw [he] at hafter
    refine ⟨_, hafter, e.kind_renumbered _ _, ?_⟩
    rintro line fault rfl
    rw [answer_eq hlines] at he
    obtain ⟨stop, hstop, hexplains⟩ := FileSystem.exists_stop_of_error he trivial
    have hcontent := (FileSystem.getElem?_of_stop? hstop).2
    refine ⟨stop, hstop, ?_, ?_⟩
    · intro answer hanswer
      refine ⟨hexplains.answer answer hanswer, ?_⟩
      rw [hstop, Error.renumbered_of_answer hanswer]
    · intro hnone
      obtain rfl := hexplains.field hnone line fault rfl
      refine ⟨rfl, hcontent, getElem?_after es hcontent, ?_⟩
      rw [hstop, Error.renumbered_of_no_answer hnone]
      rfl

/-- A source with a declaration that is none inside a structure. -/
def valveText : String :=
  "TYPE \"Valve\"\nVERSION : 0.1\nSTRUCT\npos : STRUCT\nraw Int;\nEND_STRUCT;"

/-- Its lines, and lines to put in. -/
def valveEdits : List Edit :=
  [.insert "", .keep (.text "TYPE \"Valve\""), .keep (.text "VERSION : 0.1"), .insert " \t",
    .keep (.text "STRUCT"), .insert "// position", .keep (.text "pos : STRUCT"),
    .insert "  // END_STRUCT;", .keep (.text "raw Int;"), .insert "", .keep (.text "END_STRUCT;")]

/-- The source with these lines, and with another ending on one line. -/
def valveRemarked : String :=
  "\nTYPE \"Valve\"\nVERSION : 0.1\n \t\nSTRUCT\n// position\npos : STRUCT\r\n  // END_STRUCT;\n"
    ++ "raw Int;\n\nEND_STRUCT;"

theorem answer_after_insertion_valve :
    linesOfText valveText = before valveEdits ∧ linesOfText valveRemarked = after valveEdits ∧
    Place.heading.allows valveEdits = true ∧
    (FileSystem.emptyFiles.readText valveText ⟨"."⟩).outcome
      = .error (.malformedField (some 5) (.grammar "raw Int;")) ∧
    (FileSystem.emptyFiles.readText valveRemarked ⟨"."⟩).outcome
      = .error (.malformedField (some 9) (.grammar "raw Int;")) := by
  have hlines : linesOfText valveText = before valveEdits := by decide +kernel
  have hlines' : linesOfText valveRemarked = after valveEdits := by decide +kernel
  have hallows : Place.heading.allows valveEdits = true := by decide +kernel
  have herror : (FileSystem.emptyFiles.readText valveText ⟨"."⟩).outcome
      = .error (.malformedField (some 5) (.grammar "raw Int;")) := by decide +kernel
  have hfive : (FileSystem.emptyFiles.stop? ⟨"."⟩ (before valveEdits)).map
      (fun stop => (stop.line, stop.answer.isNone)) = some (5, true) := by decide +kernel
  obtain ⟨-, hmoved⟩ := answer_after_insertion FileSystem.emptyFiles (.text valveText ⟨"."⟩)
    (.text valveRemarked ⟨"."⟩) (congrArg some hlines) (congrArg some hlines')
    (List.forall₂_same.mpr fun line _ => .same line) rfl hallows
  obtain ⟨e', he', -, hline⟩ := hmoved _ herror
  obtain ⟨stop, hstop, -, hown⟩ := hline (some 5) (.grammar "raw Int;") rfl
  have hstop : FileSystem.emptyFiles.stop? ⟨"."⟩ (before valveEdits) = some stop := hstop
  rw [hstop] at hfive
  obtain ⟨hnumber, hnone⟩ := Prod.mk.inj (Option.some.inj hfive)
  obtain ⟨-, -, -, rfl⟩ := hown (Option.isNone_iff_eq_none.mp hnone)
  rw [hnumber] at he'
  exact ⟨hlines, hlines', hallows, herror, he'⟩

end Request

end PlcTypes
