import PlcTypes.Proofs.Loading.Entrances
import PlcTypes.Proofs.Source.Stopping

/-! # Nothing is read behind a stop

    The stop of a source is the line that ends its definition, or the line on
    which something goes wrong; it is a line of the body or, if no heading is
    found, a line before it.  Up to its stop a source is all that counts. -/

namespace PlcTypes

open Text Grammar

/-- What is wrong with a whole definition is not said of a line. -/
theorem TypeDefinition.failsWith_create (name version : String) (fs : List Field) :
    FailsWith Error.OfWhole (create name version fs) := by
  refine (failsWith_nameOf_ofWhole name).bind fun stored => ?_
  dsimp only
  split
  · exact .error trivial
  · exact .ok _

theorem Heading.failsWith_conclude (h : Heading) (name : String) (body : String × List Field) :
    FailsWith Error.OfWhole (h.conclude name (.ok body)) :=
  (TypeDefinition.failsWith_create name body.1 body.2).map _

namespace FileSystem

variable {fs : FileSystem} {dir : Path} {lines : List Line}

/-- The line of a source that reading stops on. -/
def stop? (fs : FileSystem) (dir : Path) (lines : List Line) : Option Stop :=
  match Heading.find 0 lines with
  | .error _ => Heading.stop? 0 lines
  | .ok h => Stage.stop? (fs.referFor [h.name] dir) h.name h.line .metadata h.rest

/-- Where the reading of a source stops, it ends. -/
theorem ends_of_stop? {stop : Stop} (h : fs.stop? dir lines = some stop) :
    stop.Ends (fs.readLines dir) 0 lines := by
  rw [stop?] at h
  cases hfound : Heading.find 0 lines with
  | error e =>
      rw [hfound] at h
      have hends := Heading.ends_of_stop? hfound h
      show stop.Ends (fs.readLines dir) 0 ([] ++ lines)
      refine hends.append [] rfl ?_ ?_
      · intro more hmore
        have hnone : Heading.find 0 more = .error e :=
          (congrArg Traced.outcome hmore).trans hfound
        show fs.readLines dir more = fs.readLines dir lines
        rw [readLines_of_no_heading hnone, readLines_of_no_heading hfound]
      · intro e' he
        show (fs.readLines dir lines).outcome = .error e'
        obtain rfl : e = e' := Except.error.inj (hfound.symm.trans he)
        rw [readLines_of_no_heading hfound]
        rfl
  | ok head =>
      rw [hfound] at h
      obtain ⟨blanks, s, hlines, hline, -, -, hagain⟩ := Heading.exists_front_of_find hfound
      have hread := fun more => @readLines_of_found fs dir _ _ (hagain more)
      have hends := Stage.ends_of_stop? h
      rw [hlines]
      refine hends.append ((blanks ++ [s]).map Line.text) ?_ ?_ ?_
      · rw [hline, List.length_map, List.length_append, List.length_singleton, Nat.add_assoc]
      · intro more hmore
        rw [hread, hread]
        dsimp only
        rw [hmore]
        rfl
      · intro e he
        rw [hread]
        dsimp only
        rw [he]
        rfl

/-- An error that is about a line comes from the line that reading stops on. -/
theorem exists_stop_of_error {e : Error} (h : (fs.readLines dir lines).outcome = .error e)
    (he : e.OfLine) : ∃ stop, fs.stop? dir lines = some stop ∧ stop.Explains e := by
  rw [stop?]
  cases hfound : Heading.find 0 lines with
  | error e' =>
      rw [readLines_of_no_heading hfound] at h
      obtain rfl : e' = e := Except.error.inj h
      exact Heading.exists_stop_of_error hfound he
  | ok head =>
      rw [readLines_of_found hfound] at h
      dsimp only at h
      cases hrun : (Stage.run (fs.referFor [head.name] dir) head.name head.line .metadata
          head.rest).outcome with
      | error e' =>
          rw [hrun] at h
          obtain rfl : e' = e := Except.error.inj h
          exact Stage.exists_stop_of_error hrun he
      | ok body =>
          rw [hrun] at h
          exact absurd he (head.failsWith_conclude head.name body e h).not_ofLine

/-- Without a stop all lines of a source are read, and the next one would be,
    too. -/
theorem outcome_of_no_stop (h : fs.stop? dir lines = none) (fault : ReadFault)
    (more : List Line) :
    (fs.readLines dir (lines ++ .unreadable fault :: more)).outcome
      = .error (.unreadable fault) := by
  rw [stop?] at h
  cases hfound : Heading.find 0 lines with
  | error e =>
      rw [hfound] at h
      rw [readLines_of_no_heading (Heading.find_of_no_stop hfound h fault more)]
      rfl
  | ok head =>
      rw [hfound] at h
      obtain ⟨blanks, s, hlines, -, -, -, hagain⟩ := Heading.exists_front_of_find hfound
      rw [hlines, List.append_assoc, readLines_of_found (hagain _)]
      dsimp only
      rw [Stage.outcome_of_no_stop h]
      rfl

/-- Lines that agree up to a line hold that line at the same place. -/
theorem exists_rest_of_take {front rest lines : List Line} {content : Line}
    (h : lines.take (front.length + 1) = (front ++ content :: rest).take (front.length + 1)) :
    ∃ rest', lines = front ++ content :: rest' := by
  have htake : (front ++ content :: rest).take (front.length + 1) = front ++ [content] := by
    rw [List.take_length_add_append]
    rfl
  refine ⟨lines.drop (front.length + 1), ?_⟩
  rw [← List.singleton_append, ← List.append_assoc, ← htake, ← h, List.take_append_drop]

/-- **READING STOPS WHERE IT MUST**: if a source is read up to a stop, any
    source with the same lines up to there is read with the same result and
    the same events; at the stop something is wrong, or the definition ends.
    If there is no stop the source is read to its end, and a line behind it
    would be read, too.  An error that is about a line is explained by the
    stop: it names the number of that line, or is about a text that cannot be
    had from that line, or is the error of the reference on that line. -/
theorem readBytes_stop (fs : FileSystem) (source : List UInt8) (dir : Path) :
    (∀ stop, fs.stop? dir (linesOfBytes source) = some stop →
      (1 ≤ stop.line ∧ (linesOfBytes source)[stop.line - 1]? = some stop.content) ∧
      ((∃ e, (fs.readBytes source dir).outcome = .error e) ∨
        ∃ s, stop.content = .text s ∧ isEndType (trim s.toList) = true) ∧
      (∀ fault, stop.content = .unreadable fault →
        (fs.readBytes source dir).outcome = .error (.unreadable fault)) ∧
      ∀ other, (linesOfBytes other).take stop.line = (linesOfBytes source).take stop.line →
        fs.readBytes other dir = fs.readBytes source dir) ∧
    (fs.stop? dir (linesOfBytes source) = none → ∀ other fault more,
      linesOfBytes other = linesOfBytes source ++ .unreadable fault :: more →
        (fs.readBytes other dir).outcome = .error (.unreadable fault)) ∧
    ∀ e, (fs.readBytes source dir).outcome = .error e → e.OfLine →
      ∃ stop, fs.stop? dir (linesOfBytes source) = some stop ∧ stop.Explains e := by
  refine ⟨?_, ?_, ?_⟩
  · intro stop hstop
    have hends : stop.Ends (fs.readLines dir) 0 (linesOfBytes source) := ends_of_stop? hstop
    obtain ⟨front, rest, hlines, hline, hread⟩ := hends.front
    rw [Nat.zero_add] at hline
    refine ⟨⟨?_, ?_⟩, hends.cause, hends.unreadable, ?_⟩
    · omega
    · rw [hlines, hline, Nat.add_sub_cancel, List.getElem?_append_right (Nat.le_refl _),
        Nat.sub_self]
      rfl
    · intro other hother
      rw [hlines, hline] at hother
      obtain ⟨rest', hrest'⟩ := exists_rest_of_take hother
      show fs.readLines dir (linesOfBytes other) = fs.readLines dir (linesOfBytes source)
      rw [hrest', hread]
  · intro hnone other fault more hother
    show (fs.readLines dir (linesOfBytes other)).outcome = _
    rw [hother]
    exact outcome_of_no_stop hnone fault more
  · intro e he hline
    exact exists_stop_of_error he hline

/-- A source with a declaration that is none inside a structure, and with
    bytes behind it that are no text. -/
def valveBytes : List UInt8 :=
  Utf8.encode "TYPE \"Valve\"\nVERSION : 0.1\nSTRUCT\n\npos : STRUCT\nraw Int;\n".toList
    ++ [0xFF]

/-- A source that is the same up to that declaration. -/
def valveStart : List UInt8 :=
  Utf8.encode "TYPE \"Valve\"\nVERSION : 0.1\nSTRUCT\n\npos : STRUCT\nraw Int;".toList

/-- No files at all. -/
def emptyFiles : FileSystem := ⟨[], []⟩

theorem readBytes_stop_valve :
    (linesOfBytes valveBytes)[6]? = some (.unreadable .invalidText) ∧
      emptyFiles.readBytes valveStart ⟨"."⟩ = emptyFiles.readBytes valveBytes ⟨"."⟩ ∧
      (emptyFiles.readBytes valveBytes ⟨"."⟩).outcome
        = .error (.malformedField (some 6) (.grammar "raw Int;")) := by
  have hline : (emptyFiles.stop? ⟨"."⟩ (linesOfBytes valveBytes)).map Stop.line = some 6 := by
    decide +kernel
  obtain ⟨stop, hstop, hsix⟩ := Option.map_eq_some_iff.mp hline
  obtain ⟨-, -, -, hsame⟩ := (readBytes_stop emptyFiles valveBytes ⟨"."⟩).1 stop hstop
  refine ⟨by decide +kernel, hsame valveStart ?_, by decide +kernel⟩
  rw [hsix]
  decide +kernel

end FileSystem

end PlcTypes
