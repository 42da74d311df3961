import PlcTypes.Proofs.Source.Heading
import PlcTypes.Proofs.Source.Line

/-! # Where reading stops

    A source is read up to the line that ends the definition, up to a line on
    which something is wrong, or up to its end.  The first two are *stops*.
    What is read up to a stop does not depend on what comes behind it, and
    what goes wrong on the line of a stop is said of that very line, unless
    the line refers to another source and the fault lies there.

    The stop is found by the steps that the reader takes, so both are shown by
    the same induction on the lines: a line is a stop, or the stop is that of
    the lines behind it, one number later. -/

namespace PlcTypes

open Text Grammar

/-- A line that reading stops on. -/
structure Stop where
  /-- The number of the line. -/
  line : Nat
  content : Line
  /-- What the reference on the line means, if the line makes one. -/
  answer : Option (Traced TypeDefinition)

/-- The errors that are about a line. -/
def Error.OfLine : Error → Prop
  | malformedField .. | invalidRange .. | unreadable _ => True
  | _ => False

/-- The errors that are about a heading, or about a definition as a whole. -/
def Error.OfWhole : Error → Prop
  | malformedHeader (.expected ..) => False
  | malformedHeader _ | unterminatedStruct _ | invalidName _ => True
  | _ => False

theorem Error.OfWhole.not_ofLine {e : Error} (h : e.OfWhole) : ¬ e.OfLine := by
  cases e with
  | malformedHeader | unterminatedStruct | invalidName => exact id
  | malformedField | invalidRange | unreadable | notFound | unknownType | cyclicReference =>
      exact nomatch h

theorem failsWith_nameOf_ofWhole (s : String) : FailsWith Error.OfWhole (nameOf s) := by
  intro e he
  rw [(nameOf_eq_error.mp he).2]
  trivial

namespace Stop

variable {α : Type}

/-- A stop is where reading the lines after line `n` ends. -/
structure Ends (stop : Stop) (read : List Line → Traced α) (n : Nat) (lines : List Line) :
    Prop where
  /-- The line is there, and nothing behind it matters. -/
  front : ∃ front rest, lines = front ++ stop.content :: rest ∧
    stop.line = n + front.length + 1 ∧
      ∀ rest', read (front ++ stop.content :: rest') = read lines
  /-- Something is wrong, or the line ends the definition. -/
  cause : (∃ e, (read lines).outcome = .error e) ∨
    ∃ s, stop.content = .text s ∧ isEndType (trim s.toList) = true
  unreadable : ∀ fault, stop.content = .unreadable fault →
    (read lines).outcome = .error (.unreadable fault)

/-- An error is what went wrong on the line of a stop: with the reference that
    the line makes or, if it makes none, with the line itself. -/
structure Explains (stop : Stop) (e : Error) : Prop where
  answer : ∀ answer, stop.answer = some answer → answer.outcome = .error e
  field : stop.answer = none → ∀ line fault, e = .malformedField line fault →
    line = some stop.line
  range : stop.answer = none → ∀ line fault, e = .invalidRange line fault →
    line = some stop.line
  unreadable : stop.answer = none → ∀ fault, e = .unreadable fault →
    stop.content = .unreadable fault

/-- A line that cannot be had is the cause of the error that it gives. -/
theorem explains_unreadable (n : Nat) (fault : ReadFault) :
    Explains ⟨n, .unreadable fault, none⟩ (.unreadable fault) := by
  refine ⟨nofun, nofun, nofun, ?_⟩
  intro _ fault' hfault
  obtain rfl := Error.unreadable.inj hfault
  rfl

/-- A line that is not passed over is a stop. -/
theorem ends_here {stop : Stop} {read : List Line → Traced α} {n : Nat} {rest : List Line}
    {result : Traced α} (hline : stop.line = n + 1)
    (hread : ∀ rest', read (stop.content :: rest') = result)
    (hcause : (∃ e, result.outcome = .error e) ∨
      ∃ s, stop.content = .text s ∧ isEndType (trim s.toList) = true)
    (hunreadable : ∀ fault, stop.content = .unreadable fault →
      result.outcome = .error (.unreadable fault)) :
    stop.Ends read n (stop.content :: rest) where
  front := ⟨[], rest, rfl, hline, fun rest' => (hread rest').trans (hread rest).symm⟩
  cause := by
    rw [hread]
    exact hcause
  unreadable := by
    rw [hread]
    exact hunreadable

/-- A line on which something is wrong is a stop. -/
theorem ends_in_error {stop : Stop} {read : List Line → Traced α} {n : Nat}
    {events : List Event} {e : Error} (hline : stop.line = n + 1)
    (hread : ∀ rest', read (stop.content :: rest') = ⟨events, .error e⟩)
    (hunreadable : ∀ fault, stop.content = .unreadable fault → e = .unreadable fault)
    (rest : List Line) : stop.Ends read n (stop.content :: rest) := by
  refine ends_here hline hread (Or.inl ⟨e, rfl⟩) ?_
  intro fault hfault
  rw [hunreadable fault hfault]

/-- A stop is still one when more is read before it. -/
theorem Ends.append {β : Type} {stop : Stop} {read : List Line → Traced α}
    {read' : List Line → Traced β} {n n' : Nat} {lines : List Line}
    (h : stop.Ends read n lines) (before : List Line) (hn : n = n' + before.length)
    (hsame : ∀ more, read more = read lines → read' (before ++ more) = read' (before ++ lines))
    (hfails : ∀ e, (read lines).outcome = .error e →
      (read' (before ++ lines)).outcome = .error e) :
    stop.Ends read' n' (before ++ lines) where
  front := by
    obtain ⟨front, rest, hlines, hline, hread⟩ := h.front
    refine ⟨before ++ front, rest, ?_, ?_, ?_⟩
    · rw [hlines, List.append_assoc]
    · rw [hline, hn, List.length_append]
      omega
    · intro rest'
      rw [List.append_assoc]
      exact hsame _ (hread rest')
  cause := by
    rcases h.cause with ⟨e, he⟩ | hend
    · exact Or.inl ⟨e, hfails e he⟩
    · exact Or.inr hend
  unreadable := fun fault hfault => hfails _ (h.unreadable fault hfault)

end Stop

namespace Stage

/-! ## All lines after the heading -/

/-- The line that reading the lines after line `n` stops on. -/
def stop? (refer : String → String → Traced TypeDefinition) (owner : String) (n : Nat)
    (stage : Stage) : List Line → Option Stop
  | [] => none
  | .unreadable fault :: _ => some ⟨n + 1, .unreadable fault, none⟩
  | .text s :: rest =>
      match (stage.step refer owner (n + 1) (trim s.toList)).outcome with
      | .ok (.more next) => stop? refer owner (n + 1) next rest
      | _ =>
          some
            { line := n + 1
              content := .text s
              answer := (stage.reference? (trim s.toList)).map fun (_, _, r) =>
                refer r.field r.target }

section Run

variable {refer : String → String → Traced TypeDefinition} {owner : String} {n : Nat}
  {stage : Stage}

/-- Where reading stops, it ends. -/
theorem ends_of_stop? {lines : List Line} {stop : Stop}
    (h : stop? refer owner n stage lines = some stop) :
    stop.Ends (run refer owner n stage) n lines := by
  induction lines generalizing n stage with
  | nil => exact nomatch h
  | cons line rest ih =>
      cases line with
      | unreadable fault =>
          obtain rfl := Option.some.inj h
          refine Stop.ends_in_error rfl (fun rest' => rfl) ?_ rest
          intro fault' hfault
          obtain rfl := Line.unreadable.inj hfault
          rfl
      | text s =>
          rw [stop?] at h
          cases hstep : (stage.step refer owner (n + 1) (trim s.toList)).outcome with
          | error e =>
              rw [hstep] at h
              obtain rfl := Option.some.inj h
              have hrun : ∀ more, run refer owner n stage (.text s :: more)
                  = ⟨(stage.step refer owner (n + 1) (trim s.toList)).events, .error e⟩ :=
                fun more => Traced.bind_of_error hstep _
              refine Stop.ends_in_error rfl hrun ?_ rest
              exact fun fault hfault => nomatch hfault
          | ok p =>
              rw [hstep] at h
              cases p with
              | done v fs =>
                  obtain rfl := Option.some.inj h
                  have hrun : ∀ more, run refer owner n stage (.text s :: more)
                      = ⟨(stage.step refer owner (n + 1) (trim s.toList)).events ++ [],
                        .ok (v, fs)⟩ :=
                    fun more => Traced.bind_of_ok hstep _
                  exact Stop.ends_here rfl hrun
                    (Or.inr ⟨s, rfl, isEndType_of_step_done hstep⟩) nofun
              | more next =>
                  -- the lines behind this one are read from the next stage
                  refine (ih h).append [.text s] rfl ?_ ?_
                  · intro more hmore
                    show run refer owner n stage (.text s :: more)
                      = run refer owner n stage (.text s :: rest)
                    rw [run_of_step_more hstep, run_of_step_more hstep, hmore]
                  · intro e he
                    show (run refer owner n stage (.text s :: rest)).outcome = .error e
                    rw [run_of_step_more hstep]
                    exact he

/-- Without a stop all lines are read, and the next one would be, too. -/
theorem outcome_of_no_stop {lines : List Line} (h : stop? refer owner n stage lines = none)
    (fault : ReadFault) (more : List Line) :
    (run refer owner n stage (lines ++ .unreadable fault :: more)).outcome
      = .error (.unreadable fault) := by
  induction lines generalizing n stage with
  | nil => rfl
  | cons line rest ih =>
      cases line with
      | unreadable fault' => exact nomatch h
      | text s =>
          rw [stop?] at h
          rw [List.cons_append, run]
          cases hstep : (stage.step refer owner (n + 1) (trim s.toList)).outcome with
          | error e =>
              rw [hstep] at h
              exact nomatch h
          | ok p =>
              rw [hstep] at h
              rw [Traced.bind_of_ok hstep]
              cases p with
              | done v fs => exact nomatch h
              | more next => exact ih h

/-- At the end of a source an error is about all of it. -/
theorem failsWith_finish (stage : Stage) (owner : String) :
    FailsWith Error.OfWhole (stage.finish owner).outcome := by
  intro e h
  cases stage with
  | metadata | version | opening | members =>
      obtain rfl := Except.error.inj h
      trivial
  | footer v fs => exact nomatch h

/-- An error that is about a line comes from the line that reading stops on. -/
theorem exists_stop_of_error {lines : List Line} {e : Error}
    (h : (run refer owner n stage lines).outcome = .error e) (he : e.OfLine) :
    ∃ stop, stop? refer owner n stage lines = some stop ∧ stop.Explains e := by
  induction lines generalizing n stage with
  | nil => exact absurd he (failsWith_finish stage owner e h).not_ofLine
  | cons line rest ih =>
      cases line with
      | unreadable fault =>
          obtain rfl := Except.error.inj h
          exact ⟨_, rfl, Stop.explains_unreadable (n + 1) fault⟩
      | text s =>
          rw [run] at h
          rw [stop?]
          cases hstep : (stage.step refer owner (n + 1) (trim s.toList)).outcome with
          | ok p =>
              rw [Traced.bind_of_ok hstep] at h
              cases p with
              | done v fs => exact nomatch h
              | more next => exact ih h
          | error e' =>
              rw [Traced.bind_of_error hstep] at h
              obtain rfl : e' = e := Except.error.inj h
              refine ⟨_, rfl, ?_⟩
              cases href : stage.reference? (trim s.toList) with
              | none =>
                  have hown := isOwn_of_step_error href hstep
                  exact ⟨nofun, fun _ => hown.field, fun _ => hown.range,
                    fun _ fault hfault => absurd hfault (hown.unreadable fault)⟩
              | some found =>
                  obtain ⟨v, ms, r⟩ := found
                  refine ⟨?_, nofun, nofun, nofun⟩
                  intro answer hanswer
                  obtain rfl := Option.some.inj hanswer
                  exact refer_of_step_error href hstep

end Run

end Stage

/-! ## Looking for the heading -/

namespace Heading

/-- The line that looking for a heading after line `n` stops on. -/
def stop? (n : Nat) : List Line → Option Stop
  | [] => none
  | .unreadable fault :: _ => some ⟨n + 1, .unreadable fault, none⟩
  | .text s :: rest =>
      if (trim s.toList).isEmpty then stop? (n + 1) rest else some ⟨n + 1, .text s, none⟩

variable {n : Nat} {lines : List Line} {e : Error}

/-- What is wrong with a heading is not said of its line. -/
theorem failsWith_ofText (n : Nat) (s : String) (rest : List Line) :
    FailsWith Error.OfWhole (ofText n s rest) := by
  rw [ofText]
  split
  · exact .error trivial
  · exact (failsWith_nameOf_ofWhole _).bind fun _ => .ok _

/-- Where no heading is found, looking for it ends at the stop. -/
theorem ends_of_stop? (hnone : find n lines = .error e) {stop : Stop}
    (h : stop? n lines = some stop) :
    stop.Ends (fun lines => Traced.lift (find n lines)) n lines := by
  induction lines generalizing n with
  | nil => cases h
  | cons line rest ih =>
      cases line with
      | unreadable fault =>
          obtain rfl := Option.some.inj h
          refine Stop.ends_in_error rfl (fun rest' => rfl) ?_ rest
          intro fault' hfault
          obtain rfl := Line.unreadable.inj hfault
          rfl
      | text s =>
          by_cases hblank : (trim s.toList).isEmpty = true
          · have hfind : ∀ more, find n (.text s :: more) = find (n + 1) more := fun more =>
              if_pos hblank
            rw [stop?, if_pos hblank] at h
            rw [hfind] at hnone
            refine (ih hnone h).append [.text s] rfl ?_ ?_
            · intro more hmore
              show Traced.lift (find n (.text s :: more)) = Traced.lift (find n (.text s :: rest))
              rw [hfind, hfind, hmore]
            · intro e' he
              show find n (.text s :: rest) = .error e'
              rw [hfind]
              exact he
          · rw [stop?, if_neg hblank] at h
            obtain rfl := Option.some.inj h
            have hfind : ∀ more, find n (.text s :: more) = .error e := by
              intro more
              rw [find, if_neg hblank, ofText_eq] at hnone ⊢
              cases hbare : ofText (n + 1) s [] with
              | error e' =>
                  rw [hbare] at hnone
                  exact hnone
              | ok bare =>
                  rw [hbare] at hnone
                  cases hnone
            have hlift : ∀ more, Traced.lift (find n (.text s :: more)) = ⟨[], .error e⟩ :=
              fun more => congrArg Traced.lift (hfind more)
            refine Stop.ends_in_error rfl hlift ?_ rest
            intro fault hfault
            cases hfault

theorem find_of_no_stop (hnone : find n lines = .error e) (h : stop? n lines = none)
    (fault : ReadFault) (more : List Line) :
    find n (lines ++ .unreadable fault :: more) = .error (.unreadable fault) := by
  induction lines generalizing n with
  | nil => rfl
  | cons line rest ih =>
      cases line with
      | unreadable fault' => cases h
      | text s =>
          by_cases hblank : (trim s.toList).isEmpty = true
          · rw [find, if_pos hblank] at hnone
            rw [stop?, if_pos hblank] at h
            rw [List.cons_append, find, if_pos hblank]
            exact ih hnone h
          · rw [stop?, if_neg hblank] at h
            cases h

theorem exists_stop_of_error (hnone : find n lines = .error e) (he : e.OfLine) :
    ∃ stop, stop? n lines = some stop ∧ stop.Explains e := by
  induction lines generalizing n with
  | nil =>
      obtain rfl := Except.error.inj hnone
      exact absurd he id
  | cons line rest ih =>
      cases line with
      | unreadable fault =>
          obtain rfl := Except.error.inj hnone
          exact ⟨_, rfl, Stop.explains_unreadable (n + 1) fault⟩
      | text s =>
          by_cases hblank : (trim s.toList).isEmpty = true
          · rw [find, if_pos hblank] at hnone
            rw [stop?, if_pos hblank]
            exact ih hnone
          · rw [find, if_neg hblank] at hnone
            exact absurd he (failsWith_ofText (n + 1) s rest e hnone).not_ofLine

end Heading

end PlcTypes
