import PlcTypes.Proofs.Grammar.BodyLine
import PlcTypes.Proofs.Source.Stopping

/-! # Lines that are put into a source

    Blank lines may be put before the heading and before the line that opens the
    members; behind that line blank lines and remarks may be put everywhere.  The
    reader passes over all of them and is in the same stage as before, so the lines
    of the source lead where they led, and what is wrong with one of them is still
    wrong, on a line with a greater number.

    A source and the source with more lines are given together, as one list of
    edits.  The two runs are compared by induction on the edits: the second is ahead
    by the number of lines that have been put in, and a step that makes no reference
    depends on the number of its line only in the error that names it. -/

namespace PlcTypes

open Text Grammar

/-! ## Errors by their line -/

/-- The causes of errors, without what an error says of its cause. -/
inductive ErrorKind where
  | unreadable
  | notFound
  | malformedHeader
  | malformedField
  | unterminatedStruct
  | invalidRange
  | invalidName
  | unknownType
  | cyclicReference
deriving DecidableEq, Repr

namespace Error

/-- The kind of an error. -/
def kind : Error → ErrorKind
  | unreadable _ => .unreadable
  | notFound _ => .notFound
  | malformedHeader _ => .malformedHeader
  | malformedField .. => .malformedField
  | unterminatedStruct _ => .unterminatedStruct
  | invalidRange .. => .invalidRange
  | invalidName _ => .invalidName
  | unknownType _ => .unknownType
  | cyclicReference .. => .cyclicReference

/-- An error that names a line, with line `n` in its place. -/
def onLine (n : Nat) : Error → Error
  | malformedHeader (.expected _ due found) => malformedHeader (.expected n due found)
  | malformedField (some _) fault => malformedField (some n) fault
  | invalidRange (some _) fault => invalidRange (some n) fault
  | e => e


/-- Whether an error names no line. -/
def IsLineless (e : Error) : Prop :=
  ∀ n, e.onLine n = e

theorem OfWhole.isLineless {e : Error} (h : e.OfWhole) : e.IsLineless := by
  intro n
  fun_cases onLine n e with
  | case1 | case2 | case3 => exact nomatch h
  | case4 => rfl

theorem kind_onLine (n : Nat) (e : Error) : (e.onLine n).kind = e.kind := by
  fun_cases onLine n e with
  | case1 | case2 | case3 | case4 => rfl

/-- The error of a declaration is placed on the line of the declaration. -/
theorem onLine_at {e : Error} (h : e.OfDeclaration) (n n' : Nat) :
    (e.at n).onLine n' = e.at n' := by
  cases e with
  | malformedField | invalidRange | invalidName | unknownType => rfl
  | unreadable | notFound | malformedHeader | unterminatedStruct | cyclicReference =>
      exact nomatch h

end Error

/-! ## Edits -/

/-- A line of a source with more lines: one of the source, or one that was put
    in. -/
inductive Edit where
  | keep (line : Line)
  | insert (text : String)

namespace Edit

/-- The lines of the source. -/
def before : List Edit → List Line
  | [] => []
  | keep line :: es => line :: before es
  | insert _ :: es => before es

/-- The lines of the source with more lines. -/
def after : List Edit → List Line
  | [] => []
  | keep line :: es => line :: after es
  | insert text :: es => .text text :: after es

/-- How many lines are put in before the line of the source with index `k`. -/
def inserted : List Edit → Nat → Nat
  | [], _ | keep _ :: _, 0 => 0
  | keep _ :: es, k + 1 => inserted es k
  | insert _ :: es, k => inserted es k + 1

/-- The lines before line `line` are counted from line `n`, or from the next if that is
    one of the source. -/
theorem inserted_keep (first : Line) (es : List Edit) {n line : Nat} (h : n + 1 < line) :
    inserted (.keep first :: es) (line - n - 1) = inserted es (line - (n + 1) - 1) := by
  have hindex : line - n - 1 = line - (n + 1) - 1 + 1 := by omega
  rw [hindex]
  rfl

/-- A line of the source is found behind the lines that are put in before it. -/
theorem getElem?_after (es : List Edit) {k : Nat} {line : Line} (h : (before es)[k]? = some line) :
    (after es)[k + inserted es k]? = some line := by
  induction es generalizing k with
  | nil => exact nomatch h
  | cons e es ih =>
      cases e with
      | insert text =>
          show (Line.text text :: after es)[k + inserted es k + 1]? = some line
          rw [List.getElem?_cons_succ]
          exact ih h
      | keep first =>
          cases k with
          | zero => exact h
          | succ k =>
              show (first :: after es)[k + 1 + inserted es k]? = some line
              rw [Nat.add_right_comm, List.getElem?_cons_succ]
              exact ih h

end Edit

/-! ## Places -/

/-- Where in a source a line stands. -/
inductive Place where
  /-- Before the heading, or it is the heading. -/
  | heading
  /-- Behind the heading. -/
  | metadata
  /-- Behind a line of metadata. -/
  | version
  /-- Behind the version, before the line that opens the members, or it is that
      line. -/
  | opening
  /-- Behind the line that opens the members. -/
  | body
deriving DecidableEq, Repr

namespace Place

/-- Whether a line may be put in at a place. -/
def admits (text : String) : Place → Bool
  | heading | opening => (trim text.toList).isEmpty
  | metadata | version => false
  | body => (trim text.toList).isEmpty || atComment (trim text.toList)

/-- The place behind a line of the source.  Behind a line that is not the one due,
    or that cannot be had, nothing is read. -/
def next : Place → Line → Place
  | heading, .text s => if (trim s.toList).isEmpty then heading else metadata
  | metadata, .text s => if (version? (trim s.toList)).isSome then opening else version
  | version, .text _ => opening
  | opening, .text s => if (trim s.toList).isEmpty then opening else body
  | body, .text _ | _, .unreadable _ => body

/-- Whether each line that is put in may be put in where it is. -/
def allows : Place → List Edit → Bool
  | _, [] => true
  | p, .keep line :: es => allows (p.next line) es
  | p, .insert text :: es => p.admits text && allows p es

end Place

/-- The place of the next line. -/
def Stage.place : Stage → Place
  | metadata => .metadata
  | version => .version
  | opening _ => .opening
  | members .. | footer .. => .body

/-! ## One line -/

namespace Stage

variable {refer : String → String → Traced TypeDefinition} {owner : String} {n : Nat}
  {cs : List Char} {stage : Stage}

/-- **A LINE THAT IS PUT IN** is passed over. -/
theorem step_of_admits {text : String} (h : stage.place.admits text = true) :
    (stage.step refer owner n (trim text.toList)).outcome = .ok (.more stage) := by
  refine LeadsTo.step_ok ?_ owner n
  cases stage with
  | metadata | version => exact nomatch h
  | opening v => exact .gap (List.isEmpty_iff.mp h)
  | members v ms =>
      refine .skip ?_
      rw [BodyLine.ofText]
      rcases Bool.or_eq_true_iff.mp h with hblank | hremark
      · rw [if_pos hblank]
        exact Or.inl rfl
      · by_cases hblank : (trim text.toList).isEmpty = true
        · rw [if_pos hblank]
          exact Or.inl rfl
        · rw [if_neg hblank, if_pos hremark]
          exact Or.inr rfl
  | footer v fs =>
      by_cases hblank : trim text.toList = []
      · exact .blank hblank
      · rcases Bool.or_eq_true_iff.mp h with hempty | hremark
        · exact absurd (List.isEmpty_iff.mp hempty) hblank
        · exact .ignored hblank (isEndType_of_atComment hremark)

/-- The stage behind a line is at the place behind the line. -/
theorem place_of_leadsTo {next : Stage} {s : String}
    (h : LeadsTo refer (trim s.toList) stage (.more next)) :
    next.place = stage.place.next (.text s) := by
  cases h with
  | metadata h =>
      show Place.version = if _ then _ else _
      rw [h]
      rfl
  | early h =>
      show Place.opening = if _ then _ else _
      rw [h]
      rfl
  | version h => rfl
  | gap h =>
      show Place.opening = if _ then _ else _
      rw [h]
      rfl
  | opening hgap h =>
      show Place.body = if _ then _ else _
      rw [if_neg (List.isEmpty_iff.not.mpr hgap)]
  | @closing v ms h =>
      rw [close]
      split
      · rfl
      · rfl
  | skip | declaration | blank | ignored => rfl

/-- A declaration without a reference depends on the number of its line only in the
    error that names it. -/
theorem declare_onLine {ms : Members} {d : Declaration}
    (href : ∀ name target, nameOf d.name = .ok name → d.spec ≠ .reference target) (n n' : Nat) :
    (declare refer n' ms d).outcome
      = (declare refer n ms d).outcome.mapError (Error.onLine n') := by
  rw [declare, declare]
  cases hname : nameOf d.name with
  | error e =>
      rw [(nameOf_eq_error.mp hname).2]
      rfl
  | ok name =>
      rw [Traced.lift_ok, pure_bind, pure_bind]
      cases hspec : d.spec with
      | struct => rfl
      | reference target => exact absurd hspec (href name target hname)
      | plain spec =>
          dsimp only
          cases hfield : spec.field name d.comment with
          | ok f => rfl
          | error e =>
              show Except.error (e.at n') = Except.error ((e.at n).onLine n')
              rw [Error.onLine_at (spec.failsWith_field name d.comment e hfield)]

/-- **A LINE OF THE SOURCE** that makes no reference depends on its number only in
    the error that names it. -/
theorem step_onLine (href : stage.reference? cs = none) (n n' : Nat) :
    (stage.step refer owner n' cs).outcome
      = (stage.step refer owner n cs).outcome.mapError (Error.onLine n') := by
  cases stage with
  | metadata | version =>
      rw [step, step]
      cases version? cs with
      | some v => rfl
      | none => rfl
  | opening v =>
      rw [step, step]
      split
      · rfl
      · split
        · rfl
        · rfl
  | members v ms =>
      rw [reference?] at href
      rw [step, step]
      cases hline : BodyLine.ofText cs with
      | blank | remark | closing | malformed => rfl
      | declaration d =>
          rw [hline] at href
          have hplain : ∀ name target, nameOf d.name = .ok name → d.spec ≠ .reference target := by
            intro name target hname hspec
            simp only [hname, hspec] at href
            cases href
          have hdeclare : (declare refer n' ms d).outcome
              = (declare refer n ms d).outcome.mapError (Error.onLine n') :=
            declare_onLine hplain n n'
          dsimp only
          cases hms : (declare refer n ms d).outcome with
          | ok ms' =>
              rw [hms] at hdeclare
              rw [Traced.bind_of_ok hms, Traced.bind_of_ok hdeclare]
              rfl
          | error e =>
              rw [hms] at hdeclare
              rw [Traced.bind_of_error hms, Traced.bind_of_error hdeclare]
              rfl
  | footer v fs =>
      rw [step, step]
      split
      · rfl
      · split
        · rfl
        · rfl

/-- What goes wrong with a reference does not depend on the number of its line. -/
theorem step_of_reference_congr {v : String} {ms : Members} {r : Reference}
    (href : stage.reference? cs = some (v, ms, r)) (n n' : Nat) :
    stage.step refer owner n' cs = stage.step refer owner n cs := by
  rw [step_of_reference? href refer, step_of_reference? href refer]

end Stage

/-! ## All lines -/

/-- The error of a source, when its lines get other numbers: an error of the line that
    reading stops on, unless that line makes a reference, names the new number of
    that line. -/
def Error.renumbered (stop : Option Stop) (number : Nat → Nat) (e : Error) : Error :=
  match stop with
  | some ⟨line, _, none⟩ => e.onLine (number line)
  | _ => e

theorem Error.renumbered_of_no_answer {stop : Stop} (h : stop.answer = none)
    (number : Nat → Nat) (e : Error) :
    e.renumbered (some stop) number = e.onLine (number stop.line) := by
  obtain ⟨line, content, answer⟩ := stop
  subst h
  rfl

theorem Error.renumbered_of_answer {stop : Stop} {answer : Traced TypeDefinition}
    (h : stop.answer = some answer) (number : Nat → Nat) (e : Error) :
    e.renumbered (some stop) number = e := by
  obtain ⟨line, content, answer⟩ := stop
  subst h
  rfl

theorem Error.IsLineless.renumbered_eq {e : Error} (h : e.IsLineless) (stop : Option Stop)
    (number : Nat → Nat) : e.renumbered stop number = e := by
  fun_cases Error.renumbered stop number e with
  | case1 line content => exact h _
  | case2 => rfl

theorem Error.kind_renumbered (stop : Option Stop) (number : Nat → Nat) (e : Error) :
    (e.renumbered stop number).kind = e.kind := by
  fun_cases Error.renumbered stop number e with
  | case1 line content => exact e.kind_onLine _
  | case2 => rfl

/-- Only the new number of the stop matters. -/
theorem Error.renumbered_congr {stop : Option Stop} {number number' : Nat → Nat}
    (h : ∀ s, stop = some s → number s.line = number' s.line) (e : Error) :
    e.renumbered stop number = e.renumbered stop number' := by
  cases stop with
  | none => rfl
  | some s =>
      cases hanswer : s.answer with
      | none =>
          rw [renumbered_of_no_answer hanswer, renumbered_of_no_answer hanswer, h s rfl]
      | some answer => rw [renumbered_of_answer hanswer, renumbered_of_answer hanswer]

namespace Stage

variable {refer : String → String → Traced TypeDefinition} {owner : String} {n : Nat}
  {stage : Stage}

/-- A stop is behind the line that has been read last. -/
theorem lt_of_stop? {lines : List Line} {stop : Stop}
    (h : stop? refer owner n stage lines = some stop) : n < stop.line := by
  obtain ⟨front, rest, -, hline, -⟩ := (ends_of_stop? h).front
  omega

/-- Where a line leads on, the stop is that of the lines behind it. -/
theorem stop?_of_more {next : Stage} {s : String} {rest : List Line}
    (h : (stage.step refer owner (n + 1) (trim s.toList)).outcome = .ok (.more next)) :
    stop? refer owner n stage (.text s :: rest) = stop? refer owner (n + 1) next rest := by
  rw [stop?, h]

theorem outcome_run_of_more {next : Stage} {s : String} {rest : List Line}
    (h : (stage.step refer owner (n + 1) (trim s.toList)).outcome = .ok (.more next)) :
    (run refer owner n stage (.text s :: rest)).outcome
      = (run refer owner (n + 1) next rest).outcome := by
  rw [run_of_step_more h]

open Edit

/-- With lines put in a source gives what it gave without: the same, or the same error
    but for the number of its line.  There are `ahead` lines more before all of it. -/
def RunsAhead (refer : String → String → Traced TypeDefinition) (owner : String) (n ahead : Nat)
    (stage : Stage) (es : List Edit) : Prop :=
  (run refer owner (n + ahead) stage (after es)).outcome
    = (run refer owner n stage (before es)).outcome.mapError
        (Error.renumbered (stop? refer owner n stage (before es)) fun line =>
          line + ahead + inserted es (line - n - 1))

/-- The end of a source is on no line. -/
theorem runsAhead_nil (ahead : Nat) : RunsAhead refer owner n ahead stage [] := by
  show (stage.finish owner).outcome = (stage.finish owner).outcome.mapError id
  cases (stage.finish owner).outcome with
  | error e => rfl
  | ok b => rfl

theorem runsAhead_insert {text : String} {ahead : Nat} {es : List Edit}
    (h : stage.place.admits text = true) (hrest : RunsAhead refer owner n (ahead + 1) stage es) :
    RunsAhead refer owner n ahead stage (.insert text :: es) := by
  show (run refer owner (n + ahead) stage (.text text :: after es)).outcome = _
  rw [outcome_run_of_more (step_of_admits h), Nat.add_assoc, hrest]
  -- one line more is ahead, which was to be put in before
  congr 1
  funext e
  refine Error.renumbered_congr (fun stop _ => ?_) e
  show stop.line + (ahead + 1) + inserted es _ = stop.line + ahead + (inserted es _ + 1)
  omega

theorem runsAhead_unreadable (fault : ReadFault) (ahead : Nat) (es : List Edit) :
    RunsAhead refer owner n ahead stage (.keep (.unreadable fault) :: es) := rfl

/-- From a line that leads on, the lines behind it count. -/
theorem runsAhead_of_more {next : Stage} {s : String} {ahead : Nat} {es : List Edit}
    (h : (stage.step refer owner (n + 1) (trim s.toList)).outcome = .ok (.more next))
    (hrest : RunsAhead refer owner (n + 1) ahead next es) :
    RunsAhead refer owner n ahead stage (.keep (.text s) :: es) := by
  have h' := (leadsTo_of_step h).step_ok owner (n + ahead + 1)
  show (run refer owner (n + ahead) stage (.text s :: after es)).outcome
    = (run refer owner n stage (.text s :: before es)).outcome.mapError
        (Error.renumbered (stop? refer owner n stage (.text s :: before es)) _)
  rw [outcome_run_of_more h, outcome_run_of_more h', stop?_of_more h, Nat.add_right_comm, hrest]
  congr 1
  funext e
  refine Error.renumbered_congr (fun stop hstop => ?_) e
  -- the stop is one of the lines behind this one
  rw [inserted_keep (.text s) es (lt_of_stop? hstop)]

/-- At a line on which something is wrong it is still wrong. -/
theorem runsAhead_of_error {e : Error} {s : String} {ahead : Nat} {es : List Edit}
    (h : (stage.step refer owner (n + 1) (trim s.toList)).outcome = .error e) :
    RunsAhead refer owner n ahead stage (.keep (.text s) :: es) := by
  show (stage.step refer owner (n + ahead + 1) (trim s.toList) >>= _).outcome
    = (stage.step refer owner (n + 1) (trim s.toList) >>= _).outcome.mapError
        (Error.renumbered (stop? refer owner n stage (.text s :: before es)) _)
  rw [Traced.bind_of_error h, stop?, h]
  cases href : stage.reference? (trim s.toList) with
  | none =>
      have h' : (stage.step refer owner (n + ahead + 1) (trim s.toList)).outcome
          = (stage.step refer owner (n + 1) (trim s.toList)).outcome.mapError
              (Error.onLine (n + ahead + 1)) := step_onLine href (n + 1) (n + ahead + 1)
      rw [h] at h'
      rw [Traced.bind_of_error h']
      -- no line has been put in between the lines ahead and this one
      have hnumber : n + 1 + ahead + inserted (.keep (.text s) :: es) (n + 1 - n - 1)
          = n + ahead + 1 := by
        rw [Nat.add_sub_cancel_left]
        show n + 1 + ahead + 0 = n + ahead + 1
        omega
      exact congrArg (fun k => Except.error (e.onLine k)) hnumber.symm
  | some asked =>
      obtain ⟨v, ms, r⟩ := asked
      have h' : (stage.step refer owner (n + ahead + 1) (trim s.toList)).outcome = .error e := by
        rw [step_of_reference_congr href (n + 1), h]
      rw [Traced.bind_of_error h']
      rfl

/-- **ALL LINES** lead where they led. -/
theorem runsAhead (es : List Edit) (h : stage.place.allows es = true) (n ahead : Nat) :
    RunsAhead refer owner n ahead stage es := by
  induction es generalizing n ahead stage with
  | nil => exact runsAhead_nil ahead
  | cons e es ih =>
      cases e with
      | insert text =>
          obtain ⟨hadmits, hrest⟩ := Bool.and_eq_true_iff.mp h
          exact runsAhead_insert hadmits (ih hrest n (ahead + 1))
      | keep line =>
          cases line with
          | unreadable fault => exact runsAhead_unreadable fault ahead es
          | text s =>
              cases hstep : (stage.step refer owner (n + 1) (trim s.toList)).outcome with
              | error e => exact runsAhead_of_error hstep
              | ok p =>
                  have hleads := leadsTo_of_step hstep
                  cases p with
                  | more next =>
                      refine runsAhead_of_more hstep (ih ?_ (n + 1) ahead)
                      rw [place_of_leadsTo hleads]
                      exact h
                  | done v fs =>
                      have hstep' := hleads.step_ok owner (n + ahead + 1)
                      show (stage.step refer owner (n + ahead + 1) (trim s.toList) >>= _).outcome
                        = (stage.step refer owner (n + 1) (trim s.toList) >>= _).outcome.mapError _
                      rw [Traced.bind_of_ok hstep, Traced.bind_of_ok hstep']
                      rfl

end Stage

/-! ## The heading -/

namespace Heading

open Edit

/-- With lines put in before it the heading is found, with what is put in behind it, or it
    is missing for the same reason.  There are `ahead` lines more before all of it. -/
def FoundAhead (n ahead : Nat) (es : List Edit) : Prop :=
  (∃ e, find n (before es) = .error e ∧ find (n + ahead) (after es) = .error e ∧
      e.IsLineless) ∨
    ∃ head rest more, head.rest = before rest ∧ find n (before es) = .ok head ∧
      find (n + ahead) (after es)
        = .ok { head with line := head.line + more, rest := after rest } ∧
      Place.metadata.allows rest = true ∧
      ∀ line, head.line < line → line + more + inserted rest (line - head.line - 1)
        = line + ahead + inserted es (line - n - 1)

theorem foundAhead_insert {text : String} {n ahead : Nat} {es : List Edit}
    (h : Place.heading.admits text = true) (hrest : FoundAhead n (ahead + 1) es) :
    FoundAhead n ahead (.insert text :: es) := by
  have hfind : find (n + ahead) (after (.insert text :: es)) = find (n + (ahead + 1)) (after es) :=
    if_pos h
  rw [FoundAhead, hfind]
  refine hrest.imp_right ?_
  rintro ⟨head, rest, more, hhead, hfound, hfound', hallows, hlines⟩
  refine ⟨head, rest, more, hhead, hfound, hfound', hallows, fun line hline => ?_⟩
  rw [hlines line hline]
  show line + (ahead + 1) + inserted es _ = line + ahead + (inserted es _ + 1)
  omega

/-- Behind a blank line the heading is looked for in the same way. -/
theorem foundAhead_of_blank {s : String} {n ahead : Nat} {es : List Edit}
    (h : (trim s.toList).isEmpty = true) (hrest : FoundAhead (n + 1) ahead es) :
    FoundAhead n ahead (.keep (.text s) :: es) := by
  rw [FoundAhead, before, after, find, find, if_pos h, if_pos h, Nat.add_right_comm]
  refine hrest.imp_right ?_
  rintro ⟨head, rest, more, hhead, hfound, hfound', hallows, hlines⟩
  refine ⟨head, rest, more, hhead, hfound, hfound', hallows, fun line hline => ?_⟩
  -- the heading is one of the lines behind this one
  have hlt : n + 1 < head.line := by
    obtain ⟨blanks, s', -, hline', -⟩ := exists_front_of_find hfound
    omega
  rw [hlines line hline, inserted_keep (.text s) es (hlt.trans hline)]

/-- At the line of the heading nothing has been put in between the lines ahead and it. -/
theorem foundAhead_of_not_blank {s : String} {n ahead : Nat} {es : List Edit}
    (h : ¬ (trim s.toList).isEmpty = true) (hallows : Place.metadata.allows es = true) :
    FoundAhead n ahead (.keep (.text s) :: es) := by
  rw [FoundAhead, before, after, find, find, if_neg h, if_neg h, ofText_eq_bare (n + 1),
    ofText_eq_bare (n + ahead + 1)]
  cases hbare : ofText 0 s [] with
  | error e => exact Or.inl ⟨e, rfl, rfl, (failsWith_ofText 0 s [] e hbare).isLineless⟩
  | ok head =>
      refine Or.inr ⟨_, es, ahead, rfl, rfl, ?_, hallows, fun line hline => ?_⟩
      · show Except.ok { head with line := n + ahead + 1, rest := after es }
          = Except.ok { head with line := n + 1 + ahead, rest := after es }
        rw [Nat.add_right_comm]
      · rw [inserted_keep (.text s) es hline]

/-- **THE HEADING** is found where it was, but for the lines that are put in before it. -/
theorem foundAhead (es : List Edit) (h : Place.heading.allows es = true) (n ahead : Nat) :
    FoundAhead n ahead es := by
  induction es generalizing n ahead with
  | nil => exact Or.inl ⟨_, rfl, rfl, fun _ => rfl⟩
  | cons e es ih =>
      cases e with
      | insert text =>
          obtain ⟨hblank, hrest⟩ := Bool.and_eq_true_iff.mp h
          exact foundAhead_insert hblank (ih hrest n (ahead + 1))
      | keep line =>
          cases line with
          | unreadable fault => exact Or.inl ⟨_, rfl, rfl, fun _ => rfl⟩
          | text s =>
              rw [Place.allows, Place.next] at h
              by_cases hblank : (trim s.toList).isEmpty = true
              · rw [if_pos hblank] at h
                exact foundAhead_of_blank hblank (ih h (n + 1) ahead)
              · rw [if_neg hblank] at h
                exact foundAhead_of_not_blank hblank h

end Heading

end PlcTypes
