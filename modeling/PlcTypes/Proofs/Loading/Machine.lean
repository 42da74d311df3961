import Mathlib.Computability.StateTransition
import PlcTypes.Proofs.Source.Definition
import PlcTypes.Proofs.Source.Reference
import PlcTypes.Source.Load

/-! # Reading step by step

    Reading a definition with all definitions that it refers to, as a machine
    that takes one small step after the other.  The machine keeps the names of
    the definitions that are being read on one chain for the whole run: a name
    is put on it after the heading has been read, and is taken off when the
    definition ends, whether it ends well or not.  Definitions that wait for
    the meaning of a reference are kept on a stack.

    A run of the machine ends with the result of `FileSystem.load`, with the
    same events on the way, and leaves the chain and the stack as they were. -/

namespace PlcTypes

open Text StateTransition

/-- A source whose heading has been read, after one of its lines. -/
structure Activation where
  heading : Heading
  /-- Where its references are looked up. -/
  dir : Path
  line : Nat
  stage : Stage
  rest : List Line

/-- A source that waits for what a reference means, with what it has read
    before. -/
structure Waiting where
  reader : Activation
  version : String
  members : Members
  reference : Reference

/-- The reader after the reference has been replaced by a definition. -/
def Waiting.resumed (w : Waiting) (t : TypeDefinition) : Activation :=
  { w.reader with stage := .members w.version (w.members.graft w.reference t) }

/-- What the machine does next. -/
inductive Control where
  /-- Open the file at a path. -/
  | opening (path dir : Path)
  /-- Read a source from its start. -/
  | calling (lines : List Line) (dir : Path)
  /-- Read on in a source. -/
  | reading (a : Activation)
  /-- Hand a result to the source that waits for it. -/
  | returning (outcome : Except Error TypeDefinition)

structure Machine where
  /-- The names of the definitions being read, outermost first. -/
  chain : List String
  /-- The sources that wait, innermost first. -/
  waiting : List Waiting
  control : Control
  events : List Event

/-- The definition that the body under a heading makes, with the name that is
    taken off the chain. -/
def Heading.conclude (h : Heading) (name : String) :
    Except Error (String × List Field) → Except Error TypeDefinition
  | .error e => .error e
  | .ok (version, members) =>
      (TypeDefinition.create name version members).map (·.withComment h.comment)

namespace Machine

/-- The name of the innermost definition being read. -/
def owner (m : Machine) : String :=
  m.chain.getLast?.getD ""

/-- The machine after some events, about to do something else. -/
def turn (m : Machine) (events : List Event) (control : Control) : Machine :=
  { m with control, events := m.events ++ events }

/-- The machine after the innermost definition has ended. -/
def leave (m : Machine) (events : List Event) (h : Heading)
    (body : Except Error (String × List Field)) : Machine :=
  { m with
    chain := m.chain.dropLast
    control := .returning (h.conclude m.owner body)
    events := m.events ++ events }

/-- The machine after it has read a heading, or found none. -/
def enter (m : Machine) (lines : List Line) (dir : Path) : Machine :=
  match Heading.find 0 lines with
  | .error e => m.turn [] (.returning (.error e))
  | .ok h =>
      if isWithin m.chain h.name then
        m.turn [] (.returning (.error (.cyclicReference m.chain h.name)))
      else
        { m with
          chain := m.chain ++ [h.name]
          control := .reading ⟨h, dir, h.line, .metadata, h.rest⟩
          events := m.events ++ [.begun h.name m.chain] }

/-- What references mean to a line that makes none. -/
def unasked : String → String → Traced TypeDefinition :=
  fun _ target => Traced.fail (.notFound target)

/-- The machine after a line of `a` that led to `result`. -/
def advance (m : Machine) (a : Activation) (result : Traced Progress) : Machine :=
  match result.outcome with
  | .ok (.more stage) => m.turn result.events (.reading { a with stage })
  | .ok (.done version fields) => m.leave result.events a.heading (.ok (version, fields))
  | .error e => m.leave result.events a.heading (.error e)

/-- The machine after a line that makes a reference. -/
def ask (fs : FileSystem) (m : Machine) (w : Waiting) : Machine :=
  let found := fs.resolve w.reader.dir w.reference.target
  match found.outcome with
  | .ok path =>
      { m with
        waiting := w :: m.waiting
        control := .opening path path.parent
        events := m.events ++ (found.events ++ [.references w.reference.field path.text]) }
  | .error e => m.leave found.events w.reader.heading (.error e)

/-- The machine after one line of a source. -/
def readLine (fs : FileSystem) (m : Machine) (a : Activation) : Machine :=
  match a.rest with
  | [] => m.leave (a.stage.finish m.owner).events a.heading (a.stage.finish m.owner).outcome
  | .unreadable fault :: _ => m.leave [] a.heading (.error (.unreadable fault))
  | .text s :: rest =>
      let cs := trim s.toList
      let next := { a with line := a.line + 1, rest }
      match a.stage.reference? cs with
      | some (version, ms, r) => m.ask fs ⟨next, version, ms, r⟩
      | none => m.advance next (a.stage.step unasked m.owner (a.line + 1) cs)

/-- One step of the machine; none when the outermost result is there. -/
def step (fs : FileSystem) (m : Machine) : Option Machine :=
  match m.control with
  | .opening path dir =>
      match fs.lines? path with
      | none => some (m.turn [] (.returning (.error (.notFound path.text))))
      | some lines => some (m.turn [] (.calling lines dir))
  | .calling lines dir => some (m.enter lines dir)
  | .reading a => some (m.readLine fs a)
  | .returning outcome =>
      match m.waiting, outcome with
      | [], _ => none
      | w :: waiting, .ok t => some { m with waiting, control := .reading (w.resumed t) }
      | w :: waiting, .error e => some ({ m with waiting }.leave [] w.reader.heading (.error e))

end Machine

/-! ## The end of a definition -/

/-- A definition under a heading has the events of its body, and is what the
    body concludes to. -/
theorem Heading.definition_eq (h : Heading)
    (refer : String → String → Traced TypeDefinition) :
    h.definition refer
      = ⟨(Stage.run refer h.name h.line .metadata h.rest).events,
          h.conclude h.name (Stage.run refer h.name h.line .metadata h.rest).outcome⟩ := by
  unfold Heading.definition
  cases hrun : (Stage.run refer h.name h.line .metadata h.rest).outcome with
  | error e =>
      rw [Traced.bind_of_error hrun]
      rfl
  | ok body =>
      obtain ⟨version, members⟩ := body
      rw [Traced.bind_of_ok hrun, Heading.conclude]
      dsimp only
      cases TypeDefinition.create h.name version members with
      | error e =>
          rw [Traced.lift_error, Traced.fail_bind]
          exact congrArg (Traced.mk · _) (List.append_nil _)
      | ok t =>
          rw [Traced.lift_ok, pure_bind]
          exact congrArg (Traced.mk · _) (List.append_nil _)

/-! ## Runs of the machine -/

section Run

variable {fs : FileSystem} {within : List String} {waiting : List Waiting}
  {events : List Event}

/-- The innermost definition is the last on the chain. -/
theorem Machine.owner_eq (name : String) (control : Control) :
    Machine.owner ⟨within ++ [name], waiting, control, events⟩ = name := by
  unfold Machine.owner
  rw [List.getLast?_concat, Option.getD_some]

theorem Machine.leave_eq (h : Heading) (control : Control) (events' : List Event)
    (body : Except Error (String × List Field)) :
    Machine.leave ⟨within ++ [h.name], waiting, control, events⟩ events' h body
      = ⟨within, waiting, .returning (h.conclude h.name body), events ++ events'⟩ := by
  unfold Machine.leave
  rw [Machine.owner_eq, List.dropLast_concat]

section Lines

variable {h : Heading} {dir : Path} {n : Nat} {stage : Stage} {s : String} {rest : List Line}

/-- A line that makes no reference is read as by the reader itself. -/
theorem Machine.step_of_no_reference (refer : String → String → Traced TypeDefinition)
    (href : stage.reference? (trim s.toList) = none) :
    Machine.step fs
        ⟨within ++ [h.name], waiting, .reading ⟨h, dir, n, stage, .text s :: rest⟩, events⟩
      = some (Machine.advance
          ⟨within ++ [h.name], waiting, .reading ⟨h, dir, n, stage, .text s :: rest⟩, events⟩
          ⟨h, dir, n + 1, stage, rest⟩
          (stage.step refer h.name (n + 1) (trim s.toList))) := by
  show some (Machine.readLine fs _ _) = _
  unfold Machine.readLine
  dsimp only
  rw [href]
  dsimp only
  rw [Machine.owner_eq, Stage.step_of_no_reference href Machine.unasked refer]

/-- A line that makes a reference asks for it. -/
theorem Machine.step_of_reference {v : String} {ms : Members} {r : Reference}
    (href : stage.reference? (trim s.toList) = some (v, ms, r)) {path : Path}
    (hpath : (fs.resolve dir r.target).outcome = .ok path) :
    Machine.step fs
        ⟨within ++ [h.name], waiting, .reading ⟨h, dir, n, stage, .text s :: rest⟩, events⟩
      = some ⟨within ++ [h.name], ⟨⟨h, dir, n + 1, stage, rest⟩, v, ms, r⟩ :: waiting,
          .opening path path.parent,
          events ++ ((fs.resolve dir r.target).events ++ [.references r.field path.text])⟩ := by
  show some (Machine.readLine fs _ _) = _
  unfold Machine.readLine
  dsimp only
  rw [href]
  dsimp only
  unfold Machine.ask
  dsimp only
  rw [hpath]

end Lines

theorem Machine.advance_of_more {m : Machine} {a : Activation} {result : Traced Progress}
    {stage : Stage} (hresult : result.outcome = .ok (.more stage)) :
    m.advance a result = m.turn result.events (.reading { a with stage }) := by
  unfold Machine.advance
  rw [hresult]

theorem Machine.advance_of_done {m : Machine} {a : Activation} {result : Traced Progress}
    {v : String} {fields : List Field} (hresult : result.outcome = .ok (.done v fields)) :
    m.advance a result = m.leave result.events a.heading (.ok (v, fields)) := by
  unfold Machine.advance
  rw [hresult]

theorem Machine.advance_of_error {m : Machine} {a : Activation} {result : Traced Progress}
    {e : Error} (hresult : result.outcome = .error e) :
    m.advance a result = m.leave result.events a.heading (.error e) := by
  unfold Machine.advance
  rw [hresult]

/-- A definition goes to the source that waits for it. -/
theorem Machine.step_of_returned {chain : List String} (w : Waiting) (t : TypeDefinition) :
    Machine.step fs ⟨chain, w :: waiting, .returning (.ok t), events⟩
      = some ⟨chain, waiting, .reading (w.resumed t), events⟩ := rfl

/-- Looking for a file does not fail. -/
theorem FileSystem.resolve_eq_ok (fs : FileSystem) (dir : Path) (target : String) :
    ∃ path, (fs.resolve dir target).outcome = .ok path := by
  unfold FileSystem.resolve
  dsimp only
  split
  · exact ⟨_, rfl⟩
  · split
    · exact ⟨_, rfl⟩
    · exact ⟨_, rfl⟩

/-- What references in a file mean that is read for the definitions on a
    chain. -/
def FileSystem.referFor (fs : FileSystem) (chain : List String) (dir : Path) :
    String → String → Traced TypeDefinition :=
  fs.refer dir fun p => fs.load chain p p.parent

theorem FileSystem.referFor_eq {chain : List String} {dir path : Path} {field target : String}
    (hpath : (fs.resolve dir target).outcome = .ok path) :
    fs.referFor chain dir field target
      = ⟨(fs.resolve dir target).events ++ (.references field path.text
            :: (fs.load chain path path.parent).events),
          (fs.load chain path path.parent).outcome⟩ := by
  show fs.resolve dir target >>= _ = _
  rw [Traced.bind_of_ok hpath]
  rfl

variable (fs) in
/-- Opening a file for the definitions on the chain gives what loading it
    gives, and leaves the chain and the stack as they were. -/
def Opens (chain : List String) (path dir : Path) : Prop :=
  ∀ waiting events,
    Reaches (Machine.step fs) ⟨chain, waiting, .opening path dir, events⟩
      ⟨chain, waiting, .returning (fs.load chain path dir).outcome,
        events ++ (fs.load chain path dir).events⟩

/-- What the rest of a source gives for the definitions on a chain. -/
def bodyFrom (fs : FileSystem) (within : List String) (a : Activation) :
    Traced (String × List Field) :=
  Stage.run (fs.referFor (within ++ [a.heading.name]) a.dir) a.heading.name a.line a.stage a.rest

variable (fs within) in
/-- Reading on in a source gives what the rest of it gives, takes the name of
    its definition off the chain, and leaves the stack as it was. -/
def Reads (a : Activation) : Prop :=
  ∀ waiting events,
    Reaches (Machine.step fs) ⟨within ++ [a.heading.name], waiting, .reading a, events⟩
      ⟨within, waiting, .returning (a.heading.conclude a.heading.name (bodyFrom fs within a).outcome),
        events ++ (bodyFrom fs within a).events⟩

section Lines

variable {h : Heading} {dir : Path} {n : Nat} {stage : Stage} {s : String} {rest : List Line}

theorem reads_nil : Reads fs within ⟨h, dir, n, stage, []⟩ := by
  intro waiting events
  refine Relation.ReflTransGen.single ?_
  show some (Machine.leave _ _ h _) = some _
  rw [Machine.owner_eq, Machine.leave_eq]
  rfl

theorem reads_unreadable (fault : ReadFault) :
    Reads fs within ⟨h, dir, n, stage, .unreadable fault :: rest⟩ := by
  intro waiting events
  refine Relation.ReflTransGen.single ?_
  show some (Machine.leave _ _ h _) = some _
  rw [Machine.leave_eq]
  rfl

/-- A line that makes no reference ends the source or leads to the next
    line. -/
theorem reads_of_no_reference (href : stage.reference? (trim s.toList) = none)
    (hrest : ∀ next, Reads fs within ⟨h, dir, n + 1, next, rest⟩) :
    Reads fs within ⟨h, dir, n, stage, .text s :: rest⟩ := by
  intro waiting events
  have hstep : Machine.step fs
        ⟨within ++ [h.name], waiting, .reading ⟨h, dir, n, stage, .text s :: rest⟩, events⟩
      = some (Machine.advance
          ⟨within ++ [h.name], waiting, .reading ⟨h, dir, n, stage, .text s :: rest⟩, events⟩
          ⟨h, dir, n + 1, stage, rest⟩
          (stage.step (fs.referFor (within ++ [h.name]) dir) h.name (n + 1) (trim s.toList))) :=
    Machine.step_of_no_reference _ href
  unfold bodyFrom
  dsimp only
  rw [Stage.run]
  -- whatever the line led to, the machine and the reader have the same from it
  generalize stage.step (fs.referFor (within ++ [h.name]) dir) h.name (n + 1)
    (trim s.toList) = result at hstep ⊢
  cases hresult : result.outcome with
  | error e =>
      rw [Machine.advance_of_error hresult, Machine.leave_eq] at hstep
      rw [Traced.bind_of_error hresult]
      exact Relation.ReflTransGen.single hstep
  | ok p =>
      rw [Traced.bind_of_ok hresult]
      cases p with
      | done v fields =>
          rw [Machine.advance_of_done hresult, Machine.leave_eq] at hstep
          refine Relation.ReflTransGen.single ?_
          rw [hstep]
          exact congrArg (fun evs => some (Machine.mk _ _ _ (events ++ evs)))
            (List.append_nil result.events).symm
      | more next =>
          rw [Machine.advance_of_more hresult] at hstep
          refine Relation.ReflTransGen.head hstep ?_
          have hnext := hrest next waiting (events ++ result.events)
          rw [List.append_assoc] at hnext
          exact hnext

/-- At a line that makes a reference the source waits, while the reference is
    loaded above it, and then goes on or fails as well. -/
theorem reads_of_reference {v : String} {ms : Members} {r : Reference}
    (href : stage.reference? (trim s.toList) = some (v, ms, r))
    (hopens : ∀ p, Opens fs (within ++ [h.name]) p p.parent)
    (hrest : ∀ next, Reads fs within ⟨h, dir, n + 1, next, rest⟩) :
    Reads fs within ⟨h, dir, n, stage, .text s :: rest⟩ := by
  intro waiting events
  obtain ⟨path, hpath⟩ := fs.resolve_eq_ok dir r.target
  refine Relation.ReflTransGen.head (Machine.step_of_reference href hpath) ?_
  -- the source waits until the file above it has been loaded
  refine Relation.ReflTransGen.trans (hopens path _ _) ?_
  unfold bodyFrom
  dsimp only
  rw [Stage.run, Stage.step_of_reference? href, FileSystem.referFor_eq hpath]
  cases hload : (fs.load (within ++ [h.name]) path path.parent).outcome with
  | error e =>
      refine Relation.ReflTransGen.single ?_
      show some (Machine.leave _ _ h _) = some _
      rw [Machine.leave_eq]
      refine congrArg (fun evs => some (Machine.mk within waiting _ evs)) ?_
      simp [Traced.bind_of_error]
  | ok t =>
      -- it goes on with the members that the definition has been put into
      refine Relation.ReflTransGen.head (Machine.step_of_returned _ t) ?_
      have hnext := hrest (.members v (ms.graft r t)) waiting
        (events ++ ((fs.resolve dir r.target).events ++ [.references r.field path.text])
          ++ (fs.load (within ++ [h.name]) path path.parent).events)
      rw [bind_assoc, Traced.bind_of_ok rfl, pure_bind]
      simp only [List.append_assoc, List.cons_append, List.nil_append] at hnext ⊢
      exact hnext

end Lines

/-- From any line the machine reads a source to its end, if it loads what the
    source refers to. -/
theorem reads {h : Heading} (hopens : ∀ p, Opens fs (within ++ [h.name]) p p.parent)
    (dir : Path) (n : Nat) (stage : Stage) (rest : List Line) :
    Reads fs within ⟨h, dir, n, stage, rest⟩ := by
  induction rest generalizing n stage with
  | nil => exact reads_nil
  | cons line rest ih =>
      cases line with
      | unreadable fault => exact reads_unreadable fault
      | text s =>
          cases href : stage.reference? (trim s.toList) with
          | none => exact reads_of_no_reference href (ih (n + 1))
          | some asked =>
              obtain ⟨v, ms, r⟩ := asked
              exact reads_of_reference href hopens (ih (n + 1))

/-- The name of a heading is put on the chain before the lines below it are
    read. -/
theorem Machine.step_of_entered {lines : List Line} {dir : Path} {h : Heading}
    (hfound : Heading.find 0 lines = .ok h) (hnew : isWithin within h.name = false) :
    Machine.step fs ⟨within, waiting, .calling lines dir, events⟩
      = some ⟨within ++ [h.name], waiting, .reading ⟨h, dir, h.line, .metadata, h.rest⟩,
          events ++ [.begun h.name within]⟩ := by
  show some (Machine.enter _ lines dir) = some _
  unfold Machine.enter
  rw [hfound]
  dsimp only
  rw [if_neg (by simp [hnew])]

/-- Calling a source gives what reading its lines gives. -/
theorem calls {lines : List Line} {dir : Path}
    (hopens : ∀ h p, Heading.find 0 lines = .ok h → isWithin within h.name = false →
      Opens fs (within ++ [h.name]) p p.parent)
    {result : Traced TypeDefinition}
    (hresult : TypeDefinition.ofLines within lines
      (fun h _ _ => fs.referFor (within ++ [h.name]) dir) = result) :
    Reaches (Machine.step fs) ⟨within, waiting, .calling lines dir, events⟩
      ⟨within, waiting, .returning result.outcome, events ++ result.events⟩ := by
  cases hfound : Heading.find 0 lines with
  | error e =>
      rw [TypeDefinition.ofLines_of_no_heading hfound] at hresult
      rw [← hresult]
      refine Relation.ReflTransGen.single ?_
      show some (Machine.enter _ lines dir) = some _
      unfold Machine.enter
      rw [hfound]
      rfl
  | ok h =>
      cases hnew : isWithin within h.name with
      | true =>
          rw [TypeDefinition.ofLines_of_met hfound hnew] at hresult
          rw [← hresult]
          refine Relation.ReflTransGen.single ?_
          show some (Machine.enter _ lines dir) = some _
          unfold Machine.enter
          rw [hfound]
          dsimp only
          rw [if_pos hnew]
          rfl
      | false =>
          rw [TypeDefinition.ofLines_of_found hfound hnew, Heading.definition_eq] at hresult
          refine Relation.ReflTransGen.head (Machine.step_of_entered hfound hnew) ?_
          have hreads := reads (fun p => hopens h p hfound hnew) dir h.line .metadata h.rest
            waiting (events ++ [.begun h.name within])
          rw [List.append_assoc] at hreads
          rw [← hresult]
          exact hreads

/-- **THE MACHINE LOADS FILES**: opening a file gives what loading it gives. -/
theorem opens (fs : FileSystem) (within : List String) (path dir : Path) :
    Opens fs within path dir := by
  induction within, path, dir using FileSystem.load.induct fs with
  | case1 within path dir hmissing =>
      intro waiting events
      rw [FileSystem.load_of_missing hmissing]
      refine Relation.ReflTransGen.single ?_
      unfold Machine.step
      dsimp only
      rw [hmissing]
      rfl
  | case2 within path dir lines hthere ih =>
      intro waiting events
      have hcall : Machine.step fs ⟨within, waiting, .opening path dir, events⟩
          = some ⟨within, waiting, .calling lines dir, events⟩ := by
        unfold Machine.step
        dsimp only
        rw [hthere]
        exact congrArg (fun evs => some (Machine.mk within waiting _ evs)) (List.append_nil events)
      rw [FileSystem.load_of_lines hthere]
      -- the chain is longer by a new name wherever the source opens a file
      refine Relation.ReflTransGen.head hcall ?_
      exact calls (fun h p hfound hnew => ih h hfound hnew p) rfl

end Run

end PlcTypes
