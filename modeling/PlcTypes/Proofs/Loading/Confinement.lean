import PlcTypes.Proofs.Files.Directory
import PlcTypes.Proofs.Loading.Entrances

/-! # References stay in one directory

    The directory in which references are looked up is found anew for every file
    that is loaded: it is the parent of the path to the file.  But that path was
    joined from a spelling of the directory before, so as long as the names in
    references hold no slash all of them spell one directory, and every file is
    looked for directly in it.

    The machine asks for nothing else.  So on two file systems that agree on the
    file it starts with, and on the entries directly in the directory, it takes
    the same steps. -/

namespace PlcTypes

open Text StateTransition PlcTypes.Path

/-! ## The names that are asked for -/

/-- Whether all sources that wait refer to definitions without a slash in their
    names. -/
def Machine.AsksPlainly (m : Machine) : Prop :=
  ∀ w ∈ m.waiting, '/' ∉ w.reference.target.toList

namespace Request

/-- The file that a request starts with, if it starts with one. -/
def file? : Request → Option Path
  | text _ _ | bytes _ _ => none
  | path p | pathIn p _ => some p

/-- Whether a definition of this name is referred to, by the source that is asked
    for or by a file that is loaded for it. -/
def RefersTo (fs : FileSystem) (r : Request) (target : String) : Prop :=
  ∃ m, Reaches (Machine.step fs) r.start m ∧ ∃ w ∈ m.waiting, w.reference.target = target

/-- What two file systems agree on: the file that the request starts with, and the
    entries directly in the directory where its references are looked up. -/
structure SameFiles (r : Request) (fs fs' : FileSystem) : Prop where
  file : ∀ path, r.file? = some path → fs'.at? path = fs.at? path
  directory : FileSystem.SameIn r.dir fs fs'

end Request

/-! ## Looking for a file -/

namespace FileSystem

variable {fs fs' : FileSystem} {d dir : Path} {target : String}

/-- A reference in a directory is resolved to a path in the directory. -/
theorem isIn_resolved (fs : FileSystem) (hdir : d.Spells dir) (htarget : '/' ∉ target.toList) :
    ∃ name, d.IsIn (fs.resolved dir target) name := by
  have husual := hdir.isIn_extended htarget ".udt" (by decide) (by decide)
  have hlegacy := hdir.isIn_extended htarget ".awl" (by decide) (by decide)
  rw [resolved]
  split
  · exact ⟨_, husual⟩
  · split
    · exact ⟨_, hlegacy⟩
    · exact ⟨_, husual⟩

/-- The entries directly in a directory decide what a reference is resolved to. -/
theorem SameIn.resolve_eq (h : SameIn d fs fs') (hdir : d.Spells dir)
    (htarget : '/' ∉ target.toList) : fs'.resolve dir target = fs.resolve dir target := by
  have husual := hdir.isIn_extended htarget ".udt" (by decide) (by decide)
  have hlegacy := hdir.isIn_extended htarget ".awl" (by decide) (by decide)
  rw [resolve, resolve, isThere, isThere, isThere, isThere, h.at?_eq husual, h.at?_eq hlegacy]

end FileSystem

/-! ## Steps and the files they need -/

namespace Machine

variable {fs fs' : FileSystem} {m m' : Machine}

/-- After a line without a reference the source goes on, or has a result. -/
theorem advance_cases (m : Machine) (a : Activation) (result : Traced Progress) :
    (m.advance a result).waiting = m.waiting ∧
      ((∃ a', (m.advance a result).control = .reading a' ∧ a'.dir = a.dir) ∨
        ∃ outcome, (m.advance a result).control = .returning outcome) := by
  cases hresult : result.outcome with
  | error e =>
      rw [advance_of_error hresult]
      exact ⟨rfl, Or.inr ⟨_, rfl⟩⟩
  | ok p =>
      cases p with
      | more next =>
          rw [advance_of_more hresult]
          exact ⟨rfl, Or.inl ⟨_, rfl, rfl⟩⟩
      | done v fields =>
          rw [advance_of_done hresult]
          exact ⟨rfl, Or.inr ⟨_, rfl⟩⟩

section Lines

variable {a : Activation} {s : String} {rest : List Line} (ha : a.rest = .text s :: rest)
include ha

theorem readLine_of_no_reference (href : a.stage.reference? (trim s.toList) = none) :
    m.readLine fs a = m.advance { a with line := a.line + 1, rest }
      (a.stage.step unasked m.owner (a.line + 1) (trim s.toList)) := by
  simp only [readLine, ha, href]

theorem readLine_of_reference {version : String} {ms : Members} {r : Reference}
    (href : a.stage.reference? (trim s.toList) = some (version, ms, r)) :
    m.readLine fs a = m.ask fs ⟨{ a with line := a.line + 1, rest }, version, ms, r⟩ := by
  simp only [readLine, ha, href]

end Lines

/-- A line is read without the files, and then the source goes on or has a
    result; or it makes a reference, and the files are asked. -/
theorem readLine_cases (m : Machine) (a : Activation) :
    (∃ next : Machine, (∀ fs, m.readLine fs a = next) ∧ next.waiting = m.waiting ∧
        ((∃ a', next.control = .reading a' ∧ a'.dir = a.dir) ∨
          ∃ outcome, next.control = .returning outcome)) ∨
      ∃ w : Waiting, w.reader.dir = a.dir ∧ ∀ fs, m.readLine fs a = m.ask fs w := by
  cases hrest : a.rest with
  | nil =>
      refine Or.inl ⟨m.leave (a.stage.finish m.owner).events a.heading
        (a.stage.finish m.owner).outcome, fun fs => ?_, rfl, Or.inr ⟨_, rfl⟩⟩
      simp only [readLine, hrest]
  | cons content rest =>
      cases content with
      | unreadable fault =>
          refine Or.inl ⟨m.leave [] a.heading (.error (.unreadable fault)), fun fs => ?_, rfl,
            Or.inr ⟨_, rfl⟩⟩
          simp only [readLine, hrest]
      | text s =>
          cases href : a.stage.reference? (trim s.toList) with
          | none =>
              have hcases := advance_cases m { a with line := a.line + 1, rest }
                (a.stage.step unasked m.owner (a.line + 1) (trim s.toList))
              exact Or.inl ⟨_, fun fs => readLine_of_no_reference hrest href, hcases⟩
          | some asked =>
              obtain ⟨version, ms, r⟩ := asked
              exact Or.inr ⟨⟨{ a with line := a.line + 1, rest }, version, ms, r⟩, rfl,
                fun fs => readLine_of_reference hrest href⟩

/-- A source that asks waits, and the file that its reference is resolved to is
    opened. -/
theorem ask_eq {w : Waiting} {path : Path}
    (hpath : (fs.resolve w.reader.dir w.reference.target).outcome = .ok path) :
    m.ask fs w =
      { m with
        waiting := w :: m.waiting
        control := .opening path path.parent
        events := m.events ++ ((fs.resolve w.reader.dir w.reference.target).events
          ++ [.references w.reference.field path.text]) } := by
  unfold ask
  dsimp only
  rw [hpath]

/-! ## What holds along a run -/

/-- Whether something holds at every moment of a run that is over within some
    steps. -/
def always (p : Machine → Bool) (fs : FileSystem) : Nat → Machine → Bool
  | 0, _ => false
  | k + 1, m =>
      p m &&
        match m.step fs with
        | none => true
        | some next => always p fs k next

theorem of_always {p : Machine → Bool} {k : Nat} (h : always p fs k m = true)
    (hrun : Reaches (Machine.step fs) m m') : p m' = true := by
  induction k generalizing m with
  | zero => exact nomatch h
  | succ k ih =>
      rw [always, Bool.and_eq_true] at h
      rcases hrun.cases_head with rfl | ⟨next, hstep, hrest⟩
      · exact h.1
      · rw [show m.step fs = some next from hstep] at h
        exact ih h.2 hrest

/-- Whether something holds at some moment of the first steps of a run. -/
def sometime (p : Machine → Bool) (fs : FileSystem) : Nat → Machine → Bool
  | 0, _ => false
  | k + 1, m =>
      p m ||
        match m.step fs with
        | none => false
        | some next => sometime p fs k next

theorem exists_of_sometime {p : Machine → Bool} {k : Nat} (h : sometime p fs k m = true) :
    ∃ m', Reaches (Machine.step fs) m m' ∧ p m' = true := by
  induction k generalizing m with
  | zero => exact nomatch h
  | succ k ih =>
      rw [sometime, Bool.or_eq_true] at h
      rcases h with hnow | hlater
      · exact ⟨m, Relation.ReflTransGen.refl, hnow⟩
      · cases hstep : m.step fs with
        | none =>
            rw [hstep] at hlater
            exact nomatch hlater
        | some next =>
            rw [hstep] at hlater
            obtain ⟨m', hrest, hm'⟩ := ih hlater
            exact ⟨m', Relation.ReflTransGen.head hstep hrest, hm'⟩

/-! ## The machine stays in a directory -/

/-- What the machine does next keeps to the directory of a request: it opens the
    file that the request starts with, or a file in the directory, and references
    are looked up in the directory. -/
def KeepsTo (r : Request) : Control → Prop
  | .opening path dir =>
      (r.file? = some path ∨ ∃ name, r.dir.IsIn path name) ∧ (¬ path.IsLong → r.dir.Spells dir)
  | .calling _ dir => r.dir.Spells dir
  | .reading a => r.dir.Spells a.dir
  | .returning _ => True

/-- The invariant of reading: all that is done or waits keeps to the directory of
    the request. -/
structure Stays (r : Request) (m : Machine) : Prop where
  waiting : ∀ w ∈ m.waiting, r.dir.Spells w.reader.dir
  control : KeepsTo r m.control

variable {r : Request}

theorem stays_start (r : Request) : r.start.Stays r := by
  refine ⟨nofun, ?_⟩
  cases r with
  | text source dir => exact Spells.refl dir
  | bytes source dir => exact Spells.refl dir
  | path p => exact ⟨Or.inl rfl, fun _ => Spells.refl p.parent⟩
  | pathIn p dir => exact ⟨Or.inl rfl, fun _ => Spells.refl dir⟩

/-- **ONE STEP STAYS IN THE DIRECTORY**, if it asks for a name without a slash. -/
theorem Stays.step (h : m.Stays r) (hstep : m.step fs = some m') (hplain : m'.AsksPlainly) :
    m'.Stays r := by
  obtain ⟨chain, waiting, control, events⟩ := m
  obtain ⟨hwaiting, hcontrol⟩ := h
  cases control with
  | opening path dir =>
      simp only [Machine.step] at hstep
      split at hstep
      · obtain rfl := Option.some.inj hstep
        exact ⟨hwaiting, trivial⟩
      · next lines hlines =>
          obtain rfl := Option.some.inj hstep
          refine ⟨hwaiting, hcontrol.2 fun hlong => ?_⟩
          -- nothing would have been found
          rw [FileSystem.lines?, FileSystem.at?, FileSystem.locate_of_isLong hlong] at hlines
          cases hlines
  | calling lines dir =>
      obtain rfl := Option.some.inj hstep
      simp only [Machine.enter]
      split
      · exact ⟨hwaiting, trivial⟩
      · split
        · exact ⟨hwaiting, trivial⟩
        · exact ⟨hwaiting, hcontrol⟩
  | reading a =>
      obtain rfl := Option.some.inj hstep
      rcases readLine_cases ⟨chain, waiting, .reading a, events⟩ a with
        ⟨next, hnext, hsame, hgoes⟩ | ⟨w, hdir, hask⟩
      · rw [hnext]
        refine ⟨by rwa [hsame], ?_⟩
        rcases hgoes with ⟨a', ha', hdir⟩ | ⟨outcome, houtcome⟩
        · rw [ha', KeepsTo, hdir]
          exact hcontrol
        · rw [houtcome]
          trivial
      · have hw : r.dir.Spells w.reader.dir := by
          rw [hdir]
          exact hcontrol
        rw [hask, ask_eq (fs.outcome_resolve _ _)] at hplain ⊢
        obtain ⟨name, hname⟩ := fs.isIn_resolved hw (hplain w (List.mem_cons_self ..))
        -- the references in that file are looked up where the file is
        exact ⟨List.forall_mem_cons.mpr ⟨hw, hwaiting⟩, Or.inr ⟨name, hname⟩, hname.spells_parent⟩
  | returning outcome =>
      simp only [Machine.step] at hstep
      split at hstep
      · cases hstep
      · obtain rfl := Option.some.inj hstep
        obtain ⟨hw, hwaiting⟩ := List.forall_mem_cons.mp hwaiting
        exact ⟨hwaiting, hw⟩
      · obtain rfl := Option.some.inj hstep
        exact ⟨(List.forall_mem_cons.mp hwaiting).2, trivial⟩

/-- **ONE STEP IS THE SAME** on file systems that agree on what the request may look
    at. -/
theorem Stays.step_eq (h : m.Stays r) (hsame : r.SameFiles fs fs')
    (hplain : ∀ m', m.step fs = some m' → m'.AsksPlainly) : m.step fs' = m.step fs := by
  obtain ⟨chain, waiting, control, events⟩ := m
  cases control with
  | opening path dir =>
      have hat : fs'.at? path = fs.at? path := by
        rcases h.control.1 with hfile | ⟨name, hname⟩
        · exact hsame.file path hfile
        · exact hsame.directory.at?_eq hname
      simp only [Machine.step, FileSystem.lines?, hat]
  | calling lines dir => rfl
  | reading a =>
      rcases readLine_cases ⟨chain, waiting, .reading a, events⟩ a with
        ⟨next, hnext, -, -⟩ | ⟨w, hdir, hask⟩
      · simp only [Machine.step, hnext]
      · have hw : r.dir.Spells w.reader.dir := by
          rw [hdir]
          exact h.control
        have htarget : '/' ∉ w.reference.target.toList := by
          have hnext := hplain _ (congrArg some (hask fs))
          rw [ask_eq (fs.outcome_resolve _ _)] at hnext
          exact hnext w (List.mem_cons_self ..)
        have hresolve := hsame.directory.resolve_eq hw htarget
        have hpath := fs.outcome_resolve w.reader.dir w.reference.target
        show some (readLine fs' _ a) = some (readLine fs _ a)
        rw [hask, hask, ask_eq hpath, ask_eq (hresolve ▸ hpath), hresolve]
  | returning outcome => rfl

end Machine

namespace Request

variable {fs fs' : FileSystem} {r : Request}

/-- What is referred to without a slash is asked for without a slash. -/
theorem asksPlainly (hplain : ∀ target, r.RefersTo fs target → '/' ∉ target.toList) {m : Machine}
    (hrun : Reaches (Machine.step fs) r.start m) : m.AsksPlainly :=
  fun w hw => hplain w.reference.target ⟨m, hrun, w, hw, rfl⟩

/-- Every run stays in the directory. -/
theorem stays_of_reaches (hplain : ∀ target, r.RefersTo fs target → '/' ∉ target.toList)
    {m : Machine} (hrun : Reaches (Machine.step fs) r.start m) : m.Stays r := by
  induction hrun with
  | refl => exact Machine.stays_start r
  | tail hbefore hstep ih =>
      exact ih.step hstep (asksPlainly hplain (hbefore.tail hstep))

/-- Every run on one file system is a run on the other. -/
theorem reaches_of_sameFiles (hplain : ∀ target, r.RefersTo fs target → '/' ∉ target.toList)
    (hsame : r.SameFiles fs fs') {m : Machine} (hrun : Reaches (Machine.step fs) r.start m) :
    Reaches (Machine.step fs') r.start m := by
  induction hrun with
  | refl => exact Relation.ReflTransGen.refl
  | tail hbefore hstep ih =>
      refine ih.tail ?_
      rw [(stays_of_reaches hplain hbefore).step_eq hsame fun m' hm' =>
        asksPlainly hplain (hbefore.tail hm')]
      exact hstep

/-- The answer is what any run ends with. -/
theorem answer_eq_of_reaches {answer : Traced TypeDefinition}
    (hrun : Reaches (Machine.step fs) r.start ⟨[], [], .returning answer.outcome, answer.events⟩) :
    r.answer fs = answer := by
  have hanswer : ⟨[], [], .returning (r.answer fs).outcome, (r.answer fs).events⟩
      ∈ eval (Machine.step fs) r.start := mem_eval.mpr ⟨r.reaches_answer, rfl⟩
  have hend := Part.mem_unique hanswer (mem_eval.mpr ⟨hrun, rfl⟩)
  obtain ⟨-, -, hcontrol, hevents⟩ := Machine.mk.inj hend
  exact congrArg₂ Traced.mk hevents (Control.returning.inj hcontrol)

/-- **REFERENCES STAY IN ONE DIRECTORY**: let no definition be referred to, by the
    source or by a file that is loaded for it, whose name holds a slash.  Then
    every file that is opened, however deep references are nested, is the one that
    the request starts with or stands directly in the directory where the
    references of the request are looked up.  And on another file system that
    agrees on the former, and on the entries directly in the latter, the request
    has the same answer, with the same events. -/
theorem references_stay (fs : FileSystem) (r : Request)
    (hplain : ∀ target, r.RefersTo fs target → '/' ∉ target.toList) :
    (∀ m path dir, Reaches (Machine.step fs) r.start m → m.control = .opening path dir →
        r.file? = some path ∨ ∀ location, fs.locate path = some location →
          ∃ directory name, fs.directory? r.dir = some directory ∧
            location = directory ++ [name]) ∧
      ∀ fs', r.SameFiles fs fs' → r.answer fs' = r.answer fs := by
  constructor
  · intro m path dir hrun hopening
    have hkeeps := (stays_of_reaches hplain hrun).control
    rw [hopening] at hkeeps
    refine hkeeps.1.imp_right ?_
    rintro ⟨name, hname⟩ location hlocate
    have hshort : ¬ path.IsLong := by
      intro hlong
      rw [FileSystem.locate_of_isLong hlong] at hlocate
      exact nomatch hlocate
    rw [FileSystem.locate_of_isIn hname hshort] at hlocate
    obtain ⟨directory, hdirectory, hentry⟩ := Option.bind_eq_some_iff.mp hlocate
    refine ⟨directory, name, hdirectory, ?_⟩
    split at hentry
    · exact (Option.some.inj hentry).symm
    · exact nomatch hentry
  · intro fs' hsame
    exact answer_eq_of_reaches (reaches_of_sameFiles hplain hsame r.reaches_answer)

/-- A definition that refers to another one, which is in a library and refers to a
    third. -/
def libraryFiles : FileSystem where
  home := []
  entries :=
    [(["src"], .directory), (["lib"], .directory),
     (["src", "Lift.udt"], .file (Utf8.encode
      "TYPE \"Lift\"\nVERSION : 0.1\nSTRUCT\ndoor : \"Door\";\nEND_STRUCT;\nEND_TYPE\n".toList)),
     (["lib", "Door.udt"], .file (Utf8.encode
      "TYPE \"Door\"\nVERSION : 0.1\nSTRUCT\ndrive : \"Motor\";\nEND_STRUCT;\nEND_TYPE\n".toList)),
     (["lib", "Motor.awl"], .file (Utf8.encode
      "TYPE \"Motor\"\nVERSION : 0.1\nSTRUCT\nEND_STRUCT;\nEND_TYPE\n".toList))]

/-- The same files, and others of these names outside the library. -/
def libraryFilesBeside : FileSystem :=
  { libraryFiles with
    entries := (["src", "Door.udt"], .file []) :: (["Motor.udt"], .directory) :: libraryFiles.entries }

/-- The definition, with its references looked up in the library. -/
def liftRequest : Request :=
  .pathIn ⟨"src/Lift.udt"⟩ ⟨"src/../lib/"⟩

theorem references_stay_lift :
    (∀ target, liftRequest.RefersTo libraryFiles target → '/' ∉ target.toList) ∧
      liftRequest.SameFiles libraryFiles libraryFilesBeside ∧
      liftRequest.answer libraryFilesBeside = liftRequest.answer libraryFiles ∧
      (liftRequest.answer libraryFiles).outcome
        = .ok ⟨"Lift", "0.1", "", [.struct "door" "" [.struct "drive" "" []]]⟩ := by
  have hplain : ∀ target, liftRequest.RefersTo libraryFiles target → '/' ∉ target.toList := by
    rintro target ⟨m, hrun, w, hw, rfl⟩
    have halways : Machine.always (fun m => m.waiting.all fun w => '/' ∉ w.reference.target.toList)
        libraryFiles 40 liftRequest.start = true := by decide +kernel
    have hm := Machine.of_always halways hrun
    exact of_decide_eq_true (List.all_eq_true.mp hm w hw)
  have hsame : liftRequest.SameFiles libraryFiles libraryFilesBeside := by
    refine ⟨?_, fun name => ?_⟩
    · rintro path hpath
      obtain rfl := Option.some.inj hpath
      decide +kernel
    · have hlib : libraryFiles.directory? liftRequest.dir = some ["lib"] := by decide +kernel
      have hlib' : libraryFilesBeside.directory? liftRequest.dir = some ["lib"] := by decide +kernel
      rw [FileSystem.entryIn?, FileSystem.entryIn?, hlib, hlib']
      simp [FileSystem.entry?, libraryFilesBeside, List.lookup_cons]
  exact ⟨hplain, hsame, (references_stay libraryFiles liftRequest hplain).2 libraryFilesBeside hsame,
    by decide +kernel⟩

end Request

end PlcTypes
