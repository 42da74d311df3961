import PlcTypes.Proofs.Loading.Machine

/-! # The chain of names

    What one step of the machine does to the chain is one of three things: it
    puts the name of a heading on it that was not there, takes the last name
    off, or leaves it alone.  The names on the chain are those of the sources
    that wait and of the source that is being read, in that order, so they
    are always on the chain that the definitions being read call for. -/

namespace PlcTypes

open Text StateTransition

namespace Machine

/-- The names of the sources that wait and of the one that is being read,
    outermost first. -/
def names (m : Machine) : List String :=
  (m.waiting.map fun w => w.reader.heading.name).reverse ++
    match m.control with
    | .reading a => [a.heading.name]
    | _ => []

/-- Whether a source is about to be read from its start. -/
def IsCalling (m : Machine) (lines : List Line) : Prop :=
  ∃ dir, m.control = .calling lines dir

/-- What a step does to the chain. -/
inductive Effect (fs : FileSystem) (m m' : Machine) : Prop where
  | push {lines : List Line} {h : Heading} (hcalling : m.IsCalling lines)
      (hfound : Heading.find 0 lines = .ok h) (hnew : isWithin m.chain h.name = false)
      (hchain : m'.chain = m.chain ++ [h.name]) (hnames : m'.names = m.names ++ [h.name])
      (hquiet : ∀ lines, ¬ m'.IsCalling lines)
  | pop (hne : m.names ≠ []) (hchain : m'.chain = m.chain.dropLast)
      (hnames : m'.names = m.names.dropLast) (hquiet : ∀ lines, ¬ m'.IsCalling lines)
  | keep (hchain : m'.chain = m.chain) (hnames : m'.names = m.names)
      (hfile : ∀ lines, m'.IsCalling lines → ∃ path, fs.lines? path = some lines)

variable {fs : FileSystem} {m m' : Machine}

/-- A control that calls no source leaves nothing to be said of files. -/
theorem not_isCalling {control : Control} (h : ∀ lines dir, control ≠ .calling lines dir)
    (hm : m.control = control) (lines : List Line) : ¬ m.IsCalling lines := by
  rintro ⟨dir, hdir⟩
  exact h lines dir (hm.symm.trans hdir)

/-- A source that is being read has its name behind those that wait for it. -/
theorem names_of_reading {a : Activation} (hm : m.control = .reading a) :
    m.names = (m.waiting.map fun w => w.reader.heading.name).reverse ++ [a.heading.name] := by
  unfold names
  rw [hm]

/-- When a body ends, its name is the last that leaves. -/
theorem Effect.leave {a : Activation} (hm : m.control = .reading a) (events : List Event)
    (body : Except Error (String × List Field)) :
    Effect fs m (m.leave events a.heading body) := by
  have hnames := names_of_reading hm
  refine .pop ?_ rfl ?_ (not_isCalling (fun _ _ => Control.noConfusion) rfl)
  · rw [hnames]
    simp
  · rw [hnames, List.dropLast_concat]
    exact List.append_nil _

/-- A turn that neither begins nor ends a body moves no name. -/
theorem Effect.turn {control : Control} (hm : ∀ a, m.control ≠ .reading a)
    (hcontrol : ∀ a, control ≠ .reading a)
    (hfile : ∀ lines dir, control = .calling lines dir → ∃ path, fs.lines? path = some lines) :
    Effect fs m (m.turn [] control) := by
  refine .keep rfl ?_ ?_
  · unfold names Machine.turn
    dsimp only
    congr 1
    cases hc : m.control with
    | reading a => exact absurd hc (hm a)
    | opening _ _ | calling _ _ | returning _ =>
        cases control with
        | reading a => exact absurd rfl (hcontrol a)
        | opening _ _ | calling _ _ | returning _ => rfl
  · rintro lines ⟨dir, hdir⟩
    exact hfile lines dir hdir

/-- A source that is called begins a body, unless it has no heading or its name is
    refused. -/
theorem effect_enter {lines : List Line} {dir : Path} (hm : m.control = .calling lines dir) :
    Effect fs m (m.enter lines dir) := by
  have hreading : ∀ a, m.control ≠ .reading a := by
    intro a ha
    rw [hm] at ha
    exact nomatch ha
  unfold Machine.enter
  split
  · exact .turn hreading nofun nofun
  · next h hfound =>
      split
      · -- a refused heading is never on the chain
        exact .turn hreading nofun nofun
      · next hnew =>
          refine .push ⟨dir, hm⟩ hfound (Bool.eq_false_iff.mpr hnew) rfl ?_
            (not_isCalling (fun _ _ => Control.noConfusion) rfl)
          unfold names
          rw [hm]
          simp

/-- A line goes on with its body, or ends it, or asks for a file. -/
theorem effect_readLine {a : Activation} (hm : m.control = .reading a) :
    Effect fs m (m.readLine fs a) := by
  have hnames := names_of_reading hm
  unfold Machine.readLine
  split
  · exact .leave hm _ _
  · exact .leave hm _ _
  · next s rest _ =>
      dsimp only
      split
      · next v ms r _ =>
          unfold Machine.ask
          dsimp only
          split
          · -- the source moves from being read to waiting, and keeps its place
            refine .keep rfl ?_ fun lines hcalling => ?_
            · rw [hnames]
              unfold names
              simp
            · exact absurd hcalling (not_isCalling (fun _ _ => Control.noConfusion) rfl lines)
          · exact .leave hm _ _
      · unfold Machine.advance
        split
        · refine .keep rfl ?_ fun lines hcalling => ?_
          · rw [hnames]
            rfl
          · exact absurd hcalling (not_isCalling (fun _ _ => Control.noConfusion) rfl lines)
        · exact .leave hm _ _
        · exact .leave hm _ _

/-- A file that is opened is called next, if it is there. -/
theorem effect_opening {path dir : Path} (hm : m.control = .opening path dir)
    (h : m.step fs = some m') : Effect fs m m' := by
  have hreading : ∀ a, m.control ≠ .reading a := by
    intro a ha
    rw [hm] at ha
    exact nomatch ha
  unfold Machine.step at h
  rw [hm] at h
  dsimp only at h
  split at h
  · obtain rfl := Option.some.inj h
    exact .turn hreading nofun nofun
  · next lines hthere =>
      obtain rfl := Option.some.inj h
      refine .turn hreading nofun ?_
      intro lines' dir' hcontrol
      obtain ⟨rfl, -⟩ := Control.calling.inj hcontrol
      exact ⟨path, hthere⟩

/-- A definition that comes back goes to the body that waits for it. -/
theorem effect_returning {outcome : Except Error TypeDefinition}
    (hm : m.control = .returning outcome) (h : m.step fs = some m') : Effect fs m m' := by
  unfold Machine.step at h
  rw [hm] at h
  dsimp only at h
  split at h
  · exact nomatch h
  · next w waiting t hwaiting =>
      -- the source that waited goes on, under the same name
      obtain rfl := Option.some.inj h
      refine .keep rfl ?_ fun lines hcalling => ?_
      · unfold names
        rw [hm, hwaiting]
        simp [Waiting.resumed]
      · exact absurd hcalling (not_isCalling (fun _ _ => Control.noConfusion) rfl lines)
  · next w waiting e hwaiting =>
      -- the source that waited fails as well, so it ends
      obtain rfl := Option.some.inj h
      have hnames : m.names = (waiting.map fun w => w.reader.heading.name).reverse
          ++ [w.reader.heading.name] := by
        unfold names
        rw [hm, hwaiting]
        simp
      refine .pop ?_ rfl ?_ (not_isCalling (fun _ _ => Control.noConfusion) rfl)
      · rw [hnames]
        simp
      · rw [hnames, List.dropLast_concat]
        exact List.append_nil _

/-- **WHAT A STEP DOES TO THE CHAIN.** -/
theorem effect_of_step (h : m.step fs = some m') : Effect fs m m' := by
  cases hm : m.control with
  | opening path dir => exact effect_opening hm h
  | calling lines dir =>
      unfold Machine.step at h
      rw [hm] at h
      obtain rfl := Option.some.inj h
      exact effect_enter hm
  | reading a =>
      unfold Machine.step at h
      rw [hm] at h
      obtain rfl := Option.some.inj h
      exact effect_readLine hm
  | returning outcome => exact effect_returning hm h

/-- Along a run the chain is what it was at the start, with the names of the
    sources that wait or are being read. -/
theorem chain_eq_of_reaches {base : List String} (h : Reaches (step fs) m m')
    (hm : m.chain = base ++ m.names) : m'.chain = base ++ m'.names := by
  induction h with
  | refl => exact hm
  | @tail b c _ hstep ih =>
      cases effect_of_step hstep with
      | push _ _ _ hchain hnames _ => rw [hchain, hnames, ih, List.append_assoc]
      | pop hne hchain hnames _ => rw [hchain, hnames, ih, List.dropLast_append_of_ne_nil hne]
      | keep hchain hnames _ => rw [hchain, hnames, ih]

end Machine

end PlcTypes
