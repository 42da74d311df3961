import Mathlib.Data.List.Dedup
import Mathlib.Data.List.Perm.Subperm
import PlcTypes.Proofs.Loading.Chain

/-! # Reading ends

    Every way to read a definition ends, whatever the files are and however
    they refer to one another.  At every moment the names on the chain are
    different from one another, and all but the first, which may come from a
    source that is no file, stand in the heading of some file.  So the chain,
    and with it the nesting of definitions, cannot get longer than there are
    such names. -/

namespace PlcTypes

open Text StateTransition

namespace FileSystem

/-- The names in the headings of the files that stand in a tree. -/
def standingNames (fs : FileSystem) : List String :=
  (fs.entries.filter fun e => fs.entry? e.1 == some e.2).filterMap fun e => headingName? e.2

/-- How many different names there are in the headings of files, if the case
    of ASCII letters is ignored. -/
def nameCount (fs : FileSystem) : Nat :=
  (fs.standingNames.map fun name => foldCase name.toList).dedup.length

theorem mem_standingNames {fs : FileSystem} {path : Path} {lines : List Line} {h : Heading}
    (hthere : fs.lines? path = some lines) (hfound : Heading.find 0 lines = .ok h) :
    h.name ∈ fs.standingNames := by
  obtain ⟨entry, hat, rfl⟩ := Option.map_eq_some_iff.mp hthere
  obtain ⟨location, -, hstands⟩ := Option.bind_eq_some_iff.mp hat
  cases entry with
  | directory => exact nomatch hfound
  | file bytes =>
      have hmem : (location, Entry.file bytes) ∈ fs.entries := by
        unfold entry? at hstands
        split at hstands
        · exact nomatch hstands
        · obtain ⟨before, after, hsplit, -⟩ := List.lookup_eq_some_iff.mp hstands
          rw [hsplit]
          simp
      have hname : headingName? (.file bytes) = some h.name := by
        unfold headingName?
        dsimp only
        rw [show Heading.find 0 (linesOfBytes bytes) = .ok h from hfound]
      refine List.mem_filterMap.mpr ⟨_, List.mem_filter.mpr ⟨hmem, ?_⟩, hname⟩
      simp [hstands]

end FileSystem

namespace Machine

/-- The number of sources that have been called and have not ended. -/
def depth (m : Machine) : Nat :=
  m.waiting.length +
    match m.control with
    | .calling _ _ | .reading _ => 1
    | .opening _ _ | .returning _ => 0

theorem depth_le (m : Machine) : m.depth ≤ m.names.length + 1 := by
  unfold depth names
  rw [List.length_append, List.length_reverse, List.length_map]
  cases m.control <;> simp

/-- The invariant of reading: the chain holds different names, and all but the
    first are known from files. -/
structure IsSafe (fs : FileSystem) (m : Machine) : Prop where
  chain : m.chain = m.names
  distinct : m.chain.Pairwise fun a b => sameName a b = false
  known : ∀ name ∈ m.chain.tail, name ∈ fs.standingNames
  calling : ∀ lines, m.IsCalling lines → m.chain = [] ∨ ∃ path, fs.lines? path = some lines

variable {fs : FileSystem} {m m' : Machine}

/-- A name that is put on a safe chain is known, if it is not the first. -/
theorem IsSafe.known_push (h : m.IsSafe fs) {lines : List Line} {head : Heading}
    (hcalling : m.IsCalling lines) (hfound : Heading.find 0 lines = .ok head) :
    ∀ name ∈ (m.chain ++ [head.name]).tail, name ∈ fs.standingNames := by
  intro name hname
  rcases h.calling lines hcalling with hnil | ⟨path, hthere⟩
  · rw [hnil] at hname
    exact nomatch hname
  · cases hc : m.chain with
    | nil =>
        rw [hc] at hname
        exact nomatch hname
    | cons first chain =>
        rw [hc, List.cons_append, List.tail_cons, List.mem_append, List.mem_singleton] at hname
        rcases hname with hname | rfl
        · refine h.known name ?_
          rw [hc]
          exact hname
        · exact FileSystem.mem_standingNames hthere hfound

/-- **ONE STEP PRESERVES THE INVARIANT.** -/
theorem IsSafe.step (h : m.IsSafe fs) (hstep : m.step fs = some m') : m'.IsSafe fs := by
  cases effect_of_step hstep with
  | @push lines head hcalling hfound hnew hchain hnames hquiet =>
      refine ⟨?_, ?_, ?_, fun lines hlines => absurd hlines (hquiet lines)⟩
      · rw [hchain, hnames, h.chain]
      · -- the new name was compared with all names on the chain
        rw [hchain, List.pairwise_append]
        refine ⟨h.distinct, List.pairwise_singleton _ _, fun a ha b hb => ?_⟩
        rw [List.mem_singleton] at hb
        rw [hb]
        unfold isWithin at hnew
        rw [List.any_eq_false] at hnew
        exact Bool.eq_false_iff.mpr (hnew a ha)
      · rw [hchain]
        exact h.known_push hcalling hfound
  | pop hne hchain hnames hquiet =>
      refine ⟨?_, ?_, ?_, fun lines hlines => absurd hlines (hquiet lines)⟩
      · rw [hchain, hnames, h.chain]
      · rw [hchain]
        exact h.distinct.sublist (List.dropLast_sublist _)
      · intro name hname
        rw [hchain, List.tail_dropLast] at hname
        exact h.known name (List.mem_of_mem_dropLast hname)
  | keep hchain hnames hfile =>
      refine ⟨?_, ?_, ?_, fun lines hlines => Or.inr (hfile lines hlines)⟩
      · rw [hchain, hnames, h.chain]
      · rw [hchain]
        exact h.distinct
      · rw [hchain]
        exact h.known

/-- Every run preserves the invariant. -/
theorem IsSafe.reaches (h : m.IsSafe fs) (hrun : Reaches (Machine.step fs) m m') :
    m'.IsSafe fs := by
  induction hrun with
  | refl => exact h
  | tail _ hstep ih => exact ih.step hstep

/-- A safe chain is no longer than there are names. -/
theorem IsSafe.length_chain_le (h : m.IsSafe fs) : m.chain.length ≤ 1 + fs.nameCount := by
  have hnodup : (m.chain.tail.map fun name => foldCase name.toList).Nodup := by
    refine List.Pairwise.map _ ?_ (h.distinct.sublist (List.tail_sublist _))
    intro a b hab
    unfold sameName at hab
    simpa using hab
  -- different names without their case, all from headings of files
  have hsubset : (m.chain.tail.map fun name => foldCase name.toList)
      ⊆ (fs.standingNames.map fun name => foldCase name.toList).dedup := by
    intro folded hfolded
    obtain ⟨name, hname, rfl⟩ := List.mem_map.mp hfolded
    exact List.mem_dedup.mpr (List.mem_map.mpr ⟨name, h.known name hname, rfl⟩)
  have hlength := (hnodup.subperm hsubset).length_le
  rw [List.length_map, List.length_tail] at hlength
  unfold FileSystem.nameCount
  omega

end Machine

/-! ## The ways to read a definition -/

/-- A definition to be read. -/
inductive Request where
  | text (source : String) (dir : Path)
  | bytes (source : List UInt8) (dir : Path)
  | path (path : Path)
  | pathIn (path dir : Path)

namespace Request

/-- The result of reading a definition. -/
def answer (fs : FileSystem) : Request → Traced TypeDefinition
  | text source dir => fs.readText source dir
  | bytes source dir => fs.readBytes source dir
  | path p => fs.readPath p
  | pathIn p dir => fs.readPathIn p dir

/-- The machine that is about to read a definition. -/
def start (r : Request) : Machine where
  chain := []
  waiting := []
  control :=
    match r with
    | text source dir => .calling (linesOfText source) dir
    | bytes source dir => .calling (linesOfBytes source) dir
    | path p => .opening p p.parent
    | pathIn p dir => .opening p dir
  events := []

variable {fs : FileSystem}

theorem isSafe_start (r : Request) : r.start.IsSafe fs := by
  refine ⟨?_, List.Pairwise.nil, nofun, fun _ _ => Or.inl rfl⟩
  cases r <;> rfl

/-- From its start the machine reads the definition. -/
theorem reaches_answer (r : Request) :
    Reaches (Machine.step fs) r.start
      ⟨[], [], .returning (r.answer fs).outcome, (r.answer fs).events⟩ := by
  have hcalls : ∀ lines dir, Reaches (Machine.step fs) ⟨[], [], .calling lines dir, []⟩
      ⟨[], [], .returning (fs.readLines dir lines).outcome, (fs.readLines dir lines).events⟩ :=
    fun lines dir => calls (fun h p _ _ => opens fs _ p p.parent) rfl
  cases r with
  | text source dir => exact hcalls (linesOfText source) dir
  | bytes source dir => exact hcalls (linesOfBytes source) dir
  | path p => exact opens fs [] p p.parent [] []
  | pathIn p dir => exact opens fs [] p dir [] []

/-- **READING ENDS**: however it is asked for and whatever the files are, the
    machine comes to an end with the definition or an error that reading is
    said to give.  At every moment before, the names on the chain are
    different from one another, and the chain and the nesting of sources are
    bounded by the number of names in the headings of files. -/
theorem reading_ends (fs : FileSystem) (r : Request) :
    (∃ m ∈ eval (Machine.step fs) r.start,
        m.control = .returning (r.answer fs).outcome ∧ m.events = (r.answer fs).events ∧
          m.chain = []) ∧
      ∀ m, Reaches (Machine.step fs) r.start m →
        m.chain.Pairwise (fun a b => sameName a b = false) ∧
          m.chain.length ≤ 1 + fs.nameCount ∧ m.depth ≤ 1 + fs.nameCount + 1 := by
  constructor
  · exact ⟨_, mem_eval.mpr ⟨r.reaches_answer, rfl⟩, rfl, rfl, rfl⟩
  · intro m hm
    have hsafe := (isSafe_start r).reaches hm
    have hlength := hsafe.length_chain_le
    refine ⟨hsafe.distinct, hlength, ?_⟩
    have hdepth := m.depth_le
    rw [← hsafe.chain] at hdepth
    omega

end Request

end PlcTypes
