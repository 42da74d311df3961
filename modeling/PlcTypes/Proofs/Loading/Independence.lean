import PlcTypes.Proofs.Loading.Chain
import PlcTypes.Proofs.Loading.Following

/-! # A file means the same wherever it is referred to from

    The definitions that a file is loaded for can only have it refused.  Where
    it is not refused it gives the same definition for all of them, and when
    it has been loaded, well or not, the chain of names is what it was.  So
    files that are referred to more than once, from one definition or from
    several, do not get in each other's way: a name is refused only while its
    own definition is being read. -/

namespace PlcTypes

open Text StateTransition

/-- Names that occur in another list are refused by it as well. -/
theorem isWithin_of_forall {within within' : List String}
    (h : ∀ name ∈ within, isWithin within' name = true) {name : String}
    (hname : isWithin within name = true) : isWithin within' name = true := by
  obtain ⟨other, hother, hsame⟩ := List.any_eq_true.mp hname
  obtain ⟨third, hthird, hsame'⟩ := List.any_eq_true.mp (h other hother)
  refine List.any_eq_true.mpr ⟨third, hthird, ?_⟩
  unfold sameName at hsame hsame' ⊢
  rw [beq_iff_eq] at hsame hsame' ⊢
  rw [hsame', hsame]

namespace FileSystem

/-- Whether an error says that a definition refers back to itself. -/
def IsRefusal (e : Error) : Prop :=
  ∃ chain name, e = .cyclicReference chain name

/-- Reading on from a reference to a file gives what loading the file for the
    names on the chain gives, and then the chain and the stack are what they
    were. -/
theorem reaches_returning (fs : FileSystem) {m : Machine} {path dir : Path}
    (hm : m.control = .opening path dir) :
    Reaches (Machine.step fs) m
      { m with
        control := .returning (fs.load m.chain path dir).outcome
        events := m.events ++ (fs.load m.chain path dir).events } := by
  obtain ⟨chain, waiting, control, events⟩ := m
  obtain rfl : control = .opening path dir := hm
  exact opens fs chain path dir waiting events

/-- While a file is loaded, the chain is what it was with the names of the
    definitions that are being read. -/
theorem chain_of_opening {fs : FileSystem} {chain : List String} {path dir : Path}
    {events : List Event} {m : Machine}
    (hm : Reaches (Machine.step fs) ⟨chain, [], .opening path dir, events⟩ m) :
    m.chain = chain ++ m.names := by
  refine Machine.chain_eq_of_reaches hm ?_
  show chain = chain ++ []
  rw [List.append_nil]

/-- Where a file is refused for neither of two lists, both get the same. -/
theorem load_followedBy (fs : FileSystem) (path dir : Path) (within within' : List String) :
    Traced.FollowedBy IsRefusal (fs.load within path dir) (fs.load within' path dir) :=
  followedBy_load (Or.inr fun chain name => ⟨chain, name, rfl⟩) path dir

/-- **A FILE MEANS THE SAME WHEREVER IT IS REFERRED TO FROM**: let the names in
    `within` occur in `within'`, if the case of ASCII letters is ignored.  What
    is loaded for `within'` is loaded for `within`; what is loaded for `within`
    is loaded for `within'` or refused; and what is loaded for any two lists
    is the same.  During a call only the names of definitions that are still
    being read are added to the chain, and every call, whatever its outcome,
    leaves the chain as it was; so where the same definitions are being read,
    the same file has the same outcome each time. -/
theorem load_same (fs : FileSystem) (path dir : Path) {within within' : List String}
    (h : ∀ name ∈ within, isWithin within' name = true) :
    (∀ t, (fs.load within' path dir).outcome = .ok t →
        (fs.load within path dir).outcome = .ok t) ∧
      (∀ t, (fs.load within path dir).outcome = .ok t →
        (fs.load within' path dir).outcome = .ok t ∨
          ∃ e, (fs.load within' path dir).outcome = .error e ∧ IsRefusal e) ∧
      (∀ chain chain' t t', (fs.load chain path dir).outcome = .ok t →
        (fs.load chain' path dir).outcome = .ok t' → t = t') ∧
      (∀ chain waiting events,
        Reaches (Machine.step fs) ⟨chain, waiting, .opening path dir, events⟩
          ⟨chain, waiting, .returning (fs.load chain path dir).outcome,
            events ++ (fs.load chain path dir).events⟩) ∧
      ∀ chain events m, Reaches (Machine.step fs) ⟨chain, [], .opening path dir, events⟩ m →
        m.chain = chain ++ m.names ∧
          ∀ m' path' dir',
            Reaches (Machine.step fs) ⟨chain, [], .opening path dir, events⟩ m' →
            m.control = .opening path' dir' → m'.control = .opening path' dir' →
            m.names = m'.names →
            ∃ outcome events events',
              Reaches (Machine.step fs) m
                ⟨m.chain, m.waiting, .returning outcome, events⟩ ∧
              Reaches (Machine.step fs) m'
                ⟨m'.chain, m'.waiting, .returning outcome, events'⟩ := by
  refine ⟨?_, load_followedBy fs path dir within within', ?_,
    fun chain => opens fs chain path dir, ?_⟩
  · -- the shorter list refuses nothing that the longer one lets pass
    intro t ht
    have hpermits : Permits (fun _ => False) within' within :=
      Or.inl fun name hname => isWithin_of_forall h hname
    rcases followedBy_load hpermits path dir t ht with ht' | ⟨-, -, hfalse⟩
    · exact ht'
    · exact hfalse.elim
  · -- neither list refuses, so one follows the other
    intro chain chain' t t' ht ht'
    rcases load_followedBy fs path dir chain chain' t ht with hsame | ⟨e, he, -⟩
    · rw [ht'] at hsame
      exact (Except.ok.inj hsame).symm
    · rw [ht'] at he
      exact nomatch he
  · intro chain events m hm
    refine ⟨chain_of_opening hm, ?_⟩
    intro m' path' dir' hm' hcontrol hcontrol' hnames
    -- the same definitions are being read, so the chains are the same
    have hsame : m'.chain = m.chain := by
      rw [chain_of_opening hm, chain_of_opening hm', hnames]
    have hreturn := reaches_returning fs hcontrol'
    rw [hsame] at hreturn ⊢
    exact ⟨_, _, _, reaches_returning fs hcontrol, hreturn⟩

/-- Two files, one of which refers to the other. -/
def railFiles : FileSystem where
  home := []
  entries :=
    [(["Rail.udt"], .file (Utf8.encode
      "TYPE \"Rail\"\nVERSION : 0.1\nSTRUCT\nx : \"Motor\";\nEND_STRUCT;\nEND_TYPE\n".toList)),
     (["Motor.udt"], .file (Utf8.encode
      "TYPE \"Motor\"\nVERSION : 0.1\nSTRUCT\nEND_STRUCT;\nEND_TYPE\n".toList))]

theorem load_rail :
    (∀ name ∈ ["line"], isWithin ["Plant", "LINE"] name = true) ∧
      (railFiles.load ["line"] ⟨"Rail.udt"⟩ ⟨""⟩).outcome
        = .ok ⟨"Rail", "0.1", "", [.struct "x" "" []]⟩ := by
  have hnames : ∀ name ∈ ["line"], isWithin ["Plant", "LINE"] name = true := by decide
  refine ⟨hnames, (load_same railFiles ⟨"Rail.udt"⟩ ⟨""⟩ hnames).1 _ ?_⟩
  decide +kernel

end FileSystem

end PlcTypes
