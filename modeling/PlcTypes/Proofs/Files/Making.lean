import PlcTypes.Proofs.Files.Tree

/-! # Making trees

    A tree starts as a working directory and grows by entries that bring the
    directories above them along.  It stays a tree as long as no entry is put
    below a file and no file in the place of a directory.  So everything is a
    tree that a tool makes of files that it finds somewhere. -/

namespace PlcTypes.FileSystem

variable {fs : FileSystem}

/-- The tree with an entry at a location, and with directories above it. -/
def put (fs : FileSystem) (location : Location) (entry : Entry) : FileSystem :=
  { fs with entries := (location, entry) :: fs.entries ++ directoriesAbove location }

theorem mem_directoriesAbove {location : Location} {e : Location × Entry} :
    e ∈ directoriesAbove location ↔
      ∃ k, k < location.length ∧ (location.take k, Entry.directory) = e := by
  unfold directoriesAbove
  rw [List.mem_map]
  simp only [List.mem_range]

/-- Among directories, a directory is found wherever there is an entry. -/
theorem lookup_eq_directory {entries : List (Location × Entry)} {location : Location}
    (hall : ∀ e ∈ entries, e.2 = .directory) (hmem : (location, .directory) ∈ entries) :
    entries.lookup location = some .directory := by
  induction entries with
  | nil => exact nomatch hmem
  | cons e entries ih =>
      obtain ⟨place, entry⟩ := e
      rw [List.lookup_cons]
      by_cases hplace : location = place
      · have hentry : entry = .directory := hall (place, entry) List.mem_cons_self
        rw [hplace, beq_self_eq_true, hentry]
      · rw [beq_false_of_ne hplace]
        refine ih (fun e he => hall e (List.mem_cons_of_mem _ he)) ?_
        rcases List.mem_cons.mp hmem with heq | hmem
        · exact absurd (Prod.mk.inj heq).1 hplace
        · exact hmem

section Put

variable {location : Location} {entry : Entry}

/-- What is found elsewhere: what was there, or a directory above the new
    entry. -/
theorem entry?_put_of_ne {place : Location} (hplace : place ≠ location) :
    entry? (fs.put location entry) place
      = (fs.entry? place).or ((directoriesAbove location).lookup place) := by
  cases place with
  | nil => rfl
  | cons name place =>
      show (((location, entry) :: fs.entries) ++ directoriesAbove location).lookup (name :: place)
        = (fs.entries.lookup (name :: place)).or _
      rw [List.cons_append, List.lookup_cons, beq_false_of_ne hplace]
      exact List.lookup_append

theorem entry?_put_self : entry? (fs.put location .directory) location = some .directory := by
  cases location with
  | nil => rfl
  | cons name place =>
      show List.lookup (name :: place) ((name :: place, Entry.directory) :: _) = _
      exact List.lookup_cons_self

/-- A directory stays, unless a file is put in its place. -/
theorem entry?_put_of_directory {place : Location} (hplace : fs.entry? place = some .directory)
    (hentry : place = location → entry = .directory) :
    entry? (fs.put location entry) place = some .directory := by
  by_cases heq : place = location
  · rw [hentry heq, heq]
    exact entry?_put_self
  · rw [entry?_put_of_ne heq, hplace, Option.some_or]

variable (habove : ∀ k < location.length, ∀ bytes,
  fs.entry? (location.take k) ≠ some (.file bytes))
include habove

/-- Above the new entry there are directories. -/
theorem entry?_put_take {k : Nat} (hk : k < location.length) :
    entry? (fs.put location entry) (location.take k) = some .directory := by
  have hne : location.take k ≠ location := by
    intro heq
    have hlength := congrArg List.length heq
    rw [List.length_take] at hlength
    omega
  have hdirectory : (directoriesAbove location).lookup (location.take k) = some .directory := by
    refine lookup_eq_directory ?_ (mem_directoriesAbove.mpr ⟨k, hk, rfl⟩)
    intro e he
    obtain ⟨_, -, rfl⟩ := mem_directoriesAbove.mp he
    rfl
  rw [entry?_put_of_ne hne, hdirectory]
  cases hold : fs.entry? (location.take k) with
  | none => rfl
  | some old =>
      cases old with
      | file bytes => exact absurd hold (habove k hk bytes)
      | directory => rfl

/-- The directory of an entry above the new one, or of the new one itself. -/
theorem entry?_put_dropLast {k : Nat} (hk : k ≤ location.length) :
    entry? (fs.put location entry) (location.take k).dropLast = some .directory := by
  cases k with
  | zero => rfl
  | succ k =>
      have hdrop : (location.take (k + 1)).dropLast = location.take k := by
        rw [List.dropLast_eq_take, List.length_take, List.take_take]
        congr 1
        omega
      rw [hdrop]
      exact entry?_put_take habove hk

/-- **PUTTING AN ENTRY** where no file is above it, and no file in the place of
    a directory, keeps what a tree is. -/
theorem above_put (hentries : ∀ e ∈ fs.entries, fs.entry? e.1.dropLast = some .directory)
    (hplace : fs.entry? location = some .directory → entry = .directory) :
    ∀ e ∈ (fs.put location entry).entries,
      entry? (fs.put location entry) e.1.dropLast = some .directory := by
  intro e he
  rcases List.mem_append.mp he with he | he
  · rcases List.mem_cons.mp he with rfl | he
    · show entry? (fs.put location entry) location.dropLast = _
      have hself : entry? (fs.put location entry) (location.take location.length).dropLast
          = some .directory := entry?_put_dropLast habove (Nat.le_refl location.length)
      rw [List.take_length] at hself
      exact hself
    · refine entry?_put_of_directory (hentries e he) fun heq => hplace ?_
      rw [← heq]
      exact hentries e he
  · obtain ⟨k, hk, rfl⟩ := mem_directoriesAbove.mp he
    exact entry?_put_dropLast habove (Nat.le_of_lt hk)

end Put

/-- A tree stays a tree when an entry is put where no file is above it, unless
    it is a file in the place of a directory. -/
theorem IsTree.insert (h : fs.IsTree) {path : Path} {entry : Entry}
    (habove : ∀ k < (fs.spelled path).length, ∀ bytes,
      fs.entry? ((fs.spelled path).take k) ≠ some (.file bytes))
    (hplace : fs.entry? (fs.spelled path) = some .directory → entry = .directory) :
    (fs.insert path entry).IsTree := by
  constructor
  · refine entry?_put_of_directory h.home fun heq => hplace ?_
    rw [← heq]
    exact h.home
  · exact above_put habove h.above hplace

/-- The tree that holds nothing but a working directory is one. -/
theorem isTree_ofHome (home : Location) : (ofHome home).IsTree := by
  have hempty : ∀ location bytes, entry? ⟨home, []⟩ location ≠ some (.file bytes) := by
    intro location bytes
    cases location with
    | nil => exact nofun
    | cons name location => exact nofun
  show (put ⟨home, []⟩ home .directory).IsTree
  constructor
  · exact entry?_put_self
  · exact above_put (fun k _ bytes => hempty (home.take k) bytes) nofun fun _ => rfl

/-- The trees that are made from a working directory entry by entry, none of
    them below a file, and no file in the place of a directory. -/
inductive Grown : FileSystem → Prop where
  | home (home : Location) : Grown (ofHome home)
  | insert {fs : FileSystem} {path : Path} {entry : Entry} (h : Grown fs)
      (habove : ∀ k < (fs.spelled path).length, ∀ bytes,
        fs.entry? ((fs.spelled path).take k) ≠ some (.file bytes))
      (hplace : fs.entry? (fs.spelled path) = some .directory → entry = .directory) :
      Grown (fs.insert path entry)

/-- **WHAT HAS GROWN IS A TREE.** -/
theorem Grown.isTree (h : fs.Grown) : fs.IsTree := by
  induction h with
  | home home => exact isTree_ofHome home
  | insert _ habove hplace ih => exact ih.insert habove hplace

end PlcTypes.FileSystem
