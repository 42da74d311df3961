import PlcTypes.Proofs.Files.Tree

/-! # Directories and what is in them

    A directory is given by a path, and the empty path is that of the working
    directory.  Many paths spell one directory, and taking the parent of a path
    need not give back the text of the directory that the path was joined
    from; but it keeps the components that count, and so it keeps where they
    lead.

    What a path leads to that was joined from the spelling of a directory and a
    plain name is an entry directly in that directory. -/

namespace PlcTypes

namespace Path

/-! ## Plain names -/

/-- Whether a name can be that of an entry: it is one component, and neither idle
    nor two dots. -/
structure IsPlain (name : String) : Prop where
  single : '/' ∉ name.toList
  solid : isIdle name.toList = false
  forth : name.toList ≠ ['.', '.']

/-- Names without a slash are plain when they have an extension. -/
theorem isPlain_append {name extension : String} (hname : '/' ∉ name.toList)
    (hextension : '/' ∉ extension.toList) (hlength : 3 ≤ extension.toList.length) :
    IsPlain (name ++ extension) := by
  have hlong : 3 ≤ (name ++ extension).toList.length := by
    rw [String.toList_append, List.length_append]
    omega
  refine ⟨?_, ?_, ?_⟩
  · rw [String.toList_append, List.mem_append]
    exact fun h => h.elim hname hextension
  · -- what is idle or leads back has two characters at most
    cases hidle : isIdle (name ++ extension).toList with
    | false => rfl
    | true =>
        rw [isIdle, Bool.or_eq_true, List.isEmpty_iff, beq_iff_eq] at hidle
        rcases hidle with hnil | hdot
        · rw [hnil] at hlong
          exact absurd hlong (by decide)
        · rw [hdot] at hlong
          exact absurd hlong (by decide)
  · intro hdots
    rw [hdots] at hlong
    exact absurd hlong (by decide)

theorem IsPlain.isAbsolute {name : String} (h : IsPlain name) : isAbsolute name.toList = false := by
  rw [Path.isAbsolute, beq_eq_false_iff_ne]
  exact fun hhead => h.single (List.mem_of_head? hhead)

/-- A plain name is its only component. -/
theorem IsPlain.components {name : String} (h : IsPlain name) :
    components name.toList = [name.toList] :=
  List.splitOn_eq_singleton h.single

/-! ## Spellings of a directory -/

/-- Whether a path has more bytes than can be followed. -/
def IsLong (p : Path) : Prop :=
  FileSystem.maxPathBytes < p.text.utf8ByteSize

instance (p : Path) : Decidable p.IsLong :=
  inferInstanceAs (Decidable (_ < _))

/-- Another path spells the same directory: it has the same components, idle ones
    apart, and starts in the same place.  If the directory has a path that cannot
    be followed for its length, neither can this one. -/
structure Spells (d dir : Path) : Prop where
  components : solid (components dir.text.toList) = solid (components d.text.toList)
  start : isAbsolute dir.text.toList = isAbsolute d.text.toList
  long : d.IsLong → dir.IsLong

/-- Joining a relative name to a directory makes its path longer. -/
theorem utf8ByteSize_le_join (dir : Path) {name : String}
    (hname : Path.isAbsolute name.toList = false) :
    dir.text.utf8ByteSize ≤ (dir.join name).text.utf8ByteSize := by
  have hlead : dir.text.utf8ByteSize ≤ dir.lead.utf8ByteSize := by
    rw [lead]
    split
    · next hempty =>
        rw [List.isEmpty_iff, String.toList_eq_nil_iff] at hempty
        rw [hempty]
    · split
      · exact Nat.le_refl _
      · rw [String.utf8ByteSize_append]
        exact Nat.le_add_right _ _
  rw [join_of_relative dir hname]
  dsimp only
  rw [String.utf8ByteSize_append]
  exact hlead.trans (Nat.le_add_right _ _)

theorem Spells.refl (d : Path) : d.Spells d :=
  ⟨rfl, rfl, id⟩

/-- A path is that of a name in a directory: it has the components of the directory,
    and then the name. -/
structure IsIn (d path : Path) (name : String) : Prop where
  plain : IsPlain name
  components : ∃ cs, components path.text.toList = cs ++ [name.toList] ∧
    solid cs = solid (Path.components d.text.toList)
  start : isAbsolute path.text.toList = isAbsolute d.text.toList
  long : d.IsLong → path.IsLong

variable {d dir path : Path} {name : String}

/-- A plain name that is joined to a spelling of a directory is in it. -/
theorem Spells.isIn_join (h : d.Spells dir) (hname : IsPlain name) :
    d.IsIn (dir.join name) name := by
  obtain ⟨cs, hcomponents, hsolid, hstart⟩ := components_join dir hname.isAbsolute
  refine ⟨hname, ⟨cs, ?_, hsolid.trans h.components⟩, hstart.trans h.start, fun hlong => ?_⟩
  · rw [hcomponents, hname.components]
  · exact (h.long hlong).trans_le (dir.utf8ByteSize_le_join hname.isAbsolute)

/-- The name of a definition with the extension of its file is a path directly in
    the directory. -/
theorem Spells.isIn_extended (h : d.Spells dir) {target : String} (htarget : '/' ∉ target.toList)
    (extension : String) (hextension : '/' ∉ extension.toList)
    (hlength : 3 ≤ extension.toList.length) :
    d.IsIn (dir.join (target ++ extension)) (target ++ extension) :=
  h.isIn_join (isPlain_append htarget hextension hlength)

/-- The parent of a path that can be followed spells the directory that it is
    in. -/
theorem IsIn.spells_parent (h : d.IsIn path name) (hshort : ¬ path.IsLong) :
    d.Spells path.parent := by
  obtain ⟨cs, hcomponents, hsolid⟩ := h.components
  have hpath : solid (Path.components path.text.toList) = solid cs ++ [name.toList] := by
    rw [hcomponents, solid_append, solid_cons h.plain.solid]
    rfl
  obtain ⟨hparent, hstart⟩ := solid_components_parent path (by rw [hpath]; simp)
  refine ⟨?_, hstart.trans h.start, fun hlong => absurd (h.long hlong) hshort⟩
  rw [hparent, hpath, List.dropLast_concat, hsolid]

end Path

namespace FileSystem

open PlcTypes.Path

variable {fs fs' : FileSystem} {d dir path : Path} {name : String}

/-! ## Where a directory is -/

/-- The directory that a path leads to, if there is one. -/
def directory? (fs : FileSystem) (d : Path) : Option Location :=
  (if d.text.isEmpty then some fs.home else fs.locate d).filter fun location =>
    fs.entry? location = some .directory

/-- What stands directly in a directory under a name. -/
def entryIn? (fs : FileSystem) (d : Path) (name : String) : Option Entry :=
  (fs.directory? d).bind fun directory => fs.entry? (directory ++ [name])

/-- Two file systems have the same entries directly in a directory.  They have
    them, in particular, if the directory is in neither. -/
def SameIn (d : Path) (fs fs' : FileSystem) : Prop :=
  ∀ name, fs'.entryIn? d name = fs.entryIn? d name

theorem locate_eq_walk (hne : path.text ≠ "") (hshort : ¬ path.IsLong) :
    fs.locate path = fs.walk (fs.start path) (components path.text.toList) := by
  rw [locate, if_neg]
  · rfl
  · rw [Bool.or_eq_true, String.isEmpty_iff, decide_eq_true_eq]
    exact fun h => h.elim hne hshort

/-- A directory that can be followed is where its components lead. -/
theorem directory?_eq (hshort : ¬ d.IsLong) :
    fs.directory? d = (fs.walk (fs.start d) (components d.text.toList)).filter fun location =>
      fs.entry? location = some .directory := by
  by_cases hempty : d.text = ""
  · -- the only component of the empty path stays in the working directory
    obtain rfl : d = ⟨""⟩ := congrArg Path.mk hempty
    show Option.filter _ (some fs.home) = Option.filter _ (fs.walk fs.home [[]])
    rw [walk_cons]
    by_cases hhome : fs.entry? fs.home = some .directory
    · rw [follow_idle hhome rfl]
      rfl
    · rw [follow_of_not_directory hhome, Option.filter_some_neg (by simpa using hhome)]
      rfl
  · rw [directory?, if_neg (by rwa [String.isEmpty_iff]), locate_eq_walk hempty hshort]

/-- From a directory a plain name leads to the entry with this name. -/
theorem follow_of_isPlain {location : Location} (hdir : fs.entry? location = some .directory)
    (hname : IsPlain name) :
    fs.follow location name.toList
      = if (fs.entry? (location ++ [name])).isSome then some (location ++ [name]) else none := by
  rw [follow, if_neg (by simpa using hdir), if_neg (by rw [hname.solid]; exact Bool.false_ne_true),
    if_neg (by simpa using hname.forth), String.ofList_toList]

/-- **A PATH IN A DIRECTORY** leads directly into the directory, if it leads
    anywhere. -/
theorem locate_of_isIn (h : d.IsIn path name) (hshort : ¬ path.IsLong) :
    fs.locate path = (fs.directory? d).bind fun directory =>
      if (fs.entry? (directory ++ [name])).isSome then some (directory ++ [name]) else none := by
  obtain ⟨cs, hcomponents, hsolid⟩ := h.components
  have hempty : path.text ≠ "" := by
    intro hempty
    rw [hempty] at hcomponents
    -- the only component of the empty path is empty, and the name is not
    have hlast : [([] : List Char)].getLast? = (cs ++ [name.toList]).getLast? :=
      congrArg List.getLast? hcomponents
    have hidle : isIdle name.toList = true := by
      rw [List.getLast?_concat] at hlast
      rw [← Option.some.inj hlast]
      rfl
    rw [h.plain.solid] at hidle
    exact Bool.false_ne_true hidle
  have hstart : fs.start path = fs.start d := by
    rw [start, start, h.start]
  rw [locate_eq_walk hempty hshort, hcomponents, ← walk_solid, hsolid, walk_solid, hstart,
    walk_append, directory?_eq (mt h.long hshort)]
  cases fs.walk (fs.start d) (components d.text.toList) with
  | none => rfl
  | some location =>
      rw [Option.bind_some, walk_cons]
      by_cases hdir : fs.entry? location = some .directory
      · rw [Option.filter_some_pos (by simpa using hdir), Option.bind_some,
          follow_of_isPlain hdir h.plain]
        split
        · rfl
        · rfl
      · rw [follow_of_not_directory hdir, Option.filter_some_neg (by simpa using hdir)]
        rfl

theorem locate_of_isLong (h : path.IsLong) : fs.locate path = none := by
  rw [locate, if_pos]
  rw [Bool.or_eq_true, decide_eq_true_eq]
  exact Or.inr h

/-- What stands at the end of a path in a directory is what stands in the directory
    under the name. -/
theorem at?_of_isIn (h : d.IsIn path name) (hshort : ¬ path.IsLong) :
    fs.at? path = fs.entryIn? d name := by
  rw [at?, locate_of_isIn h hshort, entryIn?, Option.bind_assoc]
  congr 1
  funext directory
  cases hentry : fs.entry? (directory ++ [name]) with
  | none => rfl
  | some entry => exact hentry

/-- In file systems with the same entries in a directory the same stands at the end
    of every path in it. -/
theorem SameIn.at?_eq (h : SameIn d fs fs') (hpath : d.IsIn path name) :
    fs'.at? path = fs.at? path := by
  by_cases hlong : path.IsLong
  · rw [at?, at?, locate_of_isLong hlong, locate_of_isLong hlong]
    rfl
  · rw [at?_of_isIn hpath hlong, at?_of_isIn hpath hlong, h name]

end FileSystem

end PlcTypes
