import PlcTypes.Files.Basic
import PlcTypes.Proofs.Files.Path

/-! # Trees of files

    In a tree every entry stands in a directory.  So a path that leads to a
    file ends in the name of the file, and its parent leads to the directory
    that the file is in: what a name means beside a file depends on where the
    file is, not on the path that it was reached by.

    A file that is overwritten stays a file, so every path leads where it led
    before. -/

namespace PlcTypes.FileSystem

open PlcTypes.Path

variable {fs : FileSystem}

/-- The entries make a tree: each of them stands in a directory, and so does
    whoever works in it.  Entries that do not, such as one below a file, are
    those of no file system. -/
structure IsTree (fs : FileSystem) : Prop where
  home : fs.entry? fs.home = some .directory
  above : ∀ e ∈ fs.entries, fs.entry? e.1.dropLast = some .directory

/-- What stands somewhere stands in a directory. -/
theorem IsTree.entry?_dropLast (h : fs.IsTree) {location : Location} {entry : Entry}
    (hentry : fs.entry? location = some entry) :
    fs.entry? location.dropLast = some .directory := by
  cases location with
  | nil => rfl
  | cons name location =>
      obtain ⟨before, after, hsplit, -⟩ := List.lookup_eq_some_iff.mp hentry
      exact h.above (name :: location, entry) (by rw [hsplit]; simp)

/-! ## Following components -/

/-- Where components lead, one after the other. -/
def walk (fs : FileSystem) (location : Location) (cs : List (List Char)) : Option Location :=
  cs.foldlM fs.follow location

/-- Where a name leads from a directory. -/
def locateFrom (fs : FileSystem) (dir : Location) (name : String) : Option Location :=
  fs.walk (if isAbsolute name.toList then [] else dir) (components name.toList)

theorem walk_cons (location : Location) (c : List Char) (cs : List (List Char)) :
    fs.walk location (c :: cs) = (fs.follow location c).bind fun next => fs.walk next cs :=
  List.foldlM_cons

theorem walk_append (location : Location) (as bs : List (List Char)) :
    fs.walk location (as ++ bs) = (fs.walk location as).bind fun next => fs.walk next bs :=
  List.foldlM_append

/-- A component leads only from a directory. -/
theorem follow_of_not_directory {location : Location}
    (h : fs.entry? location ≠ some .directory) (c : List Char) : fs.follow location c = none := by
  unfold follow
  rw [if_pos h]

/-- An idle component leads nowhere, but only a directory lets it be followed. -/
theorem follow_idle {location : Location} (h : fs.entry? location = some .directory)
    {c : List Char} (hc : isIdle c = true) : fs.follow location c = some location := by
  unfold follow
  rw [if_neg (by simpa using h), if_pos hc]

/-- Idle components before another component make no difference. -/
theorem walk_solid (location : Location) (as : List (List Char)) (c : List Char)
    (cs : List (List Char)) :
    fs.walk location (solid as ++ c :: cs) = fs.walk location (as ++ c :: cs) := by
  induction as generalizing location with
  | nil => rfl
  | cons a as ih =>
      cases ha : isIdle a with
      | false =>
          rw [solid_cons ha, List.cons_append, List.cons_append, walk_cons, walk_cons]
          simp only [ih]
      | true =>
          rw [solid_cons_of_idle ha, ih, List.cons_append, walk_cons]
          by_cases hdir : fs.entry? location = some .directory
          · rw [follow_idle hdir ha, Option.bind_some]
          · -- the component after the idle ones needs a directory, too
            have hnone : ∀ b bs, fs.walk location (b :: bs) = none := by
              intro b bs
              rw [walk_cons, follow_of_not_directory hdir, Option.bind_none]
            rw [follow_of_not_directory hdir, Option.bind_none]
            cases as with
            | nil => exact hnone c cs
            | cons b as => exact hnone b (as ++ c :: cs)

/-- Only the name of a file leads to it, and it does so from the directory that
    the file is in. -/
theorem IsTree.follow_to_file (h : fs.IsTree) {location target : Location} {c : List Char}
    {bytes : List UInt8} (hfollow : fs.follow location c = some target)
    (hfile : fs.entry? target = some (.file bytes)) :
    isIdle c = false ∧ location = target.dropLast := by
  unfold follow at hfollow
  by_cases hdir : fs.entry? location = some .directory
  · rw [if_neg (by simpa using hdir)] at hfollow
    split at hfollow
    · -- an idle component would lead to the directory itself
      rw [← Option.some.inj hfollow, hdir] at hfile
      exact nomatch hfile
    · next hidle =>
        refine ⟨by simpa using hidle, ?_⟩
        split at hfollow
        · -- two dots would lead to the directory above
          rw [← Option.some.inj hfollow, h.entry?_dropLast hdir] at hfile
          exact nomatch hfile
        · dsimp only at hfollow
          split at hfollow
          · rw [← Option.some.inj hfollow, List.dropLast_concat]
          · exact nomatch hfollow
  · rw [if_pos hdir] at hfollow
    exact nomatch hfollow

/-! ## Beside a file -/

/-- Where a path leads, when it is not refused for its length. -/
theorem locate_eq_some {path : Path} {location : Location} (h : fs.locate path = some location) :
    fs.walk (fs.start path) (components path.text.toList) = some location := by
  unfold locate at h
  split at h
  · exact nomatch h
  · exact h

/-- The parent of a path to a file leads to the directory that the file is in,
    before any other component. -/
theorem IsTree.walk_parent (h : fs.IsTree) {path : Path} {location : Location}
    {bytes : List UInt8} (hpath : fs.locate path = some location)
    (hfile : fs.entry? location = some (.file bytes)) (c : List Char) (cs : List (List Char)) :
    fs.start path.parent = fs.start path ∧
      fs.walk (fs.start path) (solid (components path.parent.text.toList) ++ c :: cs)
        = fs.walk location.dropLast (c :: cs) := by
  have hwalk := locate_eq_some hpath
  rcases List.eq_nil_or_concat (components path.text.toList) with hnil | ⟨as, last, hcomponents⟩
  · exact absurd hnil (List.splitOn_ne_nil _ _)
  · rw [List.concat_eq_append] at hcomponents
    rw [hcomponents, walk_append] at hwalk
    obtain ⟨dir, hdir, hlast⟩ := Option.bind_eq_some_iff.mp hwalk
    have hfollow : fs.follow dir last = some location := by
      rw [walk_cons] at hlast
      obtain ⟨target, hfollow, htarget⟩ := Option.bind_eq_some_iff.mp hlast
      rw [hfollow, Option.some.inj htarget]
    obtain ⟨hidle, rfl⟩ := h.follow_to_file hfollow hfile
    have hsolid : solid (components path.text.toList) = solid as ++ [last] := by
      rw [hcomponents, solid_append, solid_cons hidle]
      rfl
    obtain ⟨hparent, habsolute⟩ := solid_components_parent path (by rw [hsolid]; simp)
    constructor
    · unfold start
      rw [habsolute]
    · rw [hparent, hsolid, List.dropLast_concat, walk_solid, walk_append, hdir, Option.bind_some]

/-- **BESIDE A FILE** a name leads where it leads from the directory of the
    file, whatever the path to the file was, unless the path becomes too
    long. -/
theorem IsTree.locate_join_parent (h : fs.IsTree) {path : Path} {location : Location}
    {bytes : List UInt8} (hpath : fs.locate path = some location)
    (hfile : fs.entry? location = some (.file bytes)) {name : String} (hname : name ≠ "") :
    fs.locate (path.parent.join name)
      = if (path.parent.join name).text.utf8ByteSize > maxPathBytes then none
        else fs.locateFrom location.dropLast name := by
  have hne : (path.parent.join name).text ≠ "" := join_ne_empty path.parent hname
  have hlocate : fs.locate (path.parent.join name)
      = if (path.parent.join name).text.utf8ByteSize > maxPathBytes then none
        else fs.walk (fs.start (path.parent.join name))
          (components (path.parent.join name).text.toList) := by
    show (if _ then none else _) = _
    by_cases hlong : (path.parent.join name).text.utf8ByteSize > maxPathBytes
    · rw [if_pos hlong, if_pos (by simp [hlong])]
    · rw [if_neg hlong, if_neg (by simp [hne, hlong])]
      rfl
  have hwalk : fs.walk (fs.start (path.parent.join name))
      (components (path.parent.join name).text.toList)
        = fs.locateFrom location.dropLast name := by
    cases habsolute : isAbsolute name.toList with
    | true =>
        rw [join_of_isAbsolute path.parent habsolute]
        show fs.walk (if _ then [] else fs.home) _ = fs.walk (if _ then [] else _) _
        rw [if_pos habsolute, if_pos habsolute]
    | false =>
        obtain ⟨cs, hcomponents, hsolid, hstart⟩ := components_join path.parent habsolute
        have hsame : fs.start (path.parent.join name) = fs.start path.parent := by
          show (if _ then [] else fs.home) = if _ then [] else fs.home
          rw [hstart]
        rcases List.exists_cons_of_ne_nil (List.splitOn_ne_nil '/' name.toList)
          with ⟨c, rest, hname'⟩
        have hrest : components name.toList = c :: rest := hname'
        obtain ⟨hparent, hwalk⟩ := h.walk_parent hpath hfile c rest
        rw [hcomponents, hrest, ← walk_solid, hsolid, hsame, hparent, hwalk]
        show _ = fs.walk (if _ then [] else _) (components name.toList)
        rw [if_neg (by simp [habsolute]), hrest]
  rw [hlocate, hwalk]

/-! ## Overwriting a file -/

/-- Another tree has the same shape: the same directories, and files in the same
    places. -/
structure SameShape (fs after : FileSystem) : Prop where
  home : after.home = fs.home
  directory : ∀ location, after.entry? location = some .directory ↔
    fs.entry? location = some .directory
  isSome : ∀ location, (after.entry? location).isSome = (fs.entry? location).isSome

namespace SameShape

variable {after : FileSystem}

/-- A component leads to the same place in a tree of the same shape. -/
theorem follow_eq (h : SameShape fs after) : after.follow = fs.follow := by
  funext location c
  unfold follow
  simp only [ne_eq, h.directory, h.isSome]

/-- **PATHS**: in a tree of the same shape every path leads to the same place. -/
theorem locate_eq (h : SameShape fs after) (path : Path) : after.locate path = fs.locate path := by
  unfold locate start
  rw [h.follow_eq, h.home]

/-- A path leads to something in both trees or in neither. -/
theorem isThere_eq (h : SameShape fs after) (path : Path) :
    after.isThere path = fs.isThere path := by
  show ((after.locate path).bind after.entry?).isSome = ((fs.locate path).bind fs.entry?).isSome
  rw [h.locate_eq]
  cases fs.locate path with
  | none => rfl
  | some location => exact h.isSome location

/-- What stands at the end of a path is the same if the same stands at the
    place. -/
theorem at?_eq (h : SameShape fs after) {path : Path} {location : Location}
    (hpath : fs.locate path = some location) (hsame : after.entry? location = fs.entry? location) :
    after.at? path = fs.at? path := by
  show (after.locate path).bind after.entry? = (fs.locate path).bind fs.entry?
  rw [h.locate_eq, hpath, Option.bind_some, Option.bind_some, hsame]

theorem refl (fs : FileSystem) : SameShape fs fs where
  home := rfl
  directory _ := Iff.rfl
  isSome _ := rfl

/-- Having the same shape is transitive. -/
theorem trans {later : FileSystem} (h : SameShape fs after) (h' : SameShape after later) :
    SameShape fs later where
  home := h'.home.trans h.home
  directory location := (h'.directory location).trans (h.directory location)
  isSome location := (h'.isSome location).trans (h.isSome location)

/-- The entries of a tree of the same shape make a tree if none of them stands at
    a new location. -/
theorem isTree (h : SameShape fs after) (hfs : fs.IsTree)
    (hentries : ∀ e' ∈ after.entries, ∃ e ∈ fs.entries, e'.1 = e.1) : after.IsTree := by
  refine ⟨?_, ?_⟩
  · rw [h.home]
    exact (h.directory _).mpr hfs.home
  · intro e' he'
    obtain ⟨e, he, heq⟩ := hentries e' he'
    rw [heq]
    exact (h.directory _).mpr (hfs.above e he)

end SameShape

section Overwrite

variable (fs) (path : Path) (bytes : List UInt8)

/-- A key leads to what stood under it before, changed as everything has been. -/
theorem lookup_map_snd {α β γ : Type} [BEq α] [LawfulBEq α] (f : α → β → γ)
    (entries : List (α × β)) (a : α) :
    (entries.map fun e => (e.1, f e.1 e.2)).lookup a = (entries.lookup a).map (f a) := by
  induction entries with
  | nil => rfl
  | cons e entries ih =>
      obtain ⟨b, entry⟩ := e
      rw [List.map_cons, List.lookup_cons, List.lookup_cons, ih]
      by_cases hab : a = b
      · rw [hab, beq_self_eq_true]
        rfl
      · rw [beq_false_of_ne hab]

/-- Overwriting changes a file at the end of the path, and nothing else. -/
theorem entry?_overwrite (location : Location) :
    entry? (fs.overwrite path bytes) location
      = (fs.entry? location).map fun entry =>
          if fs.locate path = some location && entry ≠ .directory then .file bytes else entry := by
  cases location with
  | nil =>
      show some Entry.directory = some (if _ then _ else _)
      rw [if_neg (by simp)]
  | cons name location =>
      exact lookup_map_snd (fun location entry =>
        if fs.locate path = some location && entry ≠ .directory then .file bytes else entry)
        fs.entries (name :: location)

/-- Nothing changes where the path does not lead. -/
theorem entry?_overwrite_of_ne {location : Location} (h : fs.locate path ≠ some location) :
    entry? (fs.overwrite path bytes) location = fs.entry? location := by
  rw [entry?_overwrite]
  simp [h]

/-- The file at the end of the path has the new contents. -/
theorem entry?_overwrite_self {location : Location} {old : List UInt8}
    (h : fs.locate path = some location) (hfile : fs.entry? location = some (.file old)) :
    entry? (fs.overwrite path bytes) location = some (.file bytes) := by
  rw [entry?_overwrite, hfile, Option.map_some, if_pos (by simp [h])]

/-- Overwriting keeps the shape. -/
theorem sameShape_overwrite : SameShape fs (fs.overwrite path bytes) := by
  refine ⟨rfl, fun location => ?_, fun location => ?_⟩
  · rw [entry?_overwrite]
    cases hentry : fs.entry? location with
    | none => exact Iff.rfl
    | some entry =>
        cases entry with
        | directory => simp
        | file old =>
            rw [Option.map_some]
            split
            · simp
            · rfl
  · rw [entry?_overwrite, Option.isSome_map]

variable {fs}

/-- The entries of a tree still make a tree when a file has been overwritten. -/
theorem IsTree.overwrite (h : fs.IsTree) : (fs.overwrite path bytes).IsTree := by
  refine (fs.sameShape_overwrite path bytes).isTree h fun e' he' => ?_
  obtain ⟨e, he, rfl⟩ := List.mem_map.mp he'
  exact ⟨e, he, rfl⟩

end Overwrite

end PlcTypes.FileSystem
