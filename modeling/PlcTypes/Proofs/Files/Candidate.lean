import PlcTypes.Proofs.Files.Directory

/-! # Paths with an extension

    The two paths that are tried for a reference differ in their extension only.
    They spell names in one directory, have the same parent, and are too long, or
    not, together.  So what stands at the end of either is decided by the entry in
    that directory with the name and the extension.

    Two file systems with the same directories agree on the directory.  They agree
    on where a path leads, too, where they agree on the entry there. -/

namespace PlcTypes

namespace Path

/-! ## Extensions -/

/-- Whether a text can be put behind a name as its extension: it is a part of one
    component, which becomes neither idle nor two dots. -/
structure IsExtension (e : String) : Prop where
  single : '/' ∉ e.toList
  length : 3 ≤ e.toList.length

theorem isExtension_udt : IsExtension ".udt" :=
  ⟨by decide, by decide⟩

theorem isExtension_awl : IsExtension ".awl" :=
  ⟨by decide, by decide⟩

variable {e e' : String}

theorem IsExtension.isAbsolute (h : IsExtension e) : isAbsolute e.toList = false := by
  rw [Path.isAbsolute, beq_eq_false_iff_ne]
  exact fun hhead => h.single (List.mem_of_head? hhead)

/-- An extension does not make a text start with a slash. -/
theorem IsExtension.isAbsolute_append (h : IsExtension e) (cs : List Char) :
    Path.isAbsolute (cs ++ e.toList) = Path.isAbsolute cs := by
  cases cs with
  | nil => exact h.isAbsolute
  | cons c cs => rfl

/-- The path with an extension. -/
def extended (p : Path) (e : String) : Path :=
  ⟨p.text ++ e⟩

/-- The extension of a name is that of the path to it. -/
theorem join_append (dir : Path) (name : String) (h : IsExtension e) :
    dir.join (name ++ e) = (dir.join name).extended e := by
  have habsolute : isAbsolute (name ++ e).toList = isAbsolute name.toList := by
    rw [String.toList_append]
    exact h.isAbsolute_append name.toList
  cases hname : isAbsolute name.toList with
  | true =>
      rw [join_of_isAbsolute dir hname, join_of_isAbsolute dir (habsolute.trans hname)]
      rfl
  | false =>
      rw [join_of_relative dir hname, join_of_relative dir (habsolute.trans hname), extended,
        String.append_assoc]

/-- The two extensions make paths of the same length. -/
theorem utf8ByteSize_extended_awl (p : Path) :
    (p.extended ".awl").text.utf8ByteSize = (p.extended ".udt").text.utf8ByteSize := by
  rw [extended, extended, String.utf8ByteSize_append, String.utf8ByteSize_append]
  rfl

/-! ## Components -/

/-- The components before the last. -/
def initial (cs : List Char) : List (List Char) :=
  (components cs).dropLast

/-- The last component. -/
def final (cs : List Char) : List Char :=
  (components cs).getLast (List.splitOn_ne_nil '/' cs)

theorem components_eq (cs : List Char) : components cs = initial cs ++ [final cs] :=
  (List.dropLast_concat_getLast _).symm

/-- What stands behind the last component becomes a part of it. -/
theorem intercalate_concat_append (as : List (List Char)) (c cs : List Char) :
    ['/'].intercalate (as ++ [c]) ++ cs = ['/'].intercalate (as ++ [c ++ cs]) := by
  induction as with
  | nil => rw [List.nil_append, List.nil_append, List.intercalate_singleton,
      List.intercalate_singleton]
  | cons a as ih =>
      rw [List.cons_append, List.cons_append, List.intercalate_cons_of_ne_nil (by simp),
        List.intercalate_cons_of_ne_nil (by simp), ← ih]
      simp

theorem not_mem_component {cs c : List Char} (h : c ∈ components cs) : '/' ∉ c := by
  intro hmem
  have hfree := eq_false_of_mem_splitOnP c h '/' hmem
  exact absurd hfree (by decide)

/-- An extension is put behind the last component. -/
theorem components_append_extension (cs : List Char) (h : IsExtension e) :
    components (cs ++ e.toList) = initial cs ++ [final cs ++ e.toList] := by
  have hslash : ∀ c ∈ initial cs ++ [final cs ++ e.toList], '/' ∉ c := by
    intro c hc
    rcases List.mem_append.mp hc with hinitial | hfinal
    · exact not_mem_component (List.dropLast_subset _ hinitial)
    · rw [List.mem_singleton.mp hfinal, List.mem_append]
      rintro (hmem | hmem)
      · exact not_mem_component (List.getLast_mem _) hmem
      · exact h.single hmem
  have hcs : cs ++ e.toList = ['/'].intercalate (initial cs ++ [final cs ++ e.toList]) := by
    rw [← intercalate_concat_append, ← components_eq, components, List.intercalate_splitOn]
  rw [hcs]
  exact List.splitOn_intercalate '/' hslash (by simp)

/-- The last component with an extension can be the name of an entry. -/
theorem isPlain_final_append (cs : List Char) (h : IsExtension e) :
    IsPlain (String.ofList (final cs) ++ e) := by
  refine isPlain_append ?_ h.single h.length
  rw [String.toList_ofList]
  exact not_mem_component (List.getLast_mem _)

/-! ## The parent -/

/-- A text with an extension has no more of a fixed head than without. -/
theorem splitHead_append_of_headless {cs : List Char} (h : IsExtension e)
    (hslash : isAbsolute cs = false) (hdots : ∀ rest, cs ≠ '.' :: '/' :: rest) :
    splitHead (cs ++ e.toList) = ([], cs ++ e.toList) := by
  refine splitHead.eq_4 _ ?_ ?_ ?_
  · intro rest hcons
    have habsolute := (h.isAbsolute_append cs).trans hslash
    rw [hcons] at habsolute
    exact Bool.noConfusion habsolute
  · intro hdot
    have hlength := congrArg List.length hdot
    rw [List.length_append] at hlength
    have hthree := h.length
    simp at hlength
    omega
  · intro rest hrest
    -- the slash would be in the extension, or behind the first character
    have hfree : e.toList ≠ '/' :: rest := by
      intro hcons
      refine h.single ?_
      rw [hcons]
      exact List.mem_cons_self
    cases cs with
    | nil =>
        refine h.single ?_
        rw [show e.toList = '.' :: '/' :: rest from hrest]
        exact List.mem_cons_of_mem _ List.mem_cons_self
    | cons c cs =>
        obtain ⟨rfl, htail⟩ := List.cons.inj hrest
        cases cs with
        | nil => exact hfree htail
        | cons d cs =>
            obtain ⟨rfl, -⟩ := List.cons.inj htail
            exact hdots cs rfl

/-- The fixed head of a path does not depend on its extension. -/
theorem exists_splitHead_append (cs : List Char) :
    ∃ head body, ∀ e, IsExtension e → splitHead (cs ++ e.toList) = (head, body ++ e.toList) := by
  fun_cases splitHead cs with
  | case1 cs => exact ⟨['/'], cs, fun e h => rfl⟩
  | case2 =>
      refine ⟨[], ['.'], fun e h => splitHead_append_of_headless h rfl ?_⟩
      intro rest hrest
      cases (List.cons.inj hrest).2
  | case3 cs => exact ⟨['.'], '/' :: cs, fun e h => rfl⟩
  | case4 cs hslash hdot hdots =>
      have habsolute : isAbsolute cs = false := by
        rw [isAbsolute, beq_eq_false_iff_ne]
        intro hhead
        obtain ⟨rest, hrest⟩ := List.head?_eq_some_iff.mp hhead
        exact hslash rest hrest
      exact ⟨[], cs, fun e h => splitHead_append_of_headless h habsolute hdots⟩

/-- **THE PARENT** of a path does not depend on its extension. -/
theorem parent_extended (p : Path) (h : IsExtension e) (h' : IsExtension e') :
    (p.extended e').parent = (p.extended e).parent := by
  obtain ⟨head, body, hsplit⟩ := exists_splitHead_append p.text.toList
  have hparent : ∀ e, IsExtension e → (p.extended e).parent
      = ⟨String.ofList (head ++ ['/'].intercalate
          ((initial body).reverse.dropWhile isIdle).reverse)⟩ := by
    intro e h
    have hsolid : isIdle (final body ++ e.toList) = false := by
      have hplain := (isPlain_final_append body h).solid
      rwa [String.toList_append, String.toList_ofList] at hplain
    rw [parent, extended, String.toList_append, hsplit e h]
    dsimp only
    rw [components_append_extension body h, List.reverse_append, List.reverse_singleton,
      List.singleton_append, List.dropWhile_cons_of_neg (by simp [hsolid])]
  rw [hparent e h, hparent e' h']

end Path

namespace FileSystem

open PlcTypes.Path

variable {fs fs' : FileSystem}

/-! ## What stands at a path with an extension -/

/-- The directory in which the last component of a path is looked up. -/
def above? (fs : FileSystem) (p : Path) : Option Location :=
  (fs.walk (fs.start p) (initial p.text.toList)).filter fun location =>
    fs.entry? location = some .directory

/-- What stands beside the end of a path, under its last component with an
    extension. -/
def beside? (fs : FileSystem) (p : Path) (e : String) : Option Entry :=
  (fs.above? p).bind fun directory =>
    fs.entry? (directory ++ [String.ofList (final p.text.toList) ++ e])

/-- **A PATH WITH AN EXTENSION** leads to the entry beside it, unless it is too
    long. -/
theorem at?_extended (p : Path) {e : String} (h : IsExtension e) :
    fs.at? (p.extended e) = if (p.extended e).IsLong then none else fs.beside? p e := by
  by_cases hlong : (p.extended e).IsLong
  · rw [if_pos hlong, at?, locate_of_isLong hlong]
    rfl
  · have hempty : (p.extended e).text ≠ "" := by
      intro hempty
      have hnil : (p.text ++ e).toList = [] := String.toList_eq_nil_iff.mpr hempty
      rw [String.toList_append] at hnil
      have hlength := h.length
      rw [(List.append_eq_nil_iff.mp hnil).2] at hlength
      exact absurd hlength (by decide)
    have hstart : fs.start (p.extended e) = fs.start p := by
      rw [start, start, extended, String.toList_append, h.isAbsolute_append]
    have hplain := isPlain_final_append p.text.toList h
    have hname : final p.text.toList ++ e.toList
        = (String.ofList (final p.text.toList) ++ e).toList := by
      rw [String.toList_append, String.toList_ofList]
    rw [if_neg hlong, at?, locate_eq_walk hempty hlong, hstart, extended, String.toList_append,
      components_append_extension _ h, walk_append, beside?, above?, hname]
    cases fs.walk (fs.start p) (initial p.text.toList) with
    | none => rfl
    | some location =>
        rw [Option.bind_some, walk_cons]
        by_cases hdir : fs.entry? location = some .directory
        · rw [Option.filter_some_pos (by simpa using hdir), Option.bind_some,
            follow_of_isPlain hdir hplain]
          cases hentry : fs.entry?
              (location ++ [String.ofList (final p.text.toList) ++ e]) with
          | none => rfl
          | some entry => exact hentry
        · rw [follow_of_not_directory hdir, Option.filter_some_neg (by simpa using hdir)]
          rfl

/-! ## The same directories -/

/-- Two file systems have the same directories. -/
structure SameDirectories (fs fs' : FileSystem) : Prop where
  home : fs'.home = fs.home
  directory : ∀ location, fs'.entry? location = some .directory ↔
    fs.entry? location = some .directory

namespace SameDirectories

theorem symm (h : SameDirectories fs fs') : SameDirectories fs' fs where
  home := h.home.symm
  directory location := (h.directory location).symm

theorem start_eq (h : SameDirectories fs fs') (p : Path) : fs'.start p = fs.start p := by
  rw [start, start, h.home]

/-- Where a component leads it leads in the other file system, too, if something is
    there. -/
theorem follow (h : SameDirectories fs fs') {location next : Location} {c : List Char}
    (hfollow : fs.follow location c = some next) (hnext : (fs'.entry? next).isSome = true) :
    fs'.follow location c = some next := by
  rw [FileSystem.follow] at hfollow ⊢
  split at hfollow
  · cases hfollow
  · next hdir =>
      rw [if_neg (by simpa [h.directory] using hdir)]
      split at hfollow
      · next hidle =>
          rw [if_pos hidle]
          exact hfollow
      · next hidle =>
          rw [if_neg hidle]
          split at hfollow
          · next hdots =>
              rw [if_pos hdots]
              exact hfollow
          · next hdots =>
              rw [if_neg hdots]
              dsimp only at hfollow ⊢
              split at hfollow
              · obtain rfl := Option.some.inj hfollow
                rw [if_pos hnext]
              · cases hfollow

/-- Components lead in the other file system, too, to what is there. -/
theorem walk (h : SameDirectories fs fs') {location place : Location} {cs : List (List Char)}
    (hwalk : fs.walk location cs = some place) (hplace : (fs'.entry? place).isSome = true) :
    fs'.walk location cs = some place := by
  induction cs generalizing location with
  | nil => exact hwalk
  | cons c cs ih =>
      rw [walk_cons] at hwalk ⊢
      obtain ⟨next, hfollow, hrest⟩ := Option.bind_eq_some_iff.mp hwalk
      have hnext : (fs'.entry? next).isSome = true := by
        cases cs with
        | nil =>
            obtain rfl := Option.some.inj hrest
            exact hplace
        | cons d ds =>
            -- another component leads on from there
            by_cases hdir : fs.entry? next = some .directory
            · rw [(h.directory next).mpr hdir]
              rfl
            · rw [walk_cons, follow_of_not_directory hdir] at hrest
              cases hrest
      rw [h.follow hfollow hnext]
      exact ih hrest

/-- What stands at the end of a path stands there in the other file system, too,
    if the other has the same entry there. -/
theorem at?_eq_some (h : SameDirectories fs fs') {p : Path} {entry : Entry}
    (hentry : fs.at? p = some entry)
    (hsame : ∀ location, fs.locate p = some location → fs'.entry? location = fs.entry? location) :
    fs'.at? p = some entry := by
  obtain ⟨location, hlocate, hstands⟩ := Option.bind_eq_some_iff.mp hentry
  have hstands' : fs'.entry? location = some entry := (hsame location hlocate).trans hstands
  have hwalk := h.walk (locate_eq_some hlocate) (by rw [hstands']; rfl)
  have hlocate' : fs'.locate p = some location := by
    rw [locate] at hlocate ⊢
    split at hlocate
    · cases hlocate
    · next hpath =>
        rw [if_neg hpath, h.start_eq]
        exact hwalk
  rw [at?, hlocate', Option.bind_some, hstands']

/-- The last component of a path is looked up in the same directory. -/
theorem above?_eq (h : SameDirectories fs fs') (p : Path) : fs'.above? p = fs.above? p := by
  have hsub : ∀ {fs fs' : FileSystem}, SameDirectories fs fs' → ∀ location,
      fs.above? p = some location → fs'.above? p = some location := by
    intro fs fs' h location habove
    obtain ⟨hwalk, hdir⟩ := Option.filter_eq_some_iff.mp habove
    have hdir' : fs'.entry? location = some .directory :=
      (h.directory location).mpr (of_decide_eq_true hdir)
    refine Option.filter_eq_some_iff.mpr ⟨?_, decide_eq_true hdir'⟩
    rw [h.start_eq]
    exact h.walk hwalk (by rw [hdir']; rfl)
  exact Option.ext fun location => ⟨hsub h.symm location, hsub h location⟩

end SameDirectories

end FileSystem

end PlcTypes
