import PlcTypes.Proofs.Files.Candidate
import PlcTypes.Proofs.Loading.Following

/-! # A file means the same on every path to it

    The references in a file are looked up beside it, and what a name means
    beside a file depends on where the file is.  Two paths to one file differ in
    their length only, and a path that is too long finds nothing: so on another
    path the file gives the same definition or fails, but never another
    definition. -/

namespace PlcTypes.FileSystem

open Traced

variable {fs : FileSystem}

/-! ## Where a reference leads -/

/-- The path that a reference is resolved to. -/
def resolved (fs : FileSystem) (dir : Path) (target : String) : Path :=
  if fs.isThere (dir.join (target ++ ".udt")) then dir.join (target ++ ".udt")
  else if fs.isThere (dir.join (target ++ ".awl")) then dir.join (target ++ ".awl")
  else dir.join (target ++ ".udt")

/-- A reference is always resolved, whatever is found. -/
theorem outcome_resolve (dir : Path) (target : String) :
    (fs.resolve dir target).outcome = .ok (fs.resolved dir target) := by
  unfold resolve resolved
  dsimp only
  split
  · rfl
  · split
    · rfl
    · rfl

/-- What comes of a reference is what comes of loading the file it is resolved to.
    -/
theorem outcome_refer (dir : Path) (load : Path → Traced TypeDefinition) (field target : String) :
    (fs.refer dir load field target).outcome = (load (fs.resolved dir target)).outcome := by
  show (fs.resolve dir target >>= _).outcome = _
  rw [bind_of_ok (outcome_resolve dir target)]
  rfl

/-- In a tree of the same shape a reference is resolved to the same path. -/
theorem SameShape.resolve_eq {after : FileSystem} (h : SameShape fs after) :
    after.resolve = fs.resolve := by
  have hthere : after.isThere = fs.isThere := funext h.isThere_eq
  unfold resolve
  rw [hthere]

/-- Where a reference in a file leads that is in the directory at a location,
    unless its path is too long. -/
def target? (fs : FileSystem) (location : Location) (target : String) : Option Location :=
  if ((fs.locateFrom location (target ++ ".udt")).bind fs.entry?).isSome then
    fs.locateFrom location (target ++ ".udt")
  else if ((fs.locateFrom location (target ++ ".awl")).bind fs.entry?).isSome then
    fs.locateFrom location (target ++ ".awl")
  else fs.locateFrom location (target ++ ".udt")

/-- The two paths for a reference have the same length. -/
theorem utf8ByteSize_join_extension (dir : Path) (target : String) :
    (dir.join (target ++ ".awl")).text.utf8ByteSize
      = (dir.join (target ++ ".udt")).text.utf8ByteSize := by
  rw [Path.join_append dir target Path.isExtension_awl,
    Path.join_append dir target Path.isExtension_udt, Path.utf8ByteSize_extended_awl]

/-- Where a reference in a file leads depends on the directory of the file, not on
    the path to it, as long as the paths are not too long. -/
theorem IsTree.locate_resolved (h : fs.IsTree) {path : Path} {location : Location}
    {bytes : List UInt8} (hpath : fs.locate path = some location)
    (hfile : fs.entry? location = some (.file bytes)) (target : String) :
    fs.locate (fs.resolved path.parent target) = none ∨
      fs.locate (fs.resolved path.parent target) = fs.target? location.dropLast target := by
  have hbeside : ∀ name, name ≠ "" → fs.locate (path.parent.join name)
      = if (path.parent.join name).text.utf8ByteSize > maxPathBytes then none
        else fs.locateFrom location.dropLast name :=
    fun name hname => h.locate_join_parent hpath hfile hname
  have husual := hbeside (target ++ ".udt") (by simp)
  have hlegacy := hbeside (target ++ ".awl") (by simp)
  rw [utf8ByteSize_join_extension] at hlegacy
  unfold resolved isThere at?
  by_cases hlong : (path.parent.join (target ++ ".udt")).text.utf8ByteSize > maxPathBytes
  · rw [if_pos hlong] at husual hlegacy
    rw [husual, hlegacy, if_neg (by simp), if_neg (by simp)]
    exact Or.inl husual
  · rw [if_neg hlong] at husual hlegacy
    unfold target?
    rw [husual, hlegacy]
    right
    split
    · exact husual
    · split
      · exact hlegacy
      · exact husual

/-! ## Loading -/

/-- What is loaded from a path is the definition in a file that the path leads
    to. -/
theorem exists_file_of_load {within : List String} {path dir : Path} {t : TypeDefinition}
    (ht : (fs.load within path dir).outcome = .ok t) :
    ∃ location bytes, fs.locate path = some location ∧
      fs.entry? location = some (.file bytes) := by
  cases hthere : fs.lines? path with
  | none =>
      rw [load_of_missing hthere] at ht
      exact nomatch ht
  | some lines =>
      obtain ⟨entry, hentry, rfl⟩ := Option.map_eq_some_iff.mp hthere
      obtain ⟨location, hlocate, hstands⟩ := Option.bind_eq_some_iff.mp hentry
      cases entry with
      | directory =>
          have hnone : Heading.find 0 Entry.directory.lines = .error (.unreadable .isDirectory) :=
            rfl
          rw [load_of_lines hthere, TypeDefinition.ofLines_of_no_heading hnone] at ht
          exact nomatch ht
      | file bytes => exact ⟨location, bytes, hlocate, hstands⟩

/-- The lines at the end of a path to a file. -/
theorem lines?_of_locate {path : Path} {location : Location} {bytes : List UInt8}
    (hpath : fs.locate path = some location) (hfile : fs.entry? location = some (.file bytes)) :
    fs.lines? path = some (Text.linesOfBytes bytes) := by
  show ((fs.locate path).bind fs.entry?).map Entry.lines = _
  rw [hpath, Option.bind_some, hfile, Option.map_some]
  rfl

/-- There are no lines where a path leads nowhere. -/
theorem lines?_of_not_there {path : Path} (h : fs.locate path = none) :
    fs.lines? path = none := by
  show ((fs.locate path).bind fs.entry?).map Entry.lines = none
  rw [h]
  rfl

/-- **ON ANOTHER PATH** to the same place a file gives the same definition or
    fails. -/
theorem IsTree.followedBy_load_of_locate (h : fs.IsTree) {within within' : List String}
    {p q dir : Path} (hdir : dir = p.parent) {location : Location}
    (hp : fs.locate p = some location) (hq : fs.locate q = some location) :
    FollowedBy (fun _ => True) (fs.load within p dir) (fs.load within' q q.parent) := by
  induction within, p, dir using load.induct fs generalizing within' q location with
  | case1 within p dir hmissing =>
      rw [load_of_missing hmissing]
      exact followedBy_fail _ _
  | case2 within p dir lines hthere ih =>
      obtain rfl := hdir
      intro t ht
      obtain ⟨location', bytes, hlocate, hfile⟩ := exists_file_of_load ht
      obtain rfl : location' = location := Option.some.inj (hlocate.symm.trans hp)
      obtain rfl : lines = Text.linesOfBytes bytes :=
        Option.some.inj (hthere.symm.trans (lines?_of_locate hp hfile))
      have hpermits : Permits (fun _ => True) within within' := Or.inr fun _ _ => trivial
      rw [load_of_lines hthere] at ht
      rw [load_of_lines (lines?_of_locate hq hfile)]
      refine TypeDefinition.followedBy_ofLines hpermits ?_ t ht
      intro head hfound hnew hnew' field target u hu
      rw [outcome_refer] at hu ⊢
      -- what the reference leads to is in one place for both paths, if it is anywhere
      obtain ⟨place, _, hplace, -⟩ := exists_file_of_load hu
      have hp' : fs.target? location'.dropLast target = some place := by
        rcases h.locate_resolved hp hfile target with hnone | hsome
        · rw [hnone] at hplace
          cases hplace
        · rw [← hsome, hplace]
      rcases h.locate_resolved hq hfile target with hnone | hsome
      · refine Or.inr ⟨.notFound (fs.resolved q.parent target).text, ?_, trivial⟩
        rw [load_of_missing (lines?_of_not_there hnone)]
        rfl
      · rw [hp'] at hsome
        exact ih head hfound hnew _ rfl hplace hsome u hu

/-- What is loaded from two paths to the same place is the same. -/
theorem IsTree.load_eq_of_locate (h : fs.IsTree) {within within' : List String} {p q : Path}
    {location : Location} (hp : fs.locate p = some location) (hq : fs.locate q = some location)
    {t u : TypeDefinition} (ht : (fs.load within p p.parent).outcome = .ok t)
    (hu : (fs.load within' q q.parent).outcome = .ok u) : u = t := by
  rcases h.followedBy_load_of_locate rfl hp hq t ht with hsame | ⟨e, he, -⟩
  · rw [hu] at hsame
    exact Except.ok.inj hsame
  · rw [hu] at he
    exact nomatch he
end PlcTypes.FileSystem
