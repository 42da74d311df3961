import PlcTypes.Proofs.Loading.Confinement

/-! # Loading from two trees

    Of a file only the heading counts, with what follows it, and of a tree only what
    references lead to.  So from two trees in which references are resolved alike,
    and lead to the same headings, the same is loaded, with the same events.  Where
    some lead to other headings, what is loaded may be related as what is loaded
    there is.  If the paths may differ, but the files at their ends and their parents
    are the same, what is loaded from one tree is still loaded from the other.

    Both are shown by induction on the references in the files, with the two trees
    side by side. -/

namespace PlcTypes

open Text Traced

namespace FileSystem

variable {fs fs' : FileSystem} {path path' dir : Path} {within : List String}

/-- The heading of what stands at the end of a path, with what follows it, or what is
    wrong with it. -/
def heading? (fs : FileSystem) (path : Path) : Option (Except Error Heading) :=
  (fs.lines? path).map (Heading.find 0)

/-- The heading depends only on what stands at the end of the path. -/
theorem heading?_of_at? (h : fs'.at? path = fs.at? path) : fs'.heading? path = fs.heading? path := by
  rw [heading?, heading?, lines?, lines?, h]

/-! ## The same paths -/

section Related

variable (R : ∀ {α : Type}, Traced α → Traced α → Prop)

/-- At the end of a path there is the same heading, or what is loaded from there is
    related. -/
def RelatedAt (fs fs' : FileSystem) (path : Path) : Prop :=
  fs'.heading? path = fs.heading? path ∨
    ∀ within dir, R (fs.load within path dir) (fs'.load within path dir)

/-- References are resolved alike, and what they lead to is related. -/
structure RelatedReferences (fs fs' : FileSystem) : Prop where
  resolve : fs'.resolve = fs.resolve
  target : ∀ dir target, RelatedAt R fs fs' (fs.resolved dir target)

variable {R}

/-- A reference asks only for the file that it is resolved to. -/
theorem RelatedReferences.refer (h : RelatedReferences R fs fs') (hR : IsCongruence R)
    {load load' : Path → Traced TypeDefinition} {field target : String}
    (hload : R (load (fs.resolved dir target)) (load' (fs.resolved dir target))) :
    R (fs.refer dir load field target) (fs'.refer dir load' field target) := by
  have hbind : ∀ (fs' : FileSystem) (load : Path → Traced TypeDefinition),
      fs'.resolve = fs.resolve →
      fs'.refer dir load field target
        = fs.resolve dir target >>= fun _ =>
            note (.references field (fs.resolved dir target).text) >>= fun _ =>
              load (fs.resolved dir target) := by
    intro fs' load hresolve
    rw [FileSystem.refer, hresolve, bind_of_ok (outcome_resolve dir target),
      bind_of_ok (outcome_resolve dir target)]
  rw [hbind fs load rfl, hbind fs' load' h.resolve]
  exact hR.bind (hR.refl _) fun _ => hR.bind (hR.refl _) fun _ => hload

/-- **WHAT IS LOADED** from two trees is related where references are. -/
theorem RelatedReferences.load (h : RelatedReferences R fs fs') (hR : IsCongruence R)
    (hpath : RelatedAt R fs fs' path) :
    R (fs.load within path dir) (fs'.load within path dir) := by
  induction within, path, dir using load.induct fs with
  | case1 within path dir hmissing =>
      rcases hpath with hsame | hrelated
      · rw [heading?, heading?, hmissing] at hsame
        rw [load_of_missing hmissing, load_of_missing (Option.map_eq_none_iff.mp hsame)]
        exact hR.refl _
      · exact hrelated within dir
  | case2 within path dir lines hthere ih =>
      rcases hpath with hsame | hrelated
      · rw [heading?, heading?, hthere] at hsame
        obtain ⟨lines', hthere', hfind⟩ := Option.map_eq_some_iff.mp hsame
        rw [load_of_lines hthere, load_of_lines hthere']
        refine TypeDefinition.congr_ofLines hR hfind ?_
        intro head hfound _ hnew field target
        exact h.refer hR (ih head hfound hnew _ (h.target dir target))
      · exact hrelated within dir

/-- What is read from lines in two trees is related where references are. -/
theorem RelatedReferences.readLines (h : RelatedReferences R fs fs') (hR : IsCongruence R)
    (lines : List Line) : R (fs.readLines dir lines) (fs'.readLines dir lines) := by
  refine TypeDefinition.congr_ofLines hR rfl ?_
  intro head hfound _ hnew field target
  exact h.refer hR (h.load hR (h.target dir target))

end Related

/-- Sources with the same heading, and the same behind it, are read alike. -/
theorem readLines_eq_of_find (fs : FileSystem) {lines lines' : List Line}
    (h : Heading.find 0 lines' = Heading.find 0 lines) :
    fs.readLines dir lines' = fs.readLines dir lines := by
  symm
  refine TypeDefinition.congr_ofLines isCongruence_eq h ?_
  intro head _ _ _ field target
  rfl

/-! ## The same files on other paths -/

/-- References lead to the same files, from paths that have the same parents. -/
structure SameTargets (fs fs' : FileSystem) : Prop where
  at? : ∀ dir target, fs'.at? (fs'.resolved dir target) = fs.at? (fs.resolved dir target)
  parent : ∀ dir target, (fs'.resolved dir target).parent = (fs.resolved dir target).parent

/-- A reference is followed if the file that it leads to is. -/
theorem SameTargets.followedBy_refer (h : SameTargets fs fs') {field target : String}
    (hload : FollowedBy (fun _ => False)
      (fs.load within (fs.resolved dir target) (fs.resolved dir target).parent)
      (fs'.load within (fs'.resolved dir target) (fs.resolved dir target).parent)) :
    FollowedBy (fun _ => False) (fs.refer dir (fun p => fs.load within p p.parent) field target)
      (fs'.refer dir (fun p => fs'.load within p p.parent) field target) := by
  intro t ht
  rw [outcome_refer] at ht ⊢
  rw [h.parent]
  exact hload t ht

/-- **THE SAME IS STILL LOADED** from another path to the same file. -/
theorem SameTargets.followedBy_load (h : SameTargets fs fs')
    (hpath : ∀ entry, fs.at? path = some entry → fs'.at? path' = some entry) :
    FollowedBy (fun _ => False) (fs.load within path dir) (fs'.load within path' dir) := by
  induction within, path, dir using load.induct fs generalizing path' with
  | case1 within path dir hmissing =>
      rw [load_of_missing hmissing]
      exact followedBy_fail _ _
  | case2 within path dir lines hthere ih =>
      obtain ⟨entry, hentry, rfl⟩ := Option.map_eq_some_iff.mp hthere
      have hthere' : fs'.lines? path' = some entry.lines := congrArg _ (hpath entry hentry)
      rw [load_of_lines hthere, load_of_lines hthere']
      refine TypeDefinition.followedBy_ofLines (Or.inl fun _ => id) ?_
      intro head hfound hnew _ field target
      exact h.followedBy_refer (ih head hfound hnew _ fun entry => (h.at? dir target).trans)

/-- Lines are read to the same definition where references lead to the same files.
    -/
theorem SameTargets.followedBy_readLines (h : SameTargets fs fs') (lines : List Line) :
    FollowedBy (fun _ => False) (fs.readLines dir lines) (fs'.readLines dir lines) := by
  refine TypeDefinition.followedBy_ofLines (Or.inl fun _ => id) ?_
  intro head hfound hnew _ field target
  exact h.followedBy_refer (h.followedBy_load fun entry => (h.at? dir target).trans)

end FileSystem

/-! ## Requests -/

namespace Request

variable {fs fs' : FileSystem} {r : Request}

/-- The answers to a request are related where references are, and what its file
    holds. -/
theorem related_answer {R : ∀ {α : Type}, Traced α → Traced α → Prop}
    (h : FileSystem.RelatedReferences R fs fs') (hR : IsCongruence R)
    (hfile : ∀ path, r.file? = some path → FileSystem.RelatedAt R fs fs' path) :
    R (r.answer fs) (r.answer fs') := by
  cases r with
  | text source dir => exact h.readLines hR _
  | bytes source dir => exact h.readLines hR _
  | path p => exact h.load hR (hfile p rfl)
  | pathIn p dir => exact h.load hR (hfile p rfl)

/-- A definition is still the answer where references lead to the same files, and
    the request too. -/
theorem followedBy_answer (h : fs.SameTargets fs')
    (hfile : ∀ path, r.file? = some path → ∀ entry, fs.at? path = some entry →
      fs'.at? path = some entry) :
    FollowedBy (fun _ => False) (r.answer fs) (r.answer fs') := by
  cases r with
  | text source dir => exact h.followedBy_readLines _
  | bytes source dir => exact h.followedBy_readLines _
  | path p => exact h.followedBy_load (hfile p rfl)
  | pathIn p dir => exact h.followedBy_load (hfile p rfl)

end Request

end PlcTypes
