import PlcTypes.Proofs.Loading.TwoTrees

/-! # Legacy files

    For a reference the usual file is tried, and then the legacy file.  So a legacy
    file beside a usual one is never looked at, unless it is asked for itself, and a
    file that is only referred to may as well be the legacy file.  If neither is
    there, the reference fails with the path of the usual file, and with it all that
    is being read.

    What a reference leads to depends on the entries beside one path.  A legacy file
    that comes, goes or changes beside a usual one changes none of them that counts,
    and neither does a file that changes its extension. -/

namespace PlcTypes

open Text Traced StateTransition PlcTypes.Path

namespace FileSystem

variable {fs fs' : FileSystem}

/-! ## The two candidates -/

/-- The two paths are too long together. -/
theorem isLong_extended_awl (p : Path) :
    (p.extended ".awl").IsLong ↔ (p.extended ".udt").IsLong := by
  rw [IsLong, IsLong, utf8ByteSize_extended_awl]

/-- **WHAT A REFERENCE LEADS TO** is the usual file or, if there is none, the legacy
    file. -/
theorem at?_resolved (dir : Path) (target : String) :
    fs.at? (fs.resolved dir target)
      = if ((dir.join target).extended ".udt").IsLong then none
        else (fs.beside? (dir.join target) ".udt").or (fs.beside? (dir.join target) ".awl") := by
  have husual := fs.at?_extended (dir.join target) isExtension_udt
  have hlegacy := fs.at?_extended (dir.join target) isExtension_awl
  rw [resolved, join_append dir target isExtension_udt, join_append dir target isExtension_awl,
    isThere, isThere]
  by_cases hlong : ((dir.join target).extended ".udt").IsLong
  · rw [if_pos hlong] at husual
    rw [if_pos ((isLong_extended_awl _).mpr hlong)] at hlegacy
    rw [husual, hlegacy, if_pos hlong, if_neg (by simp), if_neg (by simp)]
    exact husual
  · rw [if_neg hlong] at husual
    rw [if_neg (mt (isLong_extended_awl _).mp hlong)] at hlegacy
    rw [husual, hlegacy, if_neg hlong]
    cases hbeside : fs.beside? (dir.join target) ".udt" with
    | some entry =>
        rw [if_pos Option.isSome_some, husual, hbeside]
        rfl
    | none =>
        rw [if_neg (by simp), Option.none_or]
        cases hother : fs.beside? (dir.join target) ".awl" with
        | some entry => rw [if_pos Option.isSome_some, hlegacy, hother]
        | none => rw [if_neg (by simp), husual, hbeside]

/-- Both candidates have the same parent. -/
theorem parent_resolved (fs fs' : FileSystem) (dir : Path) (target : String) :
    (fs'.resolved dir target).parent = (fs.resolved dir target).parent := by
  have hparent : ∀ fs : FileSystem, (fs.resolved dir target).parent
      = ((dir.join target).extended ".udt").parent := by
    intro fs
    rw [resolved, join_append dir target isExtension_udt, join_append dir target isExtension_awl]
    split
    · rfl
    · split
      · exact parent_extended _ isExtension_udt isExtension_awl
      · rfl
  rw [hparent, hparent]

/-! ## Entries -/

/-- The place of a usual file in a directory. -/
def usualAt (directory : Location) (name : String) : Location :=
  directory ++ [name ++ ".udt"]

/-- The place of the legacy file beside it. -/
def legacyAt (directory : Location) (name : String) : Location :=
  directory ++ [name ++ ".awl"]

/-- A name with an extension is known from its place. -/
theorem concat_append_inj {directory directory' : Location} {name name' e : String}
    (h : directory ++ [name ++ e] = directory' ++ [name' ++ e]) :
    directory = directory' ∧ name = name' := by
  obtain ⟨hdirectory, hname⟩ := List.append_inj' h rfl
  refine ⟨hdirectory, ?_⟩
  have hchars := congrArg String.toList (List.singleton_inj.mp hname)
  rw [String.toList_append, String.toList_append] at hchars
  exact String.toList_inj.mp (List.append_cancel_right hchars)

/-- A usual file is not a legacy file. -/
theorem usualAt_ne_legacyAt (directory directory' : Location) (name name' : String) :
    usualAt directory name ≠ legacyAt directory' name' := by
  intro h
  obtain ⟨-, hname⟩ := List.append_inj' h rfl
  have hlast := congrArg (List.getLast? ∘ String.toList) (List.singleton_inj.mp hname)
  have hudt : ".udt".toList.getLast? = some 't' := by decide
  have hawl : ".awl".toList.getLast? = some 'l' := by decide
  rw [Function.comp_apply, Function.comp_apply, String.toList_append, String.toList_append,
    List.getLast?_append, List.getLast?_append, hudt, hawl] at hlast
  exact absurd (Option.some.inj hlast) (by decide)

/-! ## Shadowed files -/

/-- A legacy file stands, or may be put, beside a usual one. -/
def IsShadowed (fs : FileSystem) (location : Location) : Prop :=
  ∃ directory name, location = legacyAt directory name ∧
    (fs.entry? (usualAt directory name)).isSome = true ∧ fs.entry? location ≠ some .directory

/-- Two file systems differ in shadowed files only: any number of them is added,
    deleted or changed. -/
structure DiffersInShadowed (fs fs' : FileSystem) : Prop where
  home : fs'.home = fs.home
  entry : ∀ location, fs'.entry? location = fs.entry? location ∨
    fs.IsShadowed location ∧ fs'.entry? location ≠ some .directory

namespace DiffersInShadowed

theorem sameDirectories (h : DiffersInShadowed fs fs') : SameDirectories fs fs' where
  home := h.home
  directory location := by
    rcases h.entry location with hsame | ⟨⟨_, _, -, -, hfile⟩, hfile'⟩
    · rw [hsame]
    · exact ⟨fun hdir => absurd hdir hfile', fun hdir => absurd hdir hfile⟩

/-- A usual file is not shadowed. -/
theorem beside?_usual (h : DiffersInShadowed fs fs') (p : Path) :
    fs'.beside? p ".udt" = fs.beside? p ".udt" := by
  rw [beside?, beside?, h.sameDirectories.above?_eq]
  congr 1
  funext directory
  rcases h.entry (usualAt directory (String.ofList (final p.text.toList))) with
    hsame | ⟨⟨_, _, hlegacy, -⟩, -⟩
  · exact hsame
  · exact absurd hlegacy (usualAt_ne_legacyAt _ _ _ _)

/-- A legacy file is the same where there is no usual file. -/
theorem beside?_legacy (h : DiffersInShadowed fs fs') {p : Path}
    (husual : fs.beside? p ".udt" = none) : fs'.beside? p ".awl" = fs.beside? p ".awl" := by
  rw [beside?, beside?, h.sameDirectories.above?_eq]
  cases habove : fs.above? p with
  | none => rfl
  | some directory =>
      rw [beside?, habove] at husual
      rcases h.entry (legacyAt directory (String.ofList (final p.text.toList))) with
        hsame | ⟨⟨directory', name, hlegacy, hthere, -⟩, -⟩
      · exact hsame
      · obtain ⟨rfl, rfl⟩ := concat_append_inj hlegacy
        rw [show fs.entry? (usualAt directory _) = none from husual] at hthere
        cases hthere

theorem at?_usual (h : DiffersInShadowed fs fs') (p : Path) :
    fs'.at? (p.extended ".udt") = fs.at? (p.extended ".udt") := by
  rw [at?_extended p isExtension_udt, at?_extended p isExtension_udt, h.beside?_usual]

theorem at?_legacy (h : DiffersInShadowed fs fs') {p : Path}
    (husual : ¬ fs.isThere (p.extended ".udt")) :
    fs'.at? (p.extended ".awl") = fs.at? (p.extended ".awl") := by
  rw [at?_extended p isExtension_awl, at?_extended p isExtension_awl]
  by_cases hlong : (p.extended ".awl").IsLong
  · rw [if_pos hlong, if_pos hlong]
  · rw [isThere, at?_extended p isExtension_udt, if_neg (mt (isLong_extended_awl p).mpr hlong),
      Option.not_isSome_iff_eq_none] at husual
    rw [h.beside?_legacy husual]

/-- **SHADOWED FILES ARE NOT LOOKED AT**: references mean the same whatever they
    are. -/
theorem relatedReferences (h : DiffersInShadowed fs fs') : RelatedReferences Eq fs fs' where
  resolve := by
    funext dir target
    rw [resolve, resolve, join_append dir target isExtension_udt,
      join_append dir target isExtension_awl, isThere, h.at?_usual, ← isThere]
    by_cases husual : fs.isThere ((dir.join target).extended ".udt") = true
    · rw [if_pos husual, if_pos husual]
    · rw [if_neg husual, if_neg husual, isThere, h.at?_legacy husual, ← isThere]
  target dir target := by
    refine Or.inl (heading?_of_at? ?_)
    rw [resolved, join_append dir target isExtension_udt, join_append dir target isExtension_awl]
    split
    · exact h.at?_usual _
    · next husual =>
        split
        · exact h.at?_legacy husual
        · exact h.at?_usual _

/-- A file that is the same is found as before. -/
theorem at?_eq (h : DiffersInShadowed fs fs') {p : Path}
    (hsame : ∀ location, fs.locate p = some location ∨ fs'.locate p = some location →
      fs'.entry? location = fs.entry? location) : fs'.at? p = fs.at? p := by
  refine Option.ext fun entry => ⟨?_, ?_⟩
  · intro hentry
    exact h.sameDirectories.symm.at?_eq_some hentry fun location hlocate =>
      (hsame location (Or.inr hlocate)).symm
  · intro hentry
    exact h.sameDirectories.at?_eq_some hentry fun location hlocate =>
      hsame location (Or.inl hlocate)

end DiffersInShadowed

/-! ## Renamed files -/

/-- A usual file becomes a legacy file, where there was none before, and nothing else
    changes. -/
structure IsRenamed (fs fs' : FileSystem) (directory : Location) (name : String) : Prop where
  home : fs'.home = fs.home
  file : ∃ bytes, fs.entry? (usualAt directory name) = some (.file bytes) ∧
    fs'.entry? (legacyAt directory name) = some (.file bytes)
  free : fs.entry? (legacyAt directory name) = none
  gone : fs'.entry? (usualAt directory name) = none
  others : ∀ location, location ≠ usualAt directory name → location ≠ legacyAt directory name →
    fs'.entry? location = fs.entry? location

namespace IsRenamed

variable {directory : Location} {name : String}

theorem sameDirectories (h : IsRenamed fs fs' directory name) : SameDirectories fs fs' where
  home := h.home
  directory location := by
    obtain ⟨bytes, hfile, hfile'⟩ := h.file
    by_cases husual : location = usualAt directory name
    · rw [husual, hfile, h.gone]
      exact ⟨nofun, nofun⟩
    · by_cases hlegacy : location = legacyAt directory name
      · rw [hlegacy, hfile', h.free]
        exact ⟨nofun, nofun⟩
      · rw [h.others location husual hlegacy]

/-- Beside a path there is the same file, with either extension. -/
theorem beside?_or (h : IsRenamed fs fs' directory name) (p : Path) :
    (fs'.beside? p ".udt").or (fs'.beside? p ".awl")
      = (fs.beside? p ".udt").or (fs.beside? p ".awl") := by
  simp only [beside?, h.sameDirectories.above?_eq]
  cases fs.above? p with
  | none => rfl
  | some other =>
      obtain ⟨bytes, hfile, hfile'⟩ := h.file
      show (fs'.entry? (usualAt other _)).or (fs'.entry? (legacyAt other _))
        = (fs.entry? (usualAt other _)).or (fs.entry? (legacyAt other _))
      by_cases hplace : directory = other ∧ name = String.ofList (final p.text.toList)
      · obtain ⟨rfl, rfl⟩ := hplace
        rw [hfile, hfile', h.free, h.gone]
        rfl
      · have husual : usualAt other (String.ofList (final p.text.toList))
            ≠ usualAt directory name := fun heq => hplace (concat_append_inj heq.symm)
        have hlegacy : legacyAt other (String.ofList (final p.text.toList))
            ≠ legacyAt directory name := fun heq => hplace (concat_append_inj heq.symm)
        rw [h.others _ husual (usualAt_ne_legacyAt _ _ _ _),
          h.others _ (usualAt_ne_legacyAt _ _ _ _).symm hlegacy]

/-- **A FILE WITH EITHER EXTENSION** is what a reference leads to. -/
theorem sameTargets (h : IsRenamed fs fs' directory name) : SameTargets fs fs' where
  at? dir target := by
    rw [at?_resolved, at?_resolved, h.beside?_or]
  parent dir target := parent_resolved fs fs' dir target

/-- A path to another file leads to it as before. -/
theorem at?_eq_some (h : IsRenamed fs fs' directory name) {p : Path} {entry : Entry}
    (hentry : fs.at? p = some entry) (hother : fs.locate p ≠ some (usualAt directory name)) :
    fs'.at? p = some entry := by
  refine h.sameDirectories.at?_eq_some hentry fun location hlocate => ?_
  refine h.others location ?_ ?_
  · rintro rfl
    exact hother hlocate
  · -- there was no legacy file to lead to
    rintro rfl
    rw [at?, hlocate, Option.bind_some, h.free] at hentry
    cases hentry

end IsRenamed

end FileSystem

/-! ## Missing files -/

namespace Machine

variable {fs : FileSystem} {m : Machine}

/-- Where the line that is read next looks for a definition, and for which, if it makes
    a reference. -/
def asks? (m : Machine) : Option (Path × String) :=
  match m.control with
  | .reading ⟨_, dir, _, stage, .text s :: _⟩ =>
      (stage.reference? (trim s.toList)).map fun (_, _, r) => (dir, r.target)
  | _ => none

/-- A line that makes a reference asks for it. -/
theorem exists_ask (fs : FileSystem) {dir : Path} {target : String} (h : m.asks? = some (dir, target)) :
    ∃ w : Waiting, w.reader.dir = dir ∧ w.reference.target = target ∧
      m.step fs = some (m.ask fs w) := by
  rw [asks?] at h
  split at h
  · next heading dir' line stage s rest hm =>
      obtain ⟨⟨version, ms, r⟩, href, hasked⟩ := Option.map_eq_some_iff.mp h
      obtain ⟨rfl, rfl⟩ := Prod.mk.inj hasked
      refine ⟨⟨⟨heading, dir', line + 1, stage, rest⟩, version, ms, r⟩, rfl, rfl, ?_⟩
      simp only [step, hm]
      exact congrArg some (readLine_of_reference rfl href)
  · cases h

/-- Opening a file that is not there gives an error. -/
theorem step_of_missing {path dir : Path} (hm : m.control = .opening path dir)
    (hmissing : fs.isThere path = false) :
    m.step fs = some (m.turn [] (.returning (.error (.notFound path.text)))) := by
  have hnone : fs.lines? path = none := by
    rw [FileSystem.isThere, Option.isSome_eq_false_iff, Option.isNone_iff_eq_none] at hmissing
    rw [FileSystem.lines?, hmissing, Option.map_none]
  simp only [step, hm, hnone]

/-- An error is handed on by all sources that wait. -/
theorem exists_reaches_error (fs : FileSystem) {e : Error} (hm : m.control = .returning (.error e)) :
    ∃ m', Reaches (Machine.step fs) m m' ∧ m'.waiting = [] ∧
      m'.control = .returning (.error e) := by
  obtain ⟨chain, waiting, control, events⟩ := m
  obtain rfl : control = .returning (.error e) := hm
  induction waiting generalizing chain events with
  | nil => exact ⟨_, Relation.ReflTransGen.refl, rfl, rfl⟩
  | cons w waiting ih =>
      obtain ⟨m', hrest, hend⟩ := ih chain.dropLast (events ++ [])
      exact ⟨m', Relation.ReflTransGen.head rfl hrest, hend⟩

/-- A reference for which no file is there ends the run with the path of the usual
    file. -/
theorem exists_reaches_notFound {dir : Path} {target : String} (h : m.asks? = some (dir, target))
    (husual : fs.isThere (dir.join (target ++ ".udt")) = false)
    (hlegacy : fs.isThere (dir.join (target ++ ".awl")) = false) :
    ∃ m', Reaches (Machine.step fs) m m' ∧ m'.waiting = [] ∧
      m'.control = .returning (.error (.notFound (dir.join (target ++ ".udt")).text)) := by
  obtain ⟨w, hdir, htarget, hask⟩ := exists_ask fs h
  have hresolved : fs.resolved dir target = dir.join (target ++ ".udt") := by
    rw [FileSystem.resolved, husual, hlegacy]
    rfl
  have hpath : (fs.resolve w.reader.dir w.reference.target).outcome
      = .ok (dir.join (target ++ ".udt")) := by
    rw [hdir, htarget, FileSystem.outcome_resolve, hresolved]
  have hopening : (m.ask fs w).control
      = .opening (dir.join (target ++ ".udt")) (dir.join (target ++ ".udt")).parent := by
    rw [ask_eq hpath]
  obtain ⟨m', hrest, hend⟩ := exists_reaches_error fs
    (m := (m.ask fs w).turn [] (.returning (.error (.notFound _)))) rfl
  exact ⟨m', Relation.ReflTransGen.head hask
    (Relation.ReflTransGen.head (step_of_missing hopening husual) hrest), hend⟩

end Machine

namespace Request

/-- What a run ends with is the outcome of the request. -/
theorem outcome_of_returning {fs : FileSystem} {r : Request} {m : Machine}
    {outcome : Except Error TypeDefinition} (hrun : Reaches (Machine.step fs) r.start m)
    (hwaiting : m.waiting = []) (hm : m.control = .returning outcome) :
    (r.answer fs).outcome = outcome := by
  have hend : m.step fs = none := by
    simp only [Machine.step, hm, hwaiting]
  have hanswer : ⟨[], [], .returning (r.answer fs).outcome, (r.answer fs).events⟩
      ∈ eval (Machine.step fs) r.start := mem_eval.mpr ⟨r.reaches_answer, rfl⟩
  have hsame := Part.mem_unique hanswer (mem_eval.mpr ⟨hrun, hend⟩)
  rw [← hsame] at hm
  exact Control.returning.inj hm

/-- **LEGACY FILES** are shadowed by usual files, and as good as they are: adding,
    deleting and changing legacy files beside usual ones changes neither the result
    nor the events, unless one of them is the file that is asked for; a file that is
    not asked for itself, but referred to, may become a legacy file, and every
    definition that was read is read again; and where the next line of a source makes
    a reference for which neither file is there, the request fails with the path of
    the usual one. -/
theorem answer_of_legacy (fs : FileSystem) (r : Request) :
    (∀ fs', fs.DiffersInShadowed fs' →
      (∀ path location, r.file? = some path →
        fs.locate path = some location ∨ fs'.locate path = some location →
          fs'.entry? location = fs.entry? location) →
      r.answer fs' = r.answer fs) ∧
    (∀ fs' directory name, fs.IsRenamed fs' directory name →
      (∀ path, r.file? = some path →
        fs.locate path ≠ some (FileSystem.usualAt directory name)) →
      ∀ t, (r.answer fs).outcome = .ok t → (r.answer fs').outcome = .ok t) ∧
    ∀ m dir target, Reaches (Machine.step fs) r.start m → m.asks? = some (dir, target) →
      fs.isThere (dir.join (target ++ ".udt")) = false →
      fs.isThere (dir.join (target ++ ".awl")) = false →
        (r.answer fs).outcome = .error (.notFound (dir.join (target ++ ".udt")).text) := by
  refine ⟨?_, ?_, ?_⟩
  · intro fs' h hfile
    refine (related_answer h.relatedReferences isCongruence_eq fun path hpath => ?_).symm
    exact Or.inl (FileSystem.heading?_of_at? (h.at?_eq fun location => hfile path location hpath))
  · intro fs' directory name h hfile t ht
    have hfollowed := followedBy_answer h.sameTargets fun path hpath entry hentry =>
      h.at?_eq_some hentry (hfile path hpath)
    rcases hfollowed t ht with hsame | ⟨-, -, hfalse⟩
    · exact hsame
    · exact hfalse.elim
  · intro m dir target hrun hasks husual hlegacy
    obtain ⟨m', hrest, hwaiting, hend⟩ := Machine.exists_reaches_notFound hasks husual hlegacy
    exact outcome_of_returning (hrun.trans hrest) hwaiting hend

/-- A file that refers to a definition, beside other entries. -/
def railBeside (entries : List (Location × Entry)) : FileSystem where
  home := []
  entries := (["Rail.udt"], .file (Utf8.encode
    "TYPE \"Rail\"\nVERSION : 0.1\nSTRUCT\nx : \"Motor\";\nEND_STRUCT;\nEND_TYPE\n".toList))
      :: entries

/-- A file with that definition. -/
def motorFile : Entry :=
  .file (Utf8.encode "TYPE \"Motor\"\nVERSION : 0.1\nSTRUCT\nEND_STRUCT;\nEND_TYPE\n".toList)

theorem answer_of_legacy_rail :
    (railBeside [(["Motor.udt"], motorFile)]).DiffersInShadowed
      (railBeside [(["Motor.awl"], .file []), (["Motor.udt"], motorFile)]) ∧
    (railBeside [(["Motor.udt"], motorFile)]).IsRenamed
      (railBeside [(["Motor.awl"], motorFile)]) [] "Motor" ∧
    (railBeside [(["Motor.awl"], .file []), (["Motor.udt"], motorFile)]).readPath ⟨"Rail.udt"⟩
      = (railBeside [(["Motor.udt"], motorFile)]).readPath ⟨"Rail.udt"⟩ ∧
    ((railBeside [(["Motor.awl"], motorFile)]).readPath ⟨"Rail.udt"⟩).outcome
      = .ok ⟨"Rail", "0.1", "", [.struct "x" "" []]⟩ ∧
    ((railBeside []).readPath ⟨"Rail.udt"⟩).outcome = .error (.notFound "Motor.udt") := by
  have hlocate : (railBeside [(["Motor.udt"], motorFile)]).locate ⟨"Rail.udt"⟩
      = some ["Rail.udt"] := by decide +kernel
  have hlocate' : (railBeside [(["Motor.awl"], .file []), (["Motor.udt"], motorFile)]).locate
      ⟨"Rail.udt"⟩ = some ["Rail.udt"] := by decide +kernel
  have hdiffers : (railBeside [(["Motor.udt"], motorFile)]).DiffersInShadowed
      (railBeside [(["Motor.awl"], .file []), (["Motor.udt"], motorFile)]) := by
    refine ⟨rfl, fun location => ?_⟩
    by_cases hlegacy : location = ["Motor.awl"]
    · obtain rfl := hlegacy
      exact Or.inr ⟨⟨[], "Motor", rfl, by decide +kernel, by decide +kernel⟩, by decide +kernel⟩
    · left
      simp [FileSystem.entry?, railBeside, List.lookup_cons, beq_false_of_ne hlegacy]
  have hrenamed : (railBeside [(["Motor.udt"], motorFile)]).IsRenamed
      (railBeside [(["Motor.awl"], motorFile)]) [] "Motor" := by
    refine ⟨rfl, ⟨_, rfl, rfl⟩, by decide +kernel, by decide +kernel, ?_⟩
    intro location husual hlegacy
    have husual : location ≠ ["Motor.udt"] := husual
    have hlegacy : location ≠ ["Motor.awl"] := hlegacy
    simp [FileSystem.entry?, railBeside, List.lookup_cons, beq_false_of_ne husual,
      beq_false_of_ne hlegacy]
  obtain ⟨hshadowed, hrenaming, -⟩ :=
    answer_of_legacy (railBeside [(["Motor.udt"], motorFile)]) (.path ⟨"Rail.udt"⟩)
  refine ⟨hdiffers, hrenamed, hshadowed _ hdiffers ?_, hrenaming _ _ _ hrenamed ?_ _ ?_, ?_⟩
  · rintro path location hpath hsome
    obtain rfl := Option.some.inj hpath
    rw [hlocate, hlocate', or_self] at hsome
    obtain rfl := Option.some.inj hsome
    decide +kernel
  · rintro path hpath hsome
    obtain rfl := Option.some.inj hpath
    rw [hlocate] at hsome
    exact absurd (Option.some.inj hsome) (by decide)
  · decide +kernel
  · have hsometime : Machine.sometime (fun m => m.asks? = some (⟨""⟩, "Motor")) (railBeside []) 9
        (Request.path ⟨"Rail.udt"⟩).start = true := by decide +kernel
    obtain ⟨m, hrun, hasks⟩ := Machine.exists_of_sometime hsometime
    exact (answer_of_legacy (railBeside []) (.path ⟨"Rail.udt"⟩)).2.2 m ⟨""⟩ "Motor" hrun
      (of_decide_eq_true hasks) (by decide +kernel) (by decide +kernel)

end Request

end PlcTypes
