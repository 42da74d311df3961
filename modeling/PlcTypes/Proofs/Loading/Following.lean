import PlcTypes.Proofs.Source.Definition
import PlcTypes.Proofs.Source.Reference
import PlcTypes.Source.Load

/-! # What loading for other definitions gives

    The names of the definitions that a file is loaded for decide one thing
    only: whether a heading is refused because it refers back.  So a file that
    is loaded for two lists of names gives the same definition for both, as
    long as neither refuses.  It is loaded for fewer names whenever it is for
    more; for other names it may be refused, but gives nothing else. -/

namespace PlcTypes

open Traced

variable {excused : Error → Prop}

/-! ## Lines -/

section Lines

variable {R : ∀ {α : Type}, Traced α → Traced α → Prop}
  {refer refer' : String → String → Traced TypeDefinition} {owner : String} (hR : IsCongruence R)
  (hrefer : ∀ field target, R (refer field target) (refer' field target))
include hR hrefer

/-- One line is related to itself if what it refers to is. -/
theorem Stage.congr_step (n : Nat) (cs : List Char) (stage : Stage) :
    R (stage.step refer owner n cs) (stage.step refer' owner n cs) := by
  cases href : stage.reference? cs with
  | none =>
      rw [Stage.step_of_no_reference href refer refer']
      exact hR.refl _
  | some asked =>
      obtain ⟨v, ms, r⟩ := asked
      rw [Stage.step_of_reference? href refer, Stage.step_of_reference? href refer']
      exact hR.bind (hrefer r.field r.target) fun t => hR.refl _

/-- All lines are related to themselves, by induction on them. -/
theorem Stage.congr_run (n : Nat) (stage : Stage) (lines : List Text.Line) :
    R (Stage.run refer owner n stage lines) (Stage.run refer' owner n stage lines) := by
  induction lines generalizing n stage with
  | nil => exact hR.refl _
  | cons line rest ih =>
      cases line with
      | unreadable fault => exact hR.refl _
      | text s =>
          rw [Stage.run, Stage.run]
          refine hR.bind (Stage.congr_step hR hrefer _ _ stage) fun p => ?_
          cases p with
          | more next => exact ih (n + 1) next
          | done v fs => exact hR.refl _

theorem Heading.congr_definition (h : Heading) : R (h.definition refer) (h.definition refer') :=
  hR.bind (Stage.congr_run hR hrefer h.line .metadata h.rest) fun _ => hR.refl _

end Lines

/-- Sources with the same heading, and the same behind it, give what is related if what
    their references mean is. -/
theorem TypeDefinition.congr_ofLines {R : ∀ {α : Type}, Traced α → Traced α → Prop}
    (hR : IsCongruence R) {within : List String} {lines lines' : List Text.Line}
    (hfind : Heading.find 0 lines' = Heading.find 0 lines)
    {refer : (h : Heading) → Heading.find 0 lines = .ok h →
      isWithin within h.name = false → String → String → Traced TypeDefinition}
    {refer' : (h : Heading) → Heading.find 0 lines' = .ok h →
      isWithin within h.name = false → String → String → Traced TypeDefinition}
    (hrefer : ∀ h hfound hfound' hnew field target,
      R (refer h hfound hnew field target) (refer' h hfound' hnew field target)) :
    R (ofLines within lines refer) (ofLines within lines' refer') := by
  cases hfound : Heading.find 0 lines with
  | error e =>
      rw [ofLines_of_no_heading hfound, ofLines_of_no_heading (hfind.trans hfound)]
      exact hR.refl _
  | ok head =>
      have hfound' := hfind.trans hfound
      cases hnew : isWithin within head.name with
      | true =>
          rw [ofLines_of_met hfound hnew, ofLines_of_met hfound' hnew]
          exact hR.refl _
      | false =>
          rw [ofLines_of_found hfound hnew, ofLines_of_found hfound' hnew]
          exact hR.bind (hR.refl _) fun _ =>
            head.congr_definition hR (hrefer head hfound hfound' hnew)

/-! ## Files -/

/-- Whether what is loaded for the names `within` is followed by what is
    loaded for the names `within'`: no more names are refused, or refusing is
    excused. -/
def Permits (excused : Error → Prop) (within within' : List String) : Prop :=
  (∀ name, isWithin within' name = true → isWithin within name = true) ∨
    ∀ chain name, excused (.cyclicReference chain name)

/-- A name is met below a definition if it was met above it, or is its own. -/
theorem isWithin_append (within : List String) (name other : String) :
    isWithin (within ++ [name]) other = (isWithin within other || Text.sameName name other) := by
  simp [isWithin]

/-- A name that is met further in is met for both lists. -/
theorem Permits.append {within within' : List String} (h : Permits excused within within')
    (name : String) : Permits excused (within ++ [name]) (within' ++ [name]) := by
  refine h.imp_left fun hwithin other hother => ?_
  rw [isWithin_append, Bool.or_eq_true] at hother ⊢
  exact hother.imp_left (hwithin other)

/-- A source is followed by itself with other names, if what its references mean
    is. -/
theorem TypeDefinition.followedBy_ofLines {within within' : List String}
    (h : Permits excused within within') {lines : List Text.Line}
    {refer : (h : Heading) → Heading.find 0 lines = .ok h →
      isWithin within h.name = false → String → String → Traced TypeDefinition}
    {refer' : (h : Heading) → Heading.find 0 lines = .ok h →
      isWithin within' h.name = false → String → String → Traced TypeDefinition}
    (hrefer : ∀ h hfound hnew hnew' field target,
      FollowedBy excused (refer h hfound hnew field target) (refer' h hfound hnew' field target)) :
    FollowedBy excused (ofLines within lines refer) (ofLines within' lines refer') := by
  cases hfound : Heading.find 0 lines with
  | error e =>
      rw [ofLines_of_no_heading hfound, ofLines_of_no_heading hfound]
      exact FollowedBy.refl _
  | ok head =>
      cases hnew : isWithin within head.name with
      | true =>
          rw [ofLines_of_met hfound hnew]
          exact followedBy_fail _ _
      | false =>
          rw [ofLines_of_found hfound hnew]
          cases hnew' : isWithin within' head.name with
          | false =>
              rw [ofLines_of_found hfound hnew']
              have hnote : ∀ e e', FollowedBy excused (note e) (note e') :=
                fun e e' a ha => Or.inl ha
              exact (hnote _ _).bind fun _ =>
                head.congr_definition (isCongruence_followedBy excused)
                  (hrefer head hfound hnew hnew')
          | true =>
              rw [ofLines_of_met hfound hnew']
              -- refused by the second list only: it refuses more, or that is excused
              intro t ht
              rcases h with h | h
              · rw [h head.name hnew'] at hnew
                exact nomatch hnew
              · exact Or.inr ⟨_, rfl, h within' head.name⟩

namespace FileSystem

variable {fs : FileSystem}

/-- What a reference means is followed when what is loaded for it is. -/
theorem followedBy_refer {dir : Path} {load load' : Path → Traced TypeDefinition}
    (h : ∀ p, FollowedBy excused (load p) (load' p)) (field target : String) :
    FollowedBy excused (fs.refer dir load field target) (fs.refer dir load' field target) :=
  (FollowedBy.refl _).bind fun p => (FollowedBy.refl _).bind fun _ => h p

/-- **WHAT A FILE GIVES DOES NOT DEPEND ON WHAT IT IS LOADED FOR**, but for
    whether it is refused. -/
theorem followedBy_load {within within' : List String} (h : Permits excused within within')
    (path dir : Path) :
    FollowedBy excused (fs.load within path dir) (fs.load within' path dir) := by
  induction within, path, dir using load.induct fs generalizing within' with
  | case1 within path dir hmissing =>
      rw [load_of_missing hmissing, load_of_missing hmissing]
      exact FollowedBy.refl _
  | case2 within path dir lines hthere ih =>
      rw [load_of_lines hthere, load_of_lines hthere]
      refine TypeDefinition.followedBy_ofLines h fun head hfound hnew hnew' => ?_
      exact followedBy_refer fun p => ih head hfound hnew p (h.append head.name)

end FileSystem

end PlcTypes
