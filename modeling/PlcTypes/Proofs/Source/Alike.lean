import Mathlib.Data.List.Forall2
import PlcTypes.Proofs.RoundTrip.Settled
import PlcTypes.Proofs.Source.Definition

/-! # Definitions that differ in comments of structures only

    Two definitions are alike when they are the same once the comments of all
    structures in them are on one line.  A source whose references mean
    definitions that are alike is read to definitions that are alike: the reader
    passes members on as they are and never looks into them. -/

namespace PlcTypes

open Traced

namespace Field

/-- What is settled below stays as it is when the list is settled again. -/
theorem settledAll_settledAll {fs : List Field} (h : ∀ f ∈ fs, f.settled.settled = f.settled) :
    settledAll (settledAll fs) = settledAll fs := by
  rw [settledAll_eq_map, settledAll_eq_map, List.map_map]
  exact List.map_congr_left h

/-- A settled field stays as it is. -/
theorem settled_settled (f : Field) : f.settled.settled = f.settled := by
  induction f using Field.induction with
  | plain f hf => rw [settled_plain hf, settled_plain hf]
  | struct name comment members ih =>
      rw [settled, settled, (isOneLine_oneLine comment).oneLine_eq, settledAll_settledAll ih]

/-- Fields that are listed backwards are settled as they were, and listed
    backwards. -/
theorem settledAll_reverse (fs : List Field) :
    settledAll fs.reverse = (settledAll fs).reverse := by
  rw [settledAll_eq_map, settledAll_eq_map, List.map_reverse]

end Field

/-! ## Being alike -/

/-- The same but for carriage returns in the comments of structures. -/
def TypeDefinition.Alike (t t' : TypeDefinition) : Prop :=
  t'.settled = t.settled

theorem TypeDefinition.Alike.refl (t : TypeDefinition) : t.Alike t := rfl

/-- Being alike carries over from one definition to the next. -/
theorem TypeDefinition.Alike.trans {t u v : TypeDefinition} (htu : t.Alike u) (huv : u.Alike v) :
    t.Alike v :=
  Eq.trans huv htu

/-- A definition is alike to its settled form. -/
theorem TypeDefinition.alike_settled (t : TypeDefinition) : t.Alike t.settled := by
  show { t with members := Field.settledAll (Field.settledAll t.members) }
    = { t with members := Field.settledAll t.members }
  rw [Field.settledAll_settledAll fun f _ => f.settled_settled]

/-- Settling does not reach the comment of the definition itself. -/
theorem TypeDefinition.Alike.comment {t t' : TypeDefinition} (h : t.Alike t') :
    t'.comment = t.comment := by
  have hcomment : t'.settled.comment = t.settled.comment := congrArg TypeDefinition.comment h
  exact hcomment

/-- Definitions that are alike stay so when they get the same comment. -/
theorem TypeDefinition.Alike.withComment {t t' : TypeDefinition} (h : t.Alike t')
    (comment : String) : (t.withComment comment).Alike (t'.withComment comment) := by
  show t'.settled.withComment comment = t.settled.withComment comment
  exact congrArg (TypeDefinition.withComment · comment) h

/-- The members of definitions that are alike are the same once they are settled. -/
theorem TypeDefinition.Alike.members {t t' : TypeDefinition} (h : t.Alike t') :
    Field.settledAll t'.members = Field.settledAll t.members := by
  have hmembers : t'.settled.members = t.settled.members := congrArg TypeDefinition.members h
  exact hmembers

/-- Open structures with members that are alike. -/
structure OpenStruct.Alike (s s' : OpenStruct) : Prop where
  name : s'.name = s.name
  comment : s'.comment = s.comment
  members : Field.settledAll s'.members = Field.settledAll s.members

/-- Members that are the same once they are settled, in as many open structures. -/
structure Members.Alike (ms ms' : Members) : Prop where
  own : Field.settledAll ms'.own = Field.settledAll ms.own
  inner : List.Forall₂ OpenStruct.Alike ms.inner ms'.inner

/-- Stages with members that are alike. -/
inductive Stage.Alike : Stage → Stage → Prop where
  | metadata : Alike .metadata .metadata
  | version : Alike .version .version
  | opening (v : String) : Alike (.opening v) (.opening v)
  | members (v : String) {ms ms' : Members} (h : ms.Alike ms') :
      Alike (.members v ms) (.members v ms')
  | footer (v : String) {fs fs' : List Field}
      (h : Field.settledAll fs' = Field.settledAll fs) : Alike (.footer v fs) (.footer v fs')

/-- What lines lead to, with members that are alike. -/
inductive Progress.Alike : Progress → Progress → Prop where
  | more {stage stage' : Stage} (h : stage.Alike stage') : Alike (.more stage) (.more stage')
  | done (v : String) {fs fs' : List Field}
      (h : Field.settledAll fs' = Field.settledAll fs) : Alike (.done v fs) (.done v fs')

/-! ## Members -/

namespace Members

variable {ms ms' : Members}

theorem Alike.empty : Members.empty.Alike Members.empty :=
  ⟨rfl, List.Forall₂.nil⟩

/-- Adding fields that are the same once they are settled keeps members alike:
    both go to the innermost open structure. -/
theorem Alike.add (h : ms.Alike ms') {f f' : Field} (hf : f'.settled = f.settled) :
    (ms.add f).Alike (ms'.add f') := by
  obtain ⟨own, inner⟩ := ms
  obtain ⟨own', inner'⟩ := ms'
  obtain ⟨hown, hinner⟩ := h
  cases hinner with
  | nil =>
      refine ⟨?_, List.Forall₂.nil⟩
      show f'.settled :: Field.settledAll own' = f.settled :: Field.settledAll own
      rw [hf]
      exact congrArg _ hown
  | @cons s s' outer outer' hs houter =>
      refine ⟨hown, List.Forall₂.cons ⟨hs.name, hs.comment, ?_⟩ houter⟩
      show f'.settled :: Field.settledAll s'.members = f.settled :: Field.settledAll s.members
      rw [hf, hs.members]

/-- Opening the same structure keeps members alike. -/
theorem Alike.openStruct (h : ms.Alike ms') (name comment : String) :
    (ms.openStruct name comment).Alike (ms'.openStruct name comment) :=
  ⟨h.own, List.Forall₂.cons ⟨rfl, rfl, rfl⟩ h.inner⟩

end Members

/-- Open structures that are alike are closed to fields that are the same once
    they are settled. -/
theorem OpenStruct.Alike.close {s s' : OpenStruct} (h : s.Alike s') :
    s'.close.settled = s.close.settled := by
  show Field.struct s'.name (oneLine (oneLine s'.comment)) (Field.settledAll s'.members.reverse)
    = Field.struct s.name (oneLine (oneLine s.comment)) (Field.settledAll s.members.reverse)
  rw [h.name, h.comment, Field.settledAll_reverse, Field.settledAll_reverse, h.members]

/-- In the place of a reference, definitions that are alike make fields that
    are. -/
theorem TypeDefinition.Alike.graft {t t' : TypeDefinition} (h : t.Alike t')
    (name comment : String) :
    (t'.graft name comment).settled = (t.graft name comment).settled := by
  show Field.struct name (oneLine (if comment.isEmpty then t'.comment else comment))
      (Field.settledAll t'.members)
    = Field.struct name (oneLine (if comment.isEmpty then t.comment else comment))
      (Field.settledAll t.members)
  rw [h.comment, h.members]

/-- A closing line closes a structure on both sides, or the body on both. -/
theorem Stage.Alike.close {ms ms' : Members} (h : ms.Alike ms') (v : String) :
    (Stage.close v ms).Alike (Stage.close v ms') := by
  obtain ⟨own, inner⟩ := ms
  obtain ⟨own', inner'⟩ := ms'
  obtain ⟨hown, hinner⟩ := h
  cases hinner with
  | nil =>
      refine Stage.Alike.footer v ?_
      rw [Field.settledAll_reverse, Field.settledAll_reverse]
      exact congrArg _ hown
  | @cons s s' outer outer' hs houter =>
      have hrest : Members.Alike ⟨own, outer⟩ ⟨own', outer'⟩ := ⟨hown, houter⟩
      exact Stage.Alike.members v (hrest.add hs.close)

/-- Whether a definition can be made does not depend on its members. -/
theorem TypeDefinition.carriesOver_create (name v : String) {fs fs' : List Field}
    (h : Field.settledAll fs' = Field.settledAll fs) :
    CarriesOver TypeDefinition.Alike (lift (create name v fs)) (lift (create name v fs')) := by
  intro t ht
  obtain ⟨stored, hname, hversion, rfl⟩ := create_eq_ok.mp ht
  refine ⟨_, create_eq_ok.mpr ⟨stored, hname, hversion, rfl⟩, ?_⟩
  exact congrArg (TypeDefinition.mk stored (String.ofList (versionOf v.toList)) "") h

/-! ## Lines -/

section Lines

variable {refer refer' : String → String → Traced TypeDefinition} {owner : String}
  (hrefer : ∀ field target,
    CarriesOver TypeDefinition.Alike (refer field target) (refer' field target))
include hrefer

/-- **ONE DECLARATION**: only a reference makes a difference, and its definitions
    are alike. -/
theorem Stage.carriesOver_declare (n : Nat) {ms ms' : Members} (h : ms.Alike ms')
    (d : Grammar.Declaration) :
    CarriesOver Members.Alike (declare refer n ms d) (declare refer' n ms' d) := by
  unfold declare
  refine CarriesOver.bind_left _ fun name => ?_
  cases d.spec with
  | struct => exact carriesOver_pure (h.openStruct name d.comment)
  | reference target =>
      refine (hrefer name target).bind fun t t' ht => ?_
      exact carriesOver_pure (h.add (ht.graft name d.comment))
  | plain spec =>
      dsimp only
      cases spec.field name d.comment with
      | error e => exact carriesOver_fail _ _
      | ok f => exact carriesOver_pure (h.add rfl)

/-- **ONE LINE**: from stages that are alike it leads to stages that are. -/
theorem Stage.carriesOver_step (n : Nat) (cs : List Char) {stage stage' : Stage}
    (h : stage.Alike stage') :
    CarriesOver Progress.Alike (stage.step refer owner n cs) (stage'.step refer' owner n cs) := by
  cases h with
  | metadata =>
      rw [step, step]
      cases Grammar.version? cs with
      | some v => exact carriesOver_pure (.more (.opening _))
      | none => exact CarriesOver.bind_left _ fun _ => carriesOver_pure (.more .version)
  | version =>
      rw [step, step]
      cases Grammar.version? cs with
      | some v => exact carriesOver_pure (.more (.opening _))
      | none => exact carriesOver_fail _ _
  | opening v =>
      rw [step, step]
      split
      · exact carriesOver_pure (.more (.opening v))
      · split
        · exact carriesOver_pure (.more (.members v .empty))
        · exact carriesOver_fail _ _
  | members v h =>
      rw [step, step]
      cases Grammar.BodyLine.ofText cs with
      | blank | remark => exact carriesOver_pure (.more (.members v h))
      | closing => exact carriesOver_pure (.more (Stage.Alike.close h v))
      | declaration d =>
          refine (Stage.carriesOver_declare hrefer n h d).bind fun ms ms' hms => ?_
          exact carriesOver_pure (.more (.members v hms))
      | malformed => exact carriesOver_fail _ _
  | footer v h =>
      rw [step, step]
      split
      · exact carriesOver_pure (.more (.footer v h))
      · split
        · exact carriesOver_pure (.done v h)
        · exact CarriesOver.bind_left _ fun _ => carriesOver_pure (.more (.footer v h))

/-- Bodies with the same version and members that are alike. -/
def BodyAlike (body body' : String × List Field) : Prop :=
  body'.1 = body.1 ∧ Field.settledAll body'.2 = Field.settledAll body.2

omit hrefer in
/-- The end of the source ends both bodies, or neither. -/
theorem Stage.carriesOver_finish {stage stage' : Stage} (h : stage.Alike stage') :
    CarriesOver BodyAlike (stage.finish owner) (stage'.finish owner) := by
  cases h with
  | metadata | version | opening | members => exact carriesOver_fail _ _
  | footer v h => exact CarriesOver.bind_left _ fun _ => carriesOver_pure ⟨rfl, h⟩

/-- **ALL LINES**: from stages that are alike they lead to bodies that are. -/
theorem Stage.carriesOver_run (n : Nat) {stage stage' : Stage} (h : stage.Alike stage')
    (lines : List Text.Line) :
    CarriesOver BodyAlike (Stage.run refer owner n stage lines)
      (Stage.run refer' owner n stage' lines) := by
  induction lines generalizing n stage stage' with
  | nil => exact Stage.carriesOver_finish h
  | cons line rest ih =>
      cases line with
      | unreadable fault => exact carriesOver_fail _ _
      | text s =>
          rw [Stage.run, Stage.run]
          refine (Stage.carriesOver_step hrefer _ _ h).bind fun p p' hp => ?_
          cases hp with
          | more hnext => exact ih (n + 1) hnext
          | done v hfs => exact carriesOver_pure ⟨rfl, hfs⟩

/-- What is made of a heading and of bodies that are alike is alike. -/
theorem Heading.carriesOver_definition (h : Heading) :
    CarriesOver TypeDefinition.Alike (h.definition refer) (h.definition refer') := by
  refine (Stage.carriesOver_run hrefer h.line .metadata h.rest).bind fun body body' hbody => ?_
  obtain ⟨v, fs⟩ := body
  obtain ⟨v', fs'⟩ := body'
  obtain ⟨rfl, hfs⟩ := hbody
  dsimp only
  exact (TypeDefinition.carriesOver_create h.name v' hfs).bind fun t t' ht =>
    carriesOver_pure (ht.withComment h.comment)

end Lines

/-- **A SOURCE**: with references that mean definitions that are alike, it is
    read to a definition that is alike. -/
theorem TypeDefinition.carriesOver_ofLines {within : List String} {lines : List Text.Line}
    {refer refer' : (h : Heading) → Heading.find 0 lines = .ok h →
      isWithin within h.name = false → String → String → Traced TypeDefinition}
    (hrefer : ∀ h hfound hnew field target,
      CarriesOver Alike (refer h hfound hnew field target) (refer' h hfound hnew field target)) :
    CarriesOver Alike (ofLines within lines refer) (ofLines within lines refer') := by
  cases hfound : Heading.find 0 lines with
  | error e =>
      rw [ofLines_of_no_heading hfound]
      exact carriesOver_fail _ _
  | ok head =>
      cases hnew : isWithin within head.name with
      | true =>
          rw [ofLines_of_met hfound hnew]
          exact carriesOver_fail _ _
      | false =>
          rw [ofLines_of_found hfound hnew, ofLines_of_found hfound hnew]
          exact CarriesOver.bind_left _ fun _ =>
            head.carriesOver_definition (hrefer head hfound hnew)

end PlcTypes
