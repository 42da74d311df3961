import PlcTypes.Proofs.Field.Fault
import PlcTypes.Proofs.Source.Reference

/-! # What a single line can lead to

    A line can only go wrong in its own way: a line that makes a reference
    fails with what is wrong with the reference, and any other line with an
    error that names this very line, if it names one at all.  A line on which
    nothing goes wrong leads to one next stage, or it ends the definition;
    `LeadsTo` has a rule for each such line. -/

namespace PlcTypes

open Grammar

namespace Stage

variable {refer : String → String → Traced TypeDefinition} {owner : String} {n : Nat}
  {cs : List Char} {stage : Stage} {e : Error}

/-- On a line that makes a reference nothing goes wrong but what goes wrong
    with the reference. -/
theorem refer_of_step_error {v : String} {ms : Members} {r : Reference}
    (href : stage.reference? cs = some (v, ms, r))
    (h : (stage.step refer owner n cs).outcome = .error e) :
    (refer r.field r.target).outcome = .error e := by
  rw [step_of_reference? href refer] at h
  cases ht : (refer r.field r.target).outcome with
  | error e' =>
      rw [Traced.bind_of_error ht] at h
      obtain rfl : e' = e := Except.error.inj h
      rfl
  | ok t =>
      rw [Traced.bind_of_ok ht] at h
      exact nomatch h

/-- An error that belongs to line `n`: if it is about a line at all, it names
    this one. -/
structure IsOwn (n : Nat) (e : Error) : Prop where
  field : ∀ line fault, e = .malformedField line fault → line = some n
  range : ∀ line fault, e = .invalidRange line fault → line = some n
  unreadable : ∀ fault, e ≠ .unreadable fault

theorem IsOwn.malformedHeader (fault : HeaderFault) : IsOwn n (.malformedHeader fault) :=
  ⟨nofun, nofun, nofun⟩

theorem IsOwn.malformedField (fault : FieldFault) : IsOwn n (.malformedField (some n) fault) :=
  ⟨fun _ _ he => (Error.malformedField.inj he).1.symm, nofun, nofun⟩

/-- The errors of declarations are placed on their lines. -/
theorem isOwn_at (h : e.OfDeclaration) : IsOwn n (e.at n) := by
  cases e with
  | malformedField line fault =>
      refine ⟨?_, nofun, nofun⟩
      intro line' fault' he
      obtain ⟨rfl, -⟩ := Error.malformedField.inj he
      rfl
  | invalidRange line fault =>
      refine ⟨nofun, ?_, nofun⟩
      intro line' fault' he
      obtain ⟨rfl, -⟩ := Error.invalidRange.inj he
      rfl
  | invalidName name | unknownType name => exact ⟨nofun, nofun, nofun⟩
  | unreadable | notFound | malformedHeader | unterminatedStruct | cyclicReference =>
      exact nomatch h

/-- What is wrong with a declaration that refers to nothing belongs to its line. -/
theorem isOwn_of_declare_error {ms : Members} {d : Declaration}
    (href : ∀ name target, nameOf d.name = .ok name → d.spec ≠ .reference target)
    (h : (declare refer n ms d).outcome = .error e) : IsOwn n e := by
  rw [declare] at h
  cases hname : nameOf d.name with
  | error e' =>
      rw [hname, Traced.lift_error, Traced.fail_bind] at h
      obtain rfl : e' = e := Except.error.inj h
      rw [(nameOf_eq_error.mp hname).2]
      exact ⟨nofun, nofun, nofun⟩
  | ok name =>
      rw [hname, Traced.lift_ok, pure_bind] at h
      cases hspec : d.spec with
      | struct =>
          rw [hspec] at h
          exact nomatch h
      | reference target => exact absurd hspec (href name target hname)
      | plain spec =>
          rw [hspec] at h
          dsimp only at h
          cases hfield : spec.field name d.comment with
          | ok f =>
              rw [hfield] at h
              exact nomatch h
          | error e' =>
              rw [hfield] at h
              obtain rfl : e'.at n = e := Except.error.inj h
              exact isOwn_at (spec.failsWith_field name d.comment e' hfield)

/-- What goes wrong on a line that makes no reference belongs to that line. -/
theorem isOwn_of_step_error (href : stage.reference? cs = none)
    (h : (stage.step refer owner n cs).outcome = .error e) : IsOwn n e := by
  cases stage with
  | metadata =>
      rw [step] at h
      split at h
      · cases h
      · cases h
  | version =>
      rw [step] at h
      split at h
      · cases h
      · obtain rfl := Except.error.inj h
        exact IsOwn.malformedHeader _
  | opening v =>
      rw [step] at h
      split at h
      · cases h
      · split at h
        · cases h
        · obtain rfl := Except.error.inj h
          exact IsOwn.malformedHeader _
  | members v ms =>
      rw [reference?] at href
      rw [step] at h
      cases hline : BodyLine.ofText cs with
      | blank | remark | closing =>
          rw [hline] at h
          cases h
      | malformed =>
          rw [hline] at h
          obtain rfl := Except.error.inj h
          exact IsOwn.malformedField _
      | declaration d =>
          rw [hline] at h href
          dsimp only at h href
          have hplain : ∀ name target, nameOf d.name = .ok name → d.spec ≠ .reference target := by
            intro name target hname hspec
            rw [hname, hspec] at href
            cases href
          cases hms : (declare refer n ms d).outcome with
          | ok ms' =>
              rw [Traced.bind_of_ok hms] at h
              cases h
          | error e' =>
              rw [Traced.bind_of_error hms] at h
              obtain rfl : e' = e := Except.error.inj h
              exact isOwn_of_declare_error hplain hms
  | footer v fs =>
      rw [step] at h
      split at h
      · cases h
      · split at h
        · cases h
        · cases h

/-- What the members are after a declaration with which nothing goes wrong. -/
inductive Adds (refer : String → String → Traced TypeDefinition) (d : Declaration)
    (ms : Members) : Members → Prop where
  | struct {name : String} (hname : nameOf d.name = .ok name) (hspec : d.spec = .struct) :
      Adds refer d ms (ms.openStruct name d.comment)
  | reference {name target : String} {t : TypeDefinition} (hname : nameOf d.name = .ok name)
      (hspec : d.spec = .reference target) (ht : (refer name target).outcome = .ok t) :
      Adds refer d ms (ms.add (t.graft name d.comment))
  | plain {name : String} {spec : PlainSpec} {f : Field} (hname : nameOf d.name = .ok name)
      (hspec : d.spec = .plain spec) (hf : spec.field name d.comment = .ok f) :
      Adds refer d ms (ms.add f)

/-- A declaration with which nothing goes wrong adds its field or opens its
    structure. -/
theorem adds_of_declare {ms ms' : Members} {d : Declaration}
    (h : (declare refer n ms d).outcome = .ok ms') : Adds refer d ms ms' := by
  obtain ⟨name, hname, h⟩ := Traced.outcome_bind_eq_ok.mp h
  rw [Traced.outcome_lift] at hname
  cases hspec : d.spec with
  | struct =>
      rw [hspec] at h
      obtain rfl := Except.ok.inj h
      exact .struct hname hspec
  | reference target =>
      rw [hspec] at h
      obtain ⟨t, ht, h⟩ := Traced.outcome_bind_eq_ok.mp h
      obtain rfl := Except.ok.inj h
      exact .reference hname hspec ht
  | plain spec =>
      rw [hspec] at h
      dsimp only at h
      cases hf : spec.field name d.comment with
      | error e =>
          rw [hf] at h
          exact nomatch h
      | ok f =>
          rw [hf] at h
          obtain rfl := Except.ok.inj h
          exact .plain hname hspec hf

/-- What a declaration adds does not depend on the number of its line. -/
theorem Adds.declare_ok {ms ms' : Members} {d : Declaration} (h : Adds refer d ms ms') (n : Nat) :
    (declare refer n ms d).outcome = .ok ms' := by
  rw [declare]
  cases h with
  | struct hname hspec =>
      rw [hname, hspec]
      rfl
  | reference hname hspec ht =>
      rw [hname, Traced.lift_ok, pure_bind, hspec]
      exact Traced.outcome_bind_eq_ok.mpr ⟨_, ht, rfl⟩
  | plain hname hspec hf =>
      rw [hname, Traced.lift_ok, pure_bind, hspec]
      dsimp only
      rw [hf]
      rfl

/-- Where a line leads on which nothing goes wrong. -/
inductive LeadsTo (refer : String → String → Traced TypeDefinition) (cs : List Char) :
    Stage → Progress → Prop where
  | metadata (h : version? cs = none) : LeadsTo refer cs .metadata (.more .version)
  /-- The version, without metadata before it. -/
  | early {v : List Char} (h : version? cs = some v) :
      LeadsTo refer cs .metadata (.more (.opening (String.ofList v)))
  | version {v : List Char} (h : version? cs = some v) :
      LeadsTo refer cs .version (.more (.opening (String.ofList v)))
  | gap {v : String} (h : cs = []) : LeadsTo refer cs (.opening v) (.more (.opening v))
  | opening {v : String} (hgap : cs ≠ []) (h : isStruct cs = true) :
      LeadsTo refer cs (.opening v) (.more (.members v .empty))
  | skip {v : String} {ms : Members}
      (h : BodyLine.ofText cs = .blank ∨ BodyLine.ofText cs = .remark) :
      LeadsTo refer cs (.members v ms) (.more (.members v ms))
  | closing {v : String} {ms : Members} (h : BodyLine.ofText cs = .closing) :
      LeadsTo refer cs (.members v ms) (.more (close v ms))
  | declaration {v : String} {ms ms' : Members} {d : Declaration}
      (h : BodyLine.ofText cs = .declaration d)
      (hms : Adds refer d ms ms') :
      LeadsTo refer cs (.members v ms) (.more (.members v ms'))
  | blank {v : String} {fs : List Field} (h : cs = []) :
      LeadsTo refer cs (.footer v fs) (.more (.footer v fs))
  | last {v : String} {fs : List Field} (hblank : cs ≠ []) (h : isEndType cs = true) :
      LeadsTo refer cs (.footer v fs) (.done v fs)
  | ignored {v : String} {fs : List Field} (hblank : cs ≠ []) (h : isEndType cs = false) :
      LeadsTo refer cs (.footer v fs) (.more (.footer v fs))

/-- A step with which nothing goes wrong leads where the line leads. -/
theorem leadsTo_of_step {p : Progress} (h : (stage.step refer owner n cs).outcome = .ok p) :
    LeadsTo refer cs stage p := by
  cases stage with
  | metadata =>
      rw [step] at h
      cases hv : version? cs with
      | none =>
          rw [hv] at h
          obtain rfl := Except.ok.inj h
          exact .metadata hv
      | some v =>
          rw [hv] at h
          obtain rfl := Except.ok.inj h
          exact .early hv
  | version =>
      rw [step] at h
      cases hv : version? cs with
      | none =>
          rw [hv] at h
          cases h
      | some v =>
          rw [hv] at h
          obtain rfl := Except.ok.inj h
          exact .version hv
  | opening v =>
      rw [step] at h
      split at h
      · next hgap =>
          obtain rfl := Except.ok.inj h
          exact .gap (List.isEmpty_iff.mp hgap)
      · next hgap =>
          split at h
          · next hstruct =>
              obtain rfl := Except.ok.inj h
              exact .opening (fun hnil => hgap (List.isEmpty_iff.mpr hnil)) hstruct
          · cases h
  | members v ms =>
      rw [step] at h
      cases hline : BodyLine.ofText cs with
      | blank =>
          rw [hline] at h
          obtain rfl := Except.ok.inj h
          exact .skip (Or.inl hline)
      | remark =>
          rw [hline] at h
          obtain rfl := Except.ok.inj h
          exact .skip (Or.inr hline)
      | closing =>
          rw [hline] at h
          obtain rfl := Except.ok.inj h
          exact .closing hline
      | malformed =>
          rw [hline] at h
          cases h
      | declaration d =>
          rw [hline] at h
          obtain ⟨ms', hms, h⟩ := Traced.outcome_bind_eq_ok.mp h
          obtain rfl := Except.ok.inj h
          exact .declaration hline (adds_of_declare hms)
  | footer v fs =>
      rw [step] at h
      split at h
      · next hblank =>
          obtain rfl := Except.ok.inj h
          exact .blank (List.isEmpty_iff.mp hblank)
      · next hblank =>
          have hne : cs ≠ [] := fun hnil => hblank (List.isEmpty_iff.mpr hnil)
          split at h
          · next hend =>
              obtain rfl := Except.ok.inj h
              exact .last hne hend
          · next hend =>
              obtain rfl := Except.ok.inj h
              exact .ignored hne (Bool.eq_false_iff.mpr hend)

/-- A line leads where it leads whatever its number is and whoever reads it. -/
theorem LeadsTo.step_ok {p : Progress} (h : LeadsTo refer cs stage p) (owner : String) (n : Nat) :
    (stage.step refer owner n cs).outcome = .ok p := by
  cases h with
  | metadata h =>
      rw [step, h]
      rfl
  | early h =>
      rw [step, h]
      rfl
  | version h =>
      rw [step, h]
      rfl
  | gap h =>
      rw [step, h]
      rfl
  | opening hgap h =>
      rw [step, if_neg (List.isEmpty_iff.not.mpr hgap), if_pos h]
      rfl
  | skip h =>
      rw [step]
      rcases h with h | h
      · rw [h]
        rfl
      · rw [h]
        rfl
  | closing h =>
      rw [step, h]
      rfl
  | declaration h hms =>
      rw [step, h]
      exact Traced.outcome_bind_eq_ok.mpr ⟨_, hms.declare_ok n, rfl⟩
  | blank h =>
      rw [step, h]
      rfl
  | last hblank h =>
      rw [step, if_neg (List.isEmpty_iff.not.mpr hblank), if_pos h]
      rfl
  | ignored hblank h =>
      rw [step, if_neg (List.isEmpty_iff.not.mpr hblank), if_neg (Bool.eq_false_iff.mp h)]
      rfl

/-- Only the line that ends a definition ends it. -/
theorem isEndType_of_step_done {v : String} {fs : List Field}
    (h : (stage.step refer owner n cs).outcome = .ok (.done v fs)) : isEndType cs = true := by
  cases leadsTo_of_step h with
  | last hblank hend => exact hend

/-- In a stage in which a source cannot end there is a next line. -/
theorem exists_step {b : String × List Field} {lines : List Text.Line}
    (h : (run refer owner n stage lines).outcome = .ok b)
    (hfinish : ∀ b, (stage.finish owner).outcome ≠ .ok b) :
    ∃ (s : String) (rest : List Text.Line) (p : Progress), lines = .text s :: rest ∧
      (stage.step refer owner (n + 1) (Text.trim s.toList)).outcome = .ok p := by
  cases lines with
  | nil => exact absurd h (hfinish b)
  | cons line rest =>
      cases line with
      | unreadable fault => exact nomatch h
      | text s =>
          obtain ⟨p, hp, -⟩ := Traced.outcome_bind_eq_ok.mp h
          exact ⟨s, rest, p, rfl, hp⟩

/-- A line that leads on is followed by what the lines behind it give. -/
theorem run_of_step_more {next : Stage} {s : String} {rest : List Text.Line}
    (h : (stage.step refer owner (n + 1) (Text.trim s.toList)).outcome = .ok (.more next)) :
    run refer owner n stage (.text s :: rest)
      = ⟨(stage.step refer owner (n + 1) (Text.trim s.toList)).events
          ++ (run refer owner (n + 1) next rest).events,
        (run refer owner (n + 1) next rest).outcome⟩ :=
  Traced.bind_of_ok h _

end Stage

end PlcTypes
