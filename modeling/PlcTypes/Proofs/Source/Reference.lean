import PlcTypes.Proofs.Trace
import PlcTypes.Source.Stage

/-! # Lines that refer

    What references mean is asked for by one kind of line only: a declaration
    among the members, with a valid name, whose form is a reference.  On such
    a line a step of the reader is the question, followed by putting the
    answer into the tree; on every other line it is the same whatever
    references mean. -/

namespace PlcTypes

open Grammar

/-- A field that refers to a definition. -/
structure Reference where
  field : String
  target : String
  comment : String

/-- The members after a reference to a definition. -/
def Members.graft (ms : Members) (r : Reference) (t : TypeDefinition) : Members :=
  ms.add (t.graft r.field r.comment)

namespace Stage

/-- The version and the members before a reference, and the reference, if the
    trimmed line `cs` makes one. -/
def reference? (cs : List Char) : Stage → Option (String × Members × Reference)
  | members v ms =>
      match BodyLine.ofText cs with
      | .declaration d =>
          match nameOf d.name, d.spec with
          | .ok name, .reference target => some (v, ms, ⟨name, target, d.comment⟩)
          | _, _ => none
      | _ => none
  | _ => none

variable {n : Nat} {cs : List Char} {stage : Stage} {owner : String}

/-- A line that makes a reference is a declaration among the members. -/
theorem of_reference? {v : String} {ms : Members} {r : Reference}
    (h : stage.reference? cs = some (v, ms, r)) :
    stage = .members v ms ∧ ∃ d, BodyLine.ofText cs = .declaration d ∧
      nameOf d.name = .ok r.field ∧ d.spec = .reference r.target ∧ r.comment = d.comment := by
  cases stage with
  | metadata | version | opening v' | footer v' fs => exact nomatch h
  | members v' ms' =>
      rw [reference?] at h
      cases hline : BodyLine.ofText cs with
      | blank | remark | closing | malformed =>
          rw [hline] at h
          exact nomatch h
      | declaration d =>
          rw [hline] at h
          dsimp only at h
          split at h
          · next name target hname hspec =>
              obtain ⟨rfl, rfl, rfl⟩ := by simpa using h
              exact ⟨rfl, d, rfl, hname, hspec, rfl⟩
          · exact nomatch h

/-- A line that makes a reference asks for it and takes in the answer. -/
theorem step_of_reference? {v : String} {ms : Members} {r : Reference}
    (h : stage.reference? cs = some (v, ms, r))
    (refer : String → String → Traced TypeDefinition) :
    stage.step refer owner n cs
      = refer r.field r.target >>= fun t => pure (.more (.members v (ms.graft r t))) := by
  obtain ⟨rfl, d, hline, hname, hspec, hcomment⟩ := of_reference? h
  rw [step, hline]
  dsimp only
  unfold declare
  rw [hname, Traced.lift_ok, pure_bind, hspec]
  dsimp only
  rw [bind_assoc]
  simp only [pure_bind, Members.graft, hcomment]

/-- A line that makes no reference does not depend on what references mean. -/
theorem step_of_no_reference (h : stage.reference? cs = none)
    (refer refer' : String → String → Traced TypeDefinition) :
    stage.step refer owner n cs = stage.step refer' owner n cs := by
  cases stage with
  | metadata | version | opening v | footer v fs => rfl
  | members v ms =>
      rw [reference?] at h
      cases hline : BodyLine.ofText cs with
      | blank | remark | closing | malformed =>
          rw [step, step, hline]
      | declaration d =>
          rw [hline] at h
          dsimp only at h
          rw [step, step, hline]
          dsimp only
          unfold declare
          cases hname : nameOf d.name with
          | error e => rfl
          | ok name =>
              cases hspec : d.spec with
              | struct | plain spec => rfl
              | reference target =>
                  -- this would be a reference with a valid name
                  rw [hname, hspec] at h
                  exact nomatch h

end Stage

end PlcTypes
