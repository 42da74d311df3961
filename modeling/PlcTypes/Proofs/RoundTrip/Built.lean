import PlcTypes.Proofs.Field.Built
import PlcTypes.Proofs.RoundTrip.Definition
import PlcTypes.Source.Load

/-! # Round trip of built definitions

    What is written for a built definition is read back as that definition.
    All its comments are on one line, so nothing is left to settle. -/

namespace PlcTypes

open Text

/-- The index before the stop is a 64-bit number, unless the stop is the least of
    them. -/
theorem Field.hasLast_of_stop {f : Field} (h : f.IsWellFormed)
    (hstop : ∀ a, f = .array a → a.stop ≠ -9223372036854775808) : f.HasLast := by
  rintro a rfl
  have hindex := ArrayField.IsWellFormed.stop h
  have hne := hstop a rfl
  unfold isIndex at hindex ⊢
  rw [Bool.and_eq_true, decide_eq_true_eq, decide_eq_true_eq] at hindex ⊢
  omega

/-- **ROUND TRIP OF BUILT DEFINITIONS**: a built definition, no array of which
    stops at the least index, is read back from what is written for it, with
    any files and any reference directory.  Nothing is warned of, and no
    reference is looked up: whatever references may mean, reading is the
    same. -/
theorem readText_render_of_built {t : TypeDefinition} (h : t.Built)
    (hstop : ∀ a, .array a ∈ t.nodes → a.stop ≠ -9223372036854775808)
    (fs : FileSystem) (dir : Path) :
    (fs.readText t.render dir).outcome = .ok t ∧
      (∀ e ∈ (fs.readText t.render dir).events, e.level ≠ .warn) ∧
      ∀ refer : Heading → String → String → Traced TypeDefinition,
        TypeDefinition.ofLines [] (linesOfText t.render) (fun h _ _ => refer h)
          = fs.readText t.render dir := by
  obtain ⟨hwf, hcomments⟩ := h.isStored
  have hlast : ∀ f ∈ t.nodes, f.HasLast := by
    intro f hf
    refine Field.hasLast_of_stop (hwf.members f hf) ?_
    rintro a rfl
    exact hstop a hf
  have hread : fs.readText t.render dir = ⟨[.begun t.name []], .ok t.settled⟩ :=
    TypeDefinition.ofLines_render hwf hlast rfl _
  refine ⟨?_, ?_, ?_⟩
  · rw [hread, TypeDefinition.settled_eq_self hcomments]
  · intro e he
    rw [hread, List.mem_singleton] at he
    rw [he]
    exact Level.noConfusion
  · -- other meanings of references give the same, so none is asked for
    intro refer
    rw [hread]
    exact TypeDefinition.ofLines_render hwf hlast rfl _

/-- A definition with a comment that was two lines, a quoted name, a default
    and a negative range. -/
def motor : TypeDefinition where
  name := "Motor"
  version := "0.1"
  comment := "drive 1"
  members :=
    [.struct "speed // set" "in rpm" [.scalar ⟨"k:v", "", .int, some "-7"⟩],
     .array ⟨"flags", "", .bool, -2, 3, none⟩]

/-- The motor can be made, one part after another. -/
theorem built_motor : motor.Built := by
  have hcreate : ScalarField.create " k:v" .int = .ok ⟨"k:v", "", .int, none⟩ := by decide
  have hdefault : ScalarField.withDefault ⟨"k:v", "", .int, none⟩ "-7 "
      = .ok ⟨"k:v", "", .int, some "-7"⟩ := by decide
  have hscalar : Field.Built (.scalar ⟨"k:v", "", .int, some "-7"⟩) :=
    .scalar (.withDefault (.create hcreate) hdefault)
  have hempty : Field.createStruct "speed // set" [.scalar ⟨"k:v", "", .int, some "-7"⟩]
      = .ok (.struct "speed // set" "" [.scalar ⟨"k:v", "", .int, some "-7"⟩]) := rfl
  have hstruct :
      Field.Built (.struct "speed // set" "in rpm" [.scalar ⟨"k:v", "", .int, some "-7"⟩]) :=
    .withComment "in rpm" (.struct (List.forall_mem_singleton.mpr hscalar) hempty)
  have hrange : ArrayField.create "flags" .bool (.included (-2)) (.excluded 3)
      = .ok ⟨"flags", "", .bool, -2, 3, none⟩ := by decide
  have harray : Field.Built (.array ⟨"flags", "", .bool, -2, 3, none⟩) := .array (.create hrange)
  have hmembers : ∀ m ∈ motor.members, m.Built :=
    List.forall_mem_cons.mpr ⟨hstruct, List.forall_mem_singleton.mpr harray⟩
  have hbare : TypeDefinition.create "Motor" "v0.1" motor.members
      = .ok { motor with comment := "" } := rfl
  exact .withComment "drive\r\n1" (.create hmembers hbare)

theorem readText_render_motor :
    (motor.Built ∧ ∀ a, .array a ∈ motor.nodes → a.stop ≠ -9223372036854775808) ∧
      ∀ fs dir, (FileSystem.readText fs motor.render dir).outcome = .ok motor := by
  have hstop : ∀ a, .array a ∈ motor.nodes → a.stop ≠ -9223372036854775808 := by
    intro a ha
    simp [motor, TypeDefinition.nodes, Field.nodesAll, Field.nodes] at ha
    rw [ha]
    decide
  exact ⟨⟨built_motor, hstop⟩, fun fs dir =>
    (readText_render_of_built built_motor hstop fs dir).1⟩

end PlcTypes
