import PlcTypes.Proofs.Field.WellFormed
import PlcTypes.Proofs.Trace
import PlcTypes.Source.Definition

/-! # The three ways to read a source

    A source has no heading, a heading whose name is met already, or a heading
    with a new name, under which the definition is read.  For each there is
    one equation.  The definition has the name of its heading. -/

namespace PlcTypes

open Text

/-- A heading has a valid name, and stands on a line of the source before what
    follows it. -/
theorem Heading.exists_line_of_find {n : Nat} {lines : List Line} {h : Heading}
    (hfound : Heading.find n lines = .ok h) :
    IsNameText h.name ∧ ∃ s, Line.text s :: h.rest <:+ lines := by
  induction lines generalizing n with
  | nil => exact nomatch hfound
  | cons line rest ih =>
      cases line with
      | unreadable fault => exact nomatch hfound
      | text s =>
          rw [Heading.find] at hfound
          split at hfound
          · obtain ⟨hname, s', hsuffix⟩ := ih hfound
            exact ⟨hname, s', hsuffix.trans (List.suffix_cons _ rest)⟩
          · unfold Heading.ofText at hfound
            dsimp only at hfound
            split at hfound
            · exact nomatch hfound
            · obtain ⟨name, hname, hfound⟩ := bind_eq_ok.mp hfound
              obtain rfl := Except.ok.inj hfound
              exact ⟨isNameText_of_nameOf hname, s, List.suffix_refl _⟩

/-- What follows a heading is an end of the source. -/
theorem Heading.rest_suffix {n : Nat} {lines : List Line} {h : Heading}
    (hfound : Heading.find n lines = .ok h) : h.rest <:+ lines := by
  obtain ⟨-, s, hsuffix⟩ := Heading.exists_line_of_find hfound
  exact (List.suffix_cons _ h.rest).trans hsuffix

/-- A definition has the name of its heading. -/
theorem Heading.name_of_definition {h : Heading} (hname : IsNameText h.name)
    {refer : String → String → Traced TypeDefinition} {t : TypeDefinition}
    (ht : (h.definition refer).outcome = .ok t) : t.name = h.name := by
  obtain ⟨⟨v, fs⟩, -, ht⟩ := Traced.outcome_bind_eq_ok.mp ht
  obtain ⟨u, hu, ht⟩ := Traced.outcome_bind_eq_ok.mp ht
  obtain rfl := Except.ok.inj ht
  obtain ⟨stored, hstored, -, rfl⟩ := TypeDefinition.create_eq_ok.mp hu
  rw [hname.nameOf_eq] at hstored
  exact (Except.ok.inj hstored).symm

namespace TypeDefinition

variable {within : List String} {lines : List Line}
  {refer : (h : Heading) → Heading.find 0 lines = .ok h →
    isWithin within h.name = false → String → String → Traced TypeDefinition}

/-- Without a heading nothing is read. -/
theorem ofLines_of_no_heading {e : Error} (hnone : Heading.find 0 lines = .error e) :
    ofLines within lines refer = Traced.fail e := by
  unfold ofLines
  split
  · next e' hfailed =>
      rw [hnone] at hfailed
      obtain rfl := Except.error.inj hfailed
      rfl
  · next h hfound =>
      rw [hnone] at hfound
      exact nomatch hfound

/-- Under a heading whose name is met already nothing is read. -/
theorem ofLines_of_met {h : Heading} (hfound : Heading.find 0 lines = .ok h)
    (hmet : isWithin within h.name = true) :
    ofLines within lines refer = Traced.fail (.cyclicReference within h.name) := by
  unfold ofLines
  split
  · next e hfailed =>
      rw [hfailed] at hfound
      exact nomatch hfound
  · next h' hfound' =>
      rw [hfound] at hfound'
      obtain rfl := Except.ok.inj hfound'
      rw [dif_neg (by simp [hmet])]

/-- A definition that is read from lines stands under a heading with a new
    name. -/
theorem outcome_ofLines_eq_ok {t : TypeDefinition}
    (ht : (ofLines within lines refer).outcome = .ok t) :
    ∃ h, ∃ (hfound : Heading.find 0 lines = .ok h) (hnew : isWithin within h.name = false),
      (h.definition (refer h hfound hnew)).outcome = .ok t := by
  unfold ofLines at ht
  split at ht
  · exact nomatch ht
  · next h hfound =>
      split at ht
      · next hnew =>
          obtain ⟨-, -, ht⟩ := Traced.outcome_bind_eq_ok.mp ht
          exact ⟨h, hfound, hnew, ht⟩
      · exact nomatch ht

/-- The name of a definition that is read is not met already. -/
theorem isWithin_of_ofLines {t : TypeDefinition}
    (ht : (ofLines within lines refer).outcome = .ok t) : isWithin within t.name = false := by
  obtain ⟨h, hfound, hnew, ht⟩ := outcome_ofLines_eq_ok ht
  rw [Heading.name_of_definition (Heading.exists_line_of_find hfound).1 ht]
  exact hnew

end TypeDefinition

end PlcTypes
