import PlcTypes.Proofs.Field.WellFormed
import PlcTypes.Source.Member

/-! # Names of fields

    Whatever else is said of a field when it is made, its name is the stored
    form of the name that it is made with; a comment and a default leave the
    name as it is. -/

namespace PlcTypes

/-- A scalar gets the stored form of its name. -/
theorem ScalarField.name_of_create {name : String} {type : ScalarType} {f : ScalarField}
    (h : create name type = .ok f) : nameOf name = .ok f.name := by
  obtain ⟨stored, hstored, h⟩ := bind_eq_ok.mp h
  obtain ⟨-, -, h⟩ := bind_eq_ok.mp h
  obtain rfl := Except.ok.inj h
  exact hstored

/-- A string field gets the stored form of its name. -/
theorem TextField.name_of_create {name : String} {capacity : Nat} {f : TextField}
    (h : create name capacity = .ok f) : nameOf name = .ok f.name := by
  obtain ⟨stored, hstored, h⟩ := bind_eq_ok.mp h
  dsimp only at h
  split at h
  · exact nomatch h
  · obtain rfl := Except.ok.inj h
    exact hstored

theorem ArrayField.name_of_create {name : String} {element : ScalarType} {low high : Bound}
    {f : ArrayField} (h : create name element low high = .ok f) : nameOf name = .ok f.name :=
  (create_eq_ok.mp h).stored

/-- A field without members has the name of its declaration. -/
theorem Grammar.PlainSpec.name_of_field {spec : PlainSpec} {name comment : String} {f : Field}
    (h : spec.field name comment = .ok f) : nameOf name = .ok f.name ∧ f.isPlain = true := by
  cases spec with
  | array range element initial =>
      obtain ⟨⟨first, last⟩, -, h⟩ := bind_eq_ok.mp h
      obtain ⟨type, -, h⟩ := bind_eq_ok.mp h
      obtain ⟨a, ha, h⟩ := bind_eq_ok.mp h
      obtain ⟨b, hb, h⟩ := bind_eq_ok.mp h
      obtain rfl := Except.ok.inj h
      obtain ⟨value, -, hb⟩ := bind_eq_ok.mp hb
      obtain rfl := Except.ok.inj hb
      have hname := ArrayField.name_of_create ha
      exact ⟨hname, rfl⟩
  | text length =>
      obtain ⟨capacity, -, h⟩ := bind_eq_ok.mp h
      obtain ⟨a, ha, h⟩ := bind_eq_ok.mp h
      obtain rfl := Except.ok.inj h
      have hname := TextField.name_of_create ha
      exact ⟨hname, rfl⟩
  | scalar type initial =>
      obtain ⟨type', -, h⟩ := bind_eq_ok.mp h
      obtain ⟨a, ha, h⟩ := bind_eq_ok.mp h
      obtain ⟨b, hb, h⟩ := bind_eq_ok.mp h
      obtain rfl := Except.ok.inj h
      obtain ⟨value, -, hb⟩ := bind_eq_ok.mp hb
      obtain rfl := Except.ok.inj hb
      have hname := ScalarField.name_of_create ha
      exact ⟨hname, rfl⟩

end PlcTypes
