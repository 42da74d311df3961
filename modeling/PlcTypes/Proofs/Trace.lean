import PlcTypes.Trace

/-! # Outcomes and events of a sequence

    A sequence of steps succeeds when each step does; its events are those of
    the steps, one after the other, up to the first that fails.

    One sequence follows another when it gives the same result wherever the
    other succeeds, certain errors apart.  A result carries over when the other
    sequence succeeds, too, with a result that is related to it.  Both are kept
    by putting sequences together, and so is being the same unless it ends with a
    certain error. -/

namespace PlcTypes.Traced

variable {α β : Type}

@[simp] theorem outcome_lift (r : Except Error α) : (lift r).outcome = r := rfl

/-- After a success the events of the next step are added, and its outcome counts.
    -/
theorem bind_of_ok {x : Traced α} {a : α} (h : x.outcome = .ok a) (f : α → Traced β) :
    x >>= f = ⟨x.events ++ (f a).events, (f a).outcome⟩ := by
  show x.bind f = _
  unfold bind
  rw [h]

/-- After a failure nothing happens any more. -/
theorem bind_of_error {x : Traced α} {e : Error} (h : x.outcome = .error e)
    (f : α → Traced β) : x >>= f = ⟨x.events, .error e⟩ := by
  show x.bind f = _
  unfold bind
  rw [h]

/-- A sequence of two steps succeeds when both do. -/
theorem outcome_bind_eq_ok {x : Traced α} {f : α → Traced β} {b : β} :
    (x >>= f).outcome = .ok b ↔ ∃ a, x.outcome = .ok a ∧ (f a).outcome = .ok b := by
  cases hx : x.outcome with
  | error e =>
      rw [bind_of_error hx]
      simp
  | ok a =>
      rw [bind_of_ok hx]
      simp

/-! ## Relations that are kept -/

/-- A relation that holds between every sequence and itself, and is kept by putting
    sequences together. -/
structure IsCongruence (R : ∀ {α : Type}, Traced α → Traced α → Prop) : Prop where
  refl : ∀ {α : Type} (x : Traced α), R x x
  bind : ∀ {α β : Type} {x y : Traced α} {f g : α → Traced β}, R x y →
    (∀ a, R (f a) (g a)) → R (x >>= f) (y >>= g)

theorem isCongruence_eq : IsCongruence Eq where
  refl _ := rfl
  bind := by
    rintro α β x _ f g rfl hfg
    rw [funext hfg]

/-- `y` is the same as `x`, or ends with a certain error. -/
def SameUnless (e : Error) (x y : Traced α) : Prop :=
  y = x ∨ y.outcome = .error e

/-- Sequences stay the same up to a step that ends with the error, which ends the
    whole sequence. -/
theorem isCongruence_sameUnless (e : Error) : IsCongruence (SameUnless e) where
  refl _ := Or.inl rfl
  bind := by
    rintro α β x y f g (rfl | hy) hfg
    · cases hy : y.outcome with
      | error e' =>
          left
          rw [bind_of_error hy, bind_of_error hy]
      | ok a =>
          rw [bind_of_ok hy, bind_of_ok hy]
          refine (hfg a).imp ?_ ?_
          · intro hsame
            rw [hsame]
          · intro hends
            exact hends
    · right
      rw [bind_of_error hy]

/-! ## Following -/

/-- Where `x` succeeds, `y` gives the same result, or an error for which
    `excused` holds. -/
def FollowedBy (excused : Error → Prop) (x y : Traced α) : Prop :=
  ∀ a, x.outcome = .ok a → y.outcome = .ok a ∨ ∃ e, y.outcome = .error e ∧ excused e

variable {excused : Error → Prop}

theorem FollowedBy.refl (x : Traced α) : FollowedBy excused x x :=
  fun _ ha => Or.inl ha

/-- A failure is followed by anything. -/
theorem followedBy_fail (e : Error) (y : Traced α) : FollowedBy excused (fail e) y :=
  fun _ ha => nomatch ha

/-- A sequence is followed by one whose steps follow its own. -/
theorem FollowedBy.bind {x y : Traced α} {f g : α → Traced β} (hxy : FollowedBy excused x y)
    (hfg : ∀ a, FollowedBy excused (f a) (g a)) :
    FollowedBy excused (x >>= f) (y >>= g) := by
  intro b hb
  obtain ⟨a, ha, hb⟩ := outcome_bind_eq_ok.mp hb
  rcases hxy a ha with hy | ⟨e, hy, he⟩
  · rw [bind_of_ok hy]
    exact hfg a b hb
  · rw [bind_of_error hy]
    exact Or.inr ⟨e, rfl, he⟩

/-- Following is kept by putting sequences together. -/
theorem isCongruence_followedBy (excused : Error → Prop) : IsCongruence (FollowedBy excused) :=
  ⟨FollowedBy.refl, FollowedBy.bind⟩

/-! ## Carrying over -/

/-- Where `x` succeeds, `y` succeeds with a related result. -/
def CarriesOver (R : α → β → Prop) (x : Traced α) (y : Traced β) : Prop :=
  ∀ a, x.outcome = .ok a → ∃ b, y.outcome = .ok b ∧ R a b

variable {γ δ : Type} {R : α → γ → Prop} {S : β → δ → Prop}

theorem CarriesOver.refl (x : Traced α) : CarriesOver Eq x x :=
  fun a ha => ⟨a, ha, rfl⟩

/-- A failure carries over to anything. -/
theorem carriesOver_fail (e : Error) (y : Traced γ) : CarriesOver R (fail e) y :=
  fun _ ha => nomatch ha

/-- Results that are related carry over. -/
theorem carriesOver_pure {a : α} {c : γ} (h : R a c) :
    CarriesOver R (pure a : Traced α) (pure c : Traced γ) := by
  intro b hb
  obtain rfl := Except.ok.inj hb
  exact ⟨c, rfl, h⟩

/-- A sequence carries over to one whose steps are carried over to. -/
theorem CarriesOver.bind {x : Traced α} {y : Traced γ} {f : α → Traced β} {g : γ → Traced δ}
    (hxy : CarriesOver R x y) (hfg : ∀ a c, R a c → CarriesOver S (f a) (g c)) :
    CarriesOver S (x >>= f) (y >>= g) := by
  intro b hb
  obtain ⟨a, ha, hb⟩ := outcome_bind_eq_ok.mp hb
  obtain ⟨c, hc, hac⟩ := hxy a ha
  rw [bind_of_ok hc]
  exact hfg a c hac b hb

/-- After a common start only what follows must carry over. -/
theorem CarriesOver.bind_left (x : Traced α) {f : α → Traced β} {g : α → Traced δ}
    (hfg : ∀ a, CarriesOver S (f a) (g a)) : CarriesOver S (x >>= f) (x >>= g) := by
  refine (CarriesOver.refl x).bind fun a c hac => ?_
  obtain rfl := hac
  exact hfg a

end PlcTypes.Traced
