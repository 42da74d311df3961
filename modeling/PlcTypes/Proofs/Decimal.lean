import PlcTypes.Decimal
import PlcTypes.Proofs.Name

/-! # Written numbers are read back

    The decimal text of a number consists of digits, at least one, perhaps
    after a minus sign; reading it gives the number.  So such a text is
    trimmed, and holds none of the marks that stand around numbers.

    Numbers are also read from other spellings, with zeros in front and with a
    plus sign. -/

namespace PlcTypes.Decimal

open Text

/-! ## The characters of a number -/

/-- The characters that a written number consists of. -/
def IsNumeral (cs : List Char) : Prop :=
  cs ≠ [] ∧ ∀ c ∈ cs, c.isDigit = true ∨ c = '-'

theorem toList_ofNat (n : Nat) : (ofNat n).toList = Nat.toDigits 10 n :=
  String.toList_ofList

theorem isDigit_of_mem_ofNat {n : Nat} {c : Char} (h : c ∈ (ofNat n).toList) :
    c.isDigit = true := by
  rw [toList_ofNat] at h
  exact Nat.isDigit_of_mem_toDigits (by decide) (by decide) h

/-- A natural number is written as a numeral. -/
theorem isNumeral_ofNat (n : Nat) : IsNumeral (ofNat n).toList := by
  constructor
  · rw [toList_ofNat]
    exact Nat.toDigits_ne_nil
  · intro c hc
    exact Or.inl (isDigit_of_mem_ofNat hc)

/-- An integer is written as a numeral, with a minus sign if it needs one. -/
theorem isNumeral_ofInt (n : Int) : IsNumeral (ofInt n).toList := by
  unfold ofInt
  by_cases hn : n < 0
  · rw [if_pos hn, String.toList_append]
    constructor
    · simp
    · intro c hc
      rcases List.mem_append.mp hc with hc | hc
      · exact Or.inr (by simpa using hc)
      · exact Or.inl (isDigit_of_mem_ofNat hc)
  · rw [if_neg hn]
    exact isNumeral_ofNat _

/-- There is no blank in a numeral. -/
theorem IsNumeral.isBlank_eq {cs : List Char} (h : IsNumeral cs) {c : Char} (hc : c ∈ cs) :
    isBlank c = false := by
  rcases h.2 c hc with hd | rfl
  · exact isBlank_of_isDigit hd
  · decide

theorem IsNumeral.isTrimmed {cs : List Char} (h : IsNumeral cs) : IsTrimmed cs :=
  isTrimmed_of_blankless fun _ hc => h.isBlank_eq hc

/-- A mark that is neither a digit nor a minus sign does not occur. -/
theorem IsNumeral.not_mem {cs : List Char} (h : IsNumeral cs) {m : Char}
    (hd : m.isDigit = false) (hm : m ≠ '-') : m ∉ cs := by
  intro hc
  rcases h.2 m hc with hd' | hm'
  · rw [hd] at hd'
    exact absurd hd' Bool.false_ne_true
  · exact hm hm'

/-! ## Reading -/

/-- The digits that are written for a number give the number. -/
theorem digits?_ofNat (n : Nat) : digits? (ofNat n).toList = some n := by
  unfold digits?
  rw [if_neg]
  · rw [toList_ofNat, Nat.ofDigitChars_ten_toDigits]
  · rw [Bool.or_eq_true, not_or]
    constructor
    · simpa using (isNumeral_ofNat n).1
    · rw [Bool.not_eq_true', Bool.not_eq_false, List.all_eq_true]
      exact fun c hc => isDigit_of_mem_ofNat hc

/-- A written natural number is read back. -/
theorem nat?_ofNat (n : Nat) : nat? (ofNat n).toList = some n := by
  unfold nat?
  split
  · -- no written number starts with a plus sign
    next cs hcs =>
      have : '+'.isDigit = true := isDigit_of_mem_ofNat (n := n) (by rw [hcs]; simp)
      exact absurd this (by decide)
  · exact digits?_ofNat n

/-- A written integer is read back. -/
theorem int?_ofInt (n : Int) : int? (ofInt n).toList = some n := by
  unfold ofInt
  by_cases hn : n < 0
  · rw [if_pos hn, String.toList_append, show "-".toList = ['-'] from rfl]
    rw [List.singleton_append, int?, digits?_ofNat]
    show some (-(n.natAbs : Int)) = some n
    exact congrArg some (by omega)
  · rw [if_neg hn]
    have habs : (n.natAbs : Int) = n := by omega
    unfold int?
    split
    · next cs hcs =>
        have : '-'.isDigit = true :=
          isDigit_of_mem_ofNat (n := n.natAbs) (by rw [hcs]; simp)
        exact absurd this (by decide)
    · rw [nat?_ofNat, Option.map_some]
      exact congrArg some habs

/-- Different integers have different texts. -/
theorem ofInt_injective : Function.Injective ofInt := by
  intro m n h
  have hread : int? (ofInt m).toList = int? (ofInt n).toList := by rw [h]
  rw [int?_ofInt, int?_ofInt] at hread
  exact Option.some.inj hread

/-! ## Other spellings -/

/-- The digits of a number behind some zeros. -/
def padded (zeros n : Nat) : List Char :=
  List.replicate zeros '0' ++ (ofNat n).toList

/-- How a natural number may be spelled: behind a plus sign or none, and with zeros
    in front. -/
inductive SpellsNat (n : Nat) : List Char → Prop
  | plain (zeros : Nat) : SpellsNat n (padded zeros n)
  | plus (zeros : Nat) : SpellsNat n ('+' :: padded zeros n)

/-- How an integer may be spelled: as a natural number, or behind a minus sign. -/
inductive SpellsInt : Int → List Char → Prop
  | nat {n : Nat} {cs : List Char} (h : SpellsNat n cs) : SpellsInt n cs
  | minus (n zeros : Nat) : SpellsInt (-n) ('-' :: padded zeros n)

/-- Zeros in front are digits as well. -/
theorem isDigit_of_mem_padded {zeros n : Nat} {c : Char} (h : c ∈ padded zeros n) :
    c.isDigit = true := by
  rcases List.mem_append.mp h with h | h
  · rw [List.eq_of_mem_replicate h]
    rfl
  · exact isDigit_of_mem_ofNat h

theorem padded_ne_nil {zeros n : Nat} : padded zeros n ≠ [] :=
  fun hnil => (isNumeral_ofNat n).1 (List.append_eq_nil_iff.mp hnil).2

/-- Zeros in front do not count. -/
theorem digits?_padded (zeros n : Nat) : digits? (padded zeros n) = some n := by
  have hzeros : Nat.ofDigitChars 10 (List.replicate zeros '0') 0 = 0 := by
    induction zeros with
    | zero => rfl
    | succ zeros ih =>
        rw [List.replicate_succ]
        exact ih
  have hnumber : Nat.ofDigitChars 10 (padded zeros n) 0 = n := by
    rw [padded, Nat.ofDigitChars_append, hzeros, toList_ofNat, Nat.ofDigitChars_ten_toDigits]
  rw [digits?, if_neg, hnumber]
  rw [Bool.or_eq_true, not_or, List.isEmpty_iff, Bool.not_eq_true', Bool.not_eq_false,
    List.all_eq_true]
  exact ⟨padded_ne_nil, fun c hc => isDigit_of_mem_padded hc⟩

/-- Without a plus sign in front only the digits count. -/
theorem nat?_of_isDigit {cs : List Char} (h : ∀ c, cs.head? = some c → c.isDigit = true) :
    nat? cs = digits? cs := by
  rw [nat?]
  rintro ds rfl
  exact absurd (h '+' rfl) (by decide)

theorem head_padded {zeros n : Nat} {c : Char} (h : (padded zeros n).head? = some c) :
    c.isDigit = true :=
  isDigit_of_mem_padded (List.mem_of_head? h)

/-- A natural number is read however it is spelled. -/
theorem SpellsNat.nat?_eq {n : Nat} {cs : List Char} (h : SpellsNat n cs) : nat? cs = some n := by
  cases h with
  | plain zeros => rw [nat?_of_isDigit fun c hc => head_padded hc, digits?_padded]
  | plus zeros => exact digits?_padded zeros n

/-- An integer is read however it is spelled. -/
theorem SpellsInt.int?_eq {i : Int} {cs : List Char} (h : SpellsInt i cs) : int? cs = some i := by
  cases h with
  | nat h =>
      rw [int?, h.nat?_eq]
      · rfl
      · rintro ds rfl
        -- no natural number is spelled behind a minus sign
        generalize hcs : '-' :: ds = cs at h
        cases h with
        | plain zeros =>
            have hhead : (padded zeros _).head? = some '-' := congrArg List.head? hcs.symm
            exact absurd (head_padded hhead) (by decide)
        | plus zeros => exact absurd (List.cons.inj hcs).1 (by decide)
  | minus n zeros =>
      rw [int?, digits?_padded]
      rfl

/-- A number is spelled in digits and signs. -/
theorem SpellsInt.chars {i : Int} {cs : List Char} (h : SpellsInt i cs) :
    cs ≠ [] ∧ ∀ c ∈ cs, c.isDigit = true ∨ c = '+' ∨ c = '-' := by
  cases h with
  | nat h =>
      cases h with
      | plain zeros =>
          exact ⟨padded_ne_nil, fun c hc => Or.inl (isDigit_of_mem_padded hc)⟩
      | plus zeros =>
          refine ⟨List.cons_ne_nil _ _, List.forall_mem_cons.mpr ⟨by decide, fun c hc => ?_⟩⟩
          exact Or.inl (isDigit_of_mem_padded hc)
  | minus n zeros =>
      refine ⟨List.cons_ne_nil _ _, List.forall_mem_cons.mpr ⟨by decide, fun c hc => ?_⟩⟩
      exact Or.inl (isDigit_of_mem_padded hc)

/-- There is no blank in a number, however it is spelled. -/
theorem SpellsInt.isBlank_eq {i : Int} {cs : List Char} (h : SpellsInt i cs) {c : Char}
    (hc : c ∈ cs) : isBlank c = false := by
  rcases h.chars.2 c hc with hd | rfl | rfl
  · exact isBlank_of_isDigit hd
  · decide
  · decide

/-- A number that is spelled in any way is trimmed. -/
theorem SpellsInt.isTrimmed {i : Int} {cs : List Char} (h : SpellsInt i cs) : IsTrimmed cs :=
  isTrimmed_of_blankless fun _ hc => h.isBlank_eq hc

/-- A mark that is neither a digit nor a sign does not occur. -/
theorem SpellsInt.not_mem {i : Int} {cs : List Char} (h : SpellsInt i cs) {m : Char}
    (hd : m.isDigit = false) (hplus : m ≠ '+') (hminus : m ≠ '-') : m ∉ cs := by
  intro hm
  rcases h.chars.2 m hm with hd' | hplus' | hminus'
  · rw [hd] at hd'
    exact Bool.noConfusion hd'
  · exact hplus hplus'
  · exact hminus hminus'

end PlcTypes.Decimal
