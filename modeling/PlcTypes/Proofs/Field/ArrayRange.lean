import Mathlib.Algebra.Group.Int.Defs
import Mathlib.Data.List.Iterate
import PlcTypes.Layout
import PlcTypes.Proofs.Field.Fault

/-! # Which ranges make an array

    An array is made from a name, a type and the two ends of its range.  Its
    first index and the index after its last are numbers that depend on the
    ends alone, and the range is accepted or refused by these two numbers,
    taken without a bound: both must be 64-bit numbers, they must be in order,
    and the elements between them must not take too many bytes.

    The numbers are meant without a bound, but they are computed in 64-bit
    words.  On every range this is the same: a step whose result could be no
    word is checked for it, and what is computed of an accepted range without
    such a check, its count and one index after the other, cannot leave the
    words.  When an array is refused, the error says what is wrong with it,
    the name first, then the type, then the range. -/

namespace PlcTypes

open Text

/-! ## The ends of a range -/

namespace Bound

/-- Whether the index at an end of a range is a 64-bit number. -/
def IsWord : Bound → Prop
  | included index | excluded index => isIndex index = true
  | unbounded => True

/-- The first index of a range that starts at a bound, as a number. -/
def first? : Bound → Option Int
  | included index => some index
  | excluded index => some (index + 1)
  | unbounded => none

/-- The index after the last of a range that ends at a bound, as a number. -/
def afterLast? : Bound → Option Int
  | included index => some (index + 1)
  | excluded index => some index
  | unbounded => none

/-- The bound that has its index on the other side: a range that ends at a
    bound stops where one that starts at the flipped bound begins. -/
def flip : Bound → Bound
  | included index => excluded index
  | excluded index => included index
  | unbounded => unbounded

theorem afterLast_eq (field : String) (b : Bound) : b.afterLast field = b.flip.first field := by
  cases b <;> rfl

theorem afterLast?_eq (b : Bound) : b.afterLast? = b.flip.first? := by
  cases b <;> rfl

theorem isWord_flip {b : Bound} : b.flip.IsWord ↔ b.IsWord := by
  cases b <;> rfl

/-- The start of a range is checked by its number. -/
theorem first_eq (field : String) (b : Bound) :
    b.first field = b.first?.elim (.error (.invalidRange none (.unbounded field)))
      (checkIndex field) := by
  cases b <;> rfl

end Bound

/-- Indices are the numbers that a signed word of 64 bits holds. -/
theorem isIndex_iff {n : Int} :
    isIndex n = true ↔ -9223372036854775808 ≤ n ∧ n ≤ 9223372036854775807 := by
  rw [isIndex, Bool.and_eq_true, decide_eq_true_iff, decide_eq_true_iff]

namespace Bound

/-- A range starts at a bound if the bound has a first number, and that is an
    index. -/
theorem first_eq_ok {field : String} {b : Bound} {n : Int} :
    b.first field = .ok n ↔ b.first? = some n ∧ isIndex n = true := by
  rw [first_eq]
  constructor
  · intro h
    cases hb : b.first? with
    | none =>
        rw [hb] at h
        exact nomatch h
    | some m =>
        rw [hb] at h
        obtain ⟨hindex, rfl⟩ := isIndex_of_checkIndex h
        exact ⟨rfl, hindex⟩
  · rintro ⟨hb, hindex⟩
    rw [hb]
    exact checkIndex_eq hindex field

/-- A range ends at a bound if there is a number after it, and that is an index. -/
theorem afterLast_eq_ok {field : String} {b : Bound} {n : Int} :
    b.afterLast field = .ok n ↔ b.afterLast? = some n ∧ isIndex n = true := by
  rw [afterLast_eq, afterLast?_eq, first_eq_ok]

/-- Of the numbers at an end only the greatest can be too great. -/
theorem isIndex_first? {b : Bound} (h : b.IsWord) {n : Int} (hn : b.first? = some n) :
    isIndex n = true ↔ n ≤ 2 ^ 63 - 1 := by
  have hleast : -9223372036854775808 ≤ n := by
    cases b with
    | included index =>
        obtain rfl := Option.some.inj hn
        exact (isIndex_iff.mp h).1
    | excluded index =>
        obtain rfl := Option.some.inj hn
        have := (isIndex_iff.mp h).1
        omega
    | unbounded => exact nomatch hn
  rw [isIndex_iff]
  omega

/-- The number after the last can only be too great, never too small. -/
theorem isIndex_afterLast? {b : Bound} (h : b.IsWord) {n : Int} (hn : b.afterLast? = some n) :
    isIndex n = true ↔ n ≤ 2 ^ 63 - 1 :=
  isIndex_first? (isWord_flip.mpr h) (b.afterLast?_eq ▸ hn)

end Bound

/-! ## Words -/

/-- A word holds a 64-bit number. -/
theorem toInt_ofInt_of_isIndex {n : Int} (h : isIndex n = true) : (Int64.ofInt n).toInt = n := by
  obtain ⟨hleast, hgreatest⟩ := isIndex_iff.mp h
  exact Int64.toInt_ofInt_of_le hleast (by omega)

/-- Words that wrap around leave a 64-bit number as it is. -/
theorem bmod_of_isIndex {n : Int} (h : isIndex n = true) : n.bmod (2 ^ 64) = n := by
  obtain ⟨hleast, hgreatest⟩ := isIndex_iff.mp h
  exact Int.bmod_eq_of_le (by omega) (by omega)

/-- Words are added as numbers if the sum is an index. -/
theorem toInt_add_of_isIndex {a b : Int64} (h : isIndex (a.toInt + b.toInt) = true) :
    (a + b).toInt = a.toInt + b.toInt := by
  rw [Int64.toInt_add]
  exact bmod_of_isIndex h

/-- Words are subtracted as numbers if the difference is an index. -/
theorem toInt_sub_of_isIndex {a b : Int64} (h : isIndex (a.toInt - b.toInt) = true) :
    (a - b).toInt = a.toInt - b.toInt := by
  rw [Int64.toInt_sub]
  exact bmod_of_isIndex h

/-- A word that is not negative is the same number without its sign. -/
theorem toNat_toUInt64 {w : Int64} (h : 0 ≤ w.toInt) : w.toUInt64.toNat = w.toInt.toNat :=
  Int64.toNat_toUInt64_of_le (Int64.le_iff_toInt_le.mpr h)

/-- Counting up from a word goes through the numbers that follow it, as long
    as they are 64-bit numbers. -/
theorem map_toInt_iterate (n : Nat) : ∀ w : Int64, isIndex (w.toInt + n) = true →
    (List.iterate (· + 1) w n).map Int64.toInt
      = (List.range n).map fun (k : Nat) => w.toInt + (k : Int) := by
  induction n with
  | zero => exact fun _ _ => rfl
  | succ n ih =>
      intro w h
      have hleast := w.le_toInt
      have hindex := (isIndex_iff.mp h).2
      have hnext : (w + 1).toInt = w.toInt + 1 := by
        refine toInt_add_of_isIndex (isIndex_iff.mpr ?_)
        show _ ≤ w.toInt + 1 ∧ w.toInt + 1 ≤ _
        omega
      have hrest : isIndex ((w + 1).toInt + n) = true := by
        rw [hnext]
        refine isIndex_iff.mpr ?_
        omega
      rw [List.iterate, List.map_cons, ih (w + 1) hrest, List.range_succ_eq_map, List.map_cons,
        List.map_map]
      refine congrArg₂ List.cons (by simp) (List.map_congr_left fun k _ => ?_)
      rw [hnext]
      show w.toInt + 1 + (k : Int) = w.toInt + ((k + 1 : Nat) : Int)
      omega

/-! ## The computation in words -/

namespace Word

/-- The sum of two words, unless it is no word. -/
def add? (a b : Int64) : Option Int64 :=
  if isIndex (a.toInt + b.toInt) then some (a + b) else none

/-- The difference of two words, unless it is no word. -/
def sub? (a b : Int64) : Option Int64 :=
  if isIndex (a.toInt - b.toInt) then some (a - b) else none

/-- A word without its sign, unless it is negative. -/
def unsigned? (w : Int64) : Option UInt64 :=
  if 0 ≤ w.toInt then some w.toUInt64 else none

/-- The product of two words without sign, unless it is no such word. -/
def mul? (a b : UInt64) : Option UInt64 :=
  if a.toNat * b.toNat < 2 ^ 64 then some (a * b) else none

/-- The word that a step results in, or the error that there is none. -/
def orOutOfRange (field : String) (result : Option Int64) : Except Error Int64 :=
  result.elim (.error (.invalidRange none (.outOfRange field))) .ok

/-- A checked step is the check of the number that is meant. -/
theorem map_toInt_add (field : String) (a b : Int64) :
    Int64.toInt <$> orOutOfRange field (add? a b) = checkIndex field (a.toInt + b.toInt) := by
  by_cases h : isIndex (a.toInt + b.toInt) = true
  · rw [add?, if_pos h, checkIndex_eq h, ← toInt_add_of_isIndex h]
    rfl
  · rw [add?, if_neg h, checkIndex, if_neg h]
    rfl

/-- A checked difference is the check of the number that is meant. -/
theorem map_toInt_sub (field : String) (a b : Int64) :
    Int64.toInt <$> orOutOfRange field (sub? a b) = checkIndex field (a.toInt - b.toInt) := by
  by_cases h : isIndex (a.toInt - b.toInt) = true
  · rw [sub?, if_pos h, checkIndex_eq h, ← toInt_sub_of_isIndex h]
    rfl
  · rw [sub?, if_neg h, checkIndex, if_neg h]
    rfl

/-- A checked product is there if the number that is meant fits in a word. -/
theorem map_toNat_mul? (a b : UInt64) :
    (mul? a b).map UInt64.toNat
      = if a.toNat * b.toNat < 2 ^ 64 then some (a.toNat * b.toNat) else none := by
  by_cases h : a.toNat * b.toNat < 2 ^ 64
  · rw [mul?, if_pos h, if_pos h, Option.map_some, UInt64.toNat_mul, Nat.mod_eq_of_lt h]
  · rw [mul?, if_neg h, if_neg h, Option.map_none]

end Word

namespace Bound

/-- The first index of a range, computed in words. -/
def firstInWords (field : String) : Bound → Except Error Int64
  | included index => .ok (Int64.ofInt index)
  | excluded index => Word.orOutOfRange field (Word.add? (Int64.ofInt index) 1)
  | unbounded => .error (.invalidRange none (.unbounded field))

/-- The index after the last of a range, computed in words. -/
def afterLastInWords (field : String) : Bound → Except Error Int64
  | included index => Word.orOutOfRange field (Word.add? (Int64.ofInt index) 1)
  | excluded index => .ok (Int64.ofInt index)
  | unbounded => .error (.invalidRange none (.unbounded field))

/-- In words a range starts where it starts in numbers. -/
theorem map_toInt_firstInWords {b : Bound} (h : b.IsWord) (field : String) :
    Int64.toInt <$> b.firstInWords field = b.first field := by
  cases b with
  | included index =>
      show Except.ok (Int64.ofInt index).toInt = checkIndex field index
      rw [toInt_ofInt_of_isIndex h, checkIndex_eq h]
  | excluded index =>
      show Int64.toInt <$> Word.orOutOfRange field (Word.add? (Int64.ofInt index) 1)
        = checkIndex field (index + 1)
      rw [Word.map_toInt_add, toInt_ofInt_of_isIndex h]
      rfl
  | unbounded => rfl

/-- In words a range ends where it ends in numbers. -/
theorem map_toInt_afterLastInWords {b : Bound} (h : b.IsWord) (field : String) :
    Int64.toInt <$> b.afterLastInWords field = b.afterLast field := by
  have hflip : b.afterLastInWords field = b.flip.firstInWords field := by
    cases b <;> rfl
  rw [hflip, afterLast_eq, map_toInt_firstInWords (isWord_flip.mpr h)]

end Bound

namespace ArrayField

/-- Whether so many elements of a type take too many bytes, computed in words
    without sign.  If there is no such word, they do. -/
def isTooLargeInWords (length : Int64) (element : ScalarType) : Bool :=
  ((Word.unsigned? length).bind fun n => Word.mul? n (UInt64.ofNat element.bytes)).elim true
    fun bytes => decide (UInt64.ofNat maxFieldBytes < bytes)

/-- The array with a name, a type of element and the two ends of its range,
    computed in words. -/
def createInWords (name : String) (element : ScalarType) (low high : Bound) :
    Except Error ArrayField := do
  let name ← nameOf name
  requireSized element name
  let start ← low.firstInWords name
  let stop ← high.afterLastInWords name
  let length ← Word.orOutOfRange name (Word.sub? stop start)
  if length < 0 then
    throw (.invalidRange none (.reversed name))
  if isTooLargeInWords length element then
    throw (.invalidRange none (.tooManyElements name length.toInt.toNat element))
  return { name, comment := "", element, start := start.toInt, stop := stop.toInt, initial := none }

theorem toNat_ofNat_bytes (element : ScalarType) :
    (UInt64.ofNat element.bytes).toNat = element.bytes := by
  cases element <;> decide

/-- In words an array is too large exactly if it is in numbers. -/
theorem isTooLargeInWords_eq {length : Int64} (h : 0 ≤ length.toInt) (element : ScalarType) :
    isTooLargeInWords length element
      = decide (length.toInt.toNat * element.bytes > maxFieldBytes) := by
  have hproduct := Word.map_toNat_mul? length.toUInt64 (UInt64.ofNat element.bytes)
  rw [toNat_toUInt64 h, toNat_ofNat_bytes] at hproduct
  rw [isTooLargeInWords, Word.unsigned?, if_pos h, Option.bind_some]
  cases hbytes : Word.mul? length.toUInt64 (UInt64.ofNat element.bytes) with
  | none =>
      -- a product that is no word is greater than all sizes that are allowed
      rw [hbytes, Option.map_none] at hproduct
      have hmax : maxFieldBytes < 2 ^ 64 := by decide
      by_cases hfits : length.toInt.toNat * element.bytes < 2 ^ 64
      · rw [if_pos hfits] at hproduct
        exact nomatch hproduct
      · exact (decide_eq_true (hmax.trans_le (Nat.le_of_not_lt hfits))).symm
  | some bytes =>
      rw [hbytes, Option.map_some] at hproduct
      by_cases hfits : length.toInt.toNat * element.bytes < 2 ^ 64
      · rw [if_pos hfits] at hproduct
        rw [← Option.some.inj hproduct]
        exact decide_eq_decide.mpr UInt64.lt_iff_toNat_lt
      · rw [if_neg hfits] at hproduct
        exact nomatch hproduct

/-- **NO STEP LEAVES THE WORDS**: computed in words, with a check where the
    result could be no word, it is the same array or the same error as without
    a bound. -/
theorem createInWords_eq {low high : Bound} (hlow : low.IsWord) (hhigh : high.IsWord)
    (name : String) (element : ScalarType) :
    createInWords name element low high = create name element low high := by
  rw [createInWords, create]
  refine bind_congr fun name => bind_congr fun _ => ?_
  rw [← Bound.map_toInt_firstInWords hlow, ← Bound.map_toInt_afterLastInWords hhigh, bind_map_left]
  refine bind_congr fun start => ?_
  rw [bind_map_left]
  refine bind_congr fun stop => ?_
  rw [← Word.map_toInt_sub, bind_map_left]
  refine bind_congr fun length => ?_
  by_cases hneg : length.toInt < 0
  · rw [if_pos (Int64.lt_iff_toInt_lt.mpr hneg), if_pos hneg]
    rfl
  · rw [if_neg fun h => hneg (Int64.lt_iff_toInt_lt.mp h), if_neg hneg,
      isTooLargeInWords_eq (Int.not_lt.mp hneg)]
    simp only [decide_eq_true_iff]

/-- What is computed of the range of an array in words without a check is what
    is computed without a bound: the difference of the numbers at its ends,
    that difference as a number of elements, the bytes of the elements, and
    the indices one after the other. -/
structure IsExactInWords (f : ArrayField) : Prop where
  length : (Int64.ofInt f.stop - Int64.ofInt f.start).toInt = f.stop - f.start
  count : (Int64.ofInt f.stop - Int64.ofInt f.start).toUInt64.toNat = f.count
  size : (UInt64.ofNat f.element.bytes * UInt64.ofNat f.count).toNat = f.size
  indices : (List.iterate (· + 1) (Int64.ofInt f.start) f.count).map Int64.toInt = f.indices

/-- What the numbers at the ends of a range must be for an array. -/
structure RangeFits (element : ScalarType) (lo hi : Int) : Prop where
  first : lo ≤ 2 ^ 63 - 1
  afterLast : hi ≤ 2 ^ 63 - 1
  ordered : lo ≤ hi
  bytes : (hi - lo) * element.bytes ≤ 2 ^ 24

section Made

variable {name : String} {element : ScalarType} {low high : Bound} {f : ArrayField}

/-- An element takes a byte at least, so there are no more of them than
    bytes. -/
theorem IsMade.count_le (h : IsMade name element low high f) : f.count ≤ maxFieldBytes :=
  (Nat.le_mul_of_pos_right f.count element.bytes_pos).trans h.fits

/-- No array is made of more bytes than a field may have. -/
theorem IsMade.size_le (h : IsMade name element low high f) : f.size ≤ maxFieldBytes := by
  rw [size, h.type, Nat.mul_comm]
  exact h.fits

/-- The ends of the range of an array are as far apart as it has elements. -/
theorem IsMade.count_eq (h : IsMade name element low high f) :
    (f.count : Int) = f.stop - f.start := by
  have hordered := h.ordered
  rw [count]
  omega

/-- **NOTHING LEAVES THE WORDS AFTERWARDS**: what is computed of the range of an
    array that has been made needs no check. -/
theorem IsMade.isExactInWords (h : IsMade name element low high f) : f.IsExactInWords := by
  have hfrom := toInt_ofInt_of_isIndex (Bound.first_eq_ok.mp h.start).2
  have hstop := (Bound.afterLast_eq_ok.mp h.stop).2
  have hto := toInt_ofInt_of_isIndex hstop
  have hlength : (Int64.ofInt f.stop - Int64.ofInt f.start).toInt = f.stop - f.start := by
    rw [toInt_sub_of_isIndex (by rw [hfrom, hto]; exact h.length), hfrom, hto]
  have hlast : isIndex ((Int64.ofInt f.start).toInt + f.count) = true := by
    have hback : f.start + (f.stop - f.start) = f.stop := by omega
    rw [hfrom, h.count_eq, hback]
    exact hstop
  have hmax : maxFieldBytes < 2 ^ 64 := by decide
  exact {
    length := hlength
    count := by
      rw [toNat_toUInt64 (by rw [hlength, ← h.count_eq]; exact Int.natCast_nonneg _), hlength]
      rfl
    size := by
      rw [UInt64.toNat_mul, toNat_ofNat_bytes, UInt64.toNat_ofNat',
        Nat.mod_eq_of_lt (h.count_le.trans_lt hmax)]
      exact Nat.mod_eq_of_lt (h.size_le.trans_lt hmax)
    indices := by
      rw [map_toInt_iterate f.count _ hlast, hfrom]
      rfl }

/-- The elements are named by the numbers from the first index on. -/
theorem getElem?_elements (h : IsMade name element low high f) (k : Nat) :
    f.elements[k]? = if f.start + k < f.stop then
      some ⟨Decimal.ofInt (f.start + k), "", element, none⟩ else none := by
  have hcount := h.count_eq
  have hlength : f.elements.length = f.count := by
    rw [elements, List.length_map, length_indices]
  by_cases hk : f.start + k < f.stop
  · rw [if_pos hk, elements, indices, List.getElem?_map, List.getElem?_map,
      List.getElem?_range (by omega), h.type, h.initial]
    rfl
  · rw [if_neg hk]
    refine List.getElem?_eq_none ?_
    omega

end Made

/-- Of the ends of a range only the numbers at them matter. -/
theorem create_congr {low high low' high' : Bound} (hfirst : low'.first? = low.first?)
    (hafterLast : high'.afterLast? = high.afterLast?) (name : String) (element : ScalarType) :
    create name element low' high' = create name element low high := by
  rw [Bound.afterLast?_eq, Bound.afterLast?_eq] at hafterLast
  simp only [create, Bound.afterLast_eq, Bound.first_eq, hfirst, hafterLast]

/-- The numbers at the ends of a range decide whether it is accepted. -/
theorem exists_isMade_iff {name : String} {element : ScalarType} {low high : Bound}
    (hlow : low.IsWord) (hhigh : high.IsWord) :
    (∃ f, IsMade name element low high f) ↔
      isName (trimmed name).toList = true ∧ element.needsLength = false ∧
        ∃ lo hi, low.first? = some lo ∧ high.afterLast? = some hi ∧ RangeFits element lo hi := by
  constructor
  · rintro ⟨f, h⟩
    obtain ⟨hlo, hstart⟩ := Bound.first_eq_ok.mp h.start
    obtain ⟨hhi, hstop⟩ := Bound.afterLast_eq_ok.mp h.stop
    refine ⟨(nameOf_eq_ok.mp h.stored).1, h.sized, f.start, f.stop, hlo, hhi, ?_⟩
    exact {
      first := (Bound.isIndex_first? hlow hlo).mp hstart
      afterLast := (Bound.isIndex_afterLast? hhigh hhi).mp hstop
      ordered := h.ordered
      bytes := by
        rw [← h.count_eq]
        exact_mod_cast h.fits }
  · rintro ⟨hname, hsized, lo, hi, hlo, hhi, hfits⟩
    have hordered := hfits.ordered
    have hstart := (Bound.isIndex_first? hlow hlo).mpr hfits.first
    have hstop := (Bound.isIndex_afterLast? hhigh hhi).mpr hfits.afterLast
    have hbytes : (hi - lo).toNat * element.bytes ≤ maxFieldBytes := by
      have hcast : ((hi - lo).toNat : Int) = hi - lo := Int.toNat_of_nonneg (by omega)
      have := hfits.bytes
      rw [← hcast] at this
      exact_mod_cast this
    have hcount : (hi - lo).toNat ≤ maxFieldBytes :=
      (Nat.le_mul_of_pos_right _ element.bytes_pos).trans hbytes
    refine ⟨⟨trimmed name, "", element, lo, hi, none⟩, ?_⟩
    exact {
      stored := nameOf_eq_ok.mpr ⟨hname, rfl⟩
      type := rfl
      sized := hsized
      start := Bound.first_eq_ok.mpr ⟨hlo, hstart⟩
      stop := Bound.afterLast_eq_ok.mpr ⟨hhi, hstop⟩
      length := by
        unfold maxFieldBytes at hcount
        refine isIndex_iff.mpr ?_
        show -9223372036854775808 ≤ hi - lo ∧ hi - lo ≤ 9223372036854775807
        omega
      ordered := hordered
      fits := hbytes
      comment := rfl
      initial := rfl }

end ArrayField

/-! ## Acceptance and refusal -/

/-- The types that need a length are the two string types. -/
theorem ScalarType.needsLength_iff {t : ScalarType} :
    t.needsLength = true ↔ t = .string ∨ t = .wstring := by
  cases t <;> decide

/-- **WHICH RANGES MAKE AN ARRAY**: an array is made exactly if its name is
    one without its outer blanks, its type is no string type, both ends of its
    range are given, and the numbers at them, which are taken without a bound,
    fit.  Then these numbers are its first index and the index after its last,
    and its elements are named by the numbers in between.  Only the two
    numbers matter of the ends.  The error of an array that is not made is
    that of its name, else that of its type, else one of its range.  Whether
    the array is made or not, no step of this leaves the 64-bit words, nor do
    the count and the indices of an array that has been made. -/
theorem ArrayField.create_range (name : String) (element : ScalarType) {low high : Bound}
    (hlow : low.IsWord) (hhigh : high.IsWord) :
    ((∃ f, create name element low high = .ok f) ↔
        isName (trimmed name).toList = true ∧ ¬ (element = .string ∨ element = .wstring) ∧
          ∃ lo hi, low.first? = some lo ∧ high.afterLast? = some hi ∧ RangeFits element lo hi) ∧
      (∀ f lo hi, create name element low high = .ok f →
        low.first? = some lo → high.afterLast? = some hi →
          f = ⟨trimmed name, "", element, lo, hi, none⟩ ∧ (f.count : Int) = hi - lo ∧
          (∀ k : Nat, f.elements[k]? = if lo + k < hi then
            some ⟨Decimal.ofInt (lo + k), "", element, none⟩ else none) ∧
          f.IsExactInWords) ∧
      (∀ low' high' : Bound, low'.first? = low.first? → high'.afterLast? = high.afterLast? →
        create name element low' high' = create name element low high) ∧
      (∀ e, create name element low high = .error e →
        if isName (trimmed name).toList then
          if element = .string ∨ element = .wstring then
            e = .malformedField none (.lengthNeeded (trimmed name) element)
          else ∃ fault, e = .invalidRange none fault
        else e = .invalidName (trimmed name)) ∧
      createInWords name element low high = create name element low high := by
  refine ⟨?_, ?_, ?_, ?_, createInWords_eq hlow hhigh name element⟩
  · rw [← ScalarType.needsLength_iff, Bool.not_eq_true, ← exists_isMade_iff hlow hhigh]
    exact exists_congr fun f => create_eq_ok
  · intro f lo hi h hlo hhi
    have hmade := create_eq_ok.mp h
    obtain rfl : f.start = lo :=
      Option.some.inj ((Bound.first_eq_ok.mp hmade.start).1.symm.trans hlo)
    obtain rfl : f.stop = hi :=
      Option.some.inj ((Bound.afterLast_eq_ok.mp hmade.stop).1.symm.trans hhi)
    refine ⟨?_, hmade.count_eq, getElem?_elements hmade, hmade.isExactInWords⟩
    rw [← (nameOf_eq_ok.mp hmade.stored).2, ← hmade.type, ← hmade.comment, ← hmade.initial]
  · intro low' high' hfirst hafterLast
    exact create_congr hfirst hafterLast name element
  · intro e h
    cases hname : isName (trimmed name).toList with
    | false =>
        have hnone := nameOf_eq_error.mpr ⟨hname, rfl⟩
        exact (Except.error.inj ((create_of_no_name hnone).symm.trans h)).symm
    | true =>
        have hstored := nameOf_eq_ok.mpr ⟨hname, rfl⟩
        rw [if_pos rfl]
        cases hsized : element.needsLength with
        | true =>
            rw [if_pos (ScalarType.needsLength_iff.mp hsized)]
            exact (Except.error.inj ((create_of_needsLength hstored hsized).symm.trans h)).symm
        | false =>
            rw [if_neg fun hstring => by
              rw [ScalarType.needsLength_iff.mpr hstring] at hsized
              exact nomatch hsized]
            exact failsWith_range hstored hsized e h

/-- The last two indices there are, between ends that are written with other
    numbers. -/
theorem ArrayField.create_range_top :
    (Bound.excluded 9223372036854775804).IsWord ∧ (Bound.included 9223372036854775806).IsWord ∧
      ∃ f, create " top " .lint (.excluded 9223372036854775804) (.included 9223372036854775806)
          = .ok f ∧
        f = ⟨"top", "", .lint, 9223372036854775805, 9223372036854775807, none⟩ ∧
        f.elements[1]? = some ⟨"9223372036854775806", "", .lint, none⟩ := by
  have hlow : (Bound.excluded 9223372036854775804).IsWord := by
    show isIndex 9223372036854775804 = true
    decide
  have hhigh : (Bound.included 9223372036854775806).IsWord := by
    show isIndex 9223372036854775806 = true
    decide
  obtain ⟨haccepted, hmade, -⟩ := create_range " top " .lint hlow hhigh
  obtain ⟨f, hf⟩ := haccepted.mpr
    ⟨by decide, by decide, 9223372036854775805, 9223372036854775807, rfl, rfl,
      ⟨by decide, by decide, by decide, by decide⟩⟩
  obtain ⟨heq, -, helements, -⟩ := hmade f _ _ hf rfl rfl
  refine ⟨hlow, hhigh, f, hf, heq, ?_⟩
  rw [helements 1]
  decide

end PlcTypes
