import Mathlib
import PlcTypes.Layout
import PlcTypes.Proofs.Field.Tree

/-! # The packed layout is what it is meant to be

    The packed size is computed in one pass, with a counter of booleans and
    sums that saturate on every level.  What it is meant to be is said here
    without any of that: the members of a structure are cut into the longest
    runs of booleans and single other members, a run of `n` booleans takes
    one byte for every eight begun and one more, every other member takes its
    own exact size, and nothing is bounded.

    The computed size is the exact one, or the greatest size if that is less.
    The route: a sum that saturates is the bounded sum, so the pass keeps a
    bounded exact size; and the counter stands for booleans that are put in
    front of the members that are left. -/

namespace PlcTypes

namespace Layout

/-- What a member is to the structure around it: a boolean, or some bytes. -/
inductive Slot where
  | bit
  | block (bytes : Nat)

/-- Whether a slot is a boolean. -/
def Slot.isBit : Slot → Bool
  | bit => true
  | block _ => false

/-- Only booleans share a piece of a structure. -/
def Slot.joins (a b : Slot) : Bool :=
  a.isBit && b.isBit

/-- The exact size of one piece: of a run of booleans, or of one other
    member. -/
def pieceSize : List Slot → Nat
  | [] => 0
  | .bit :: run => (run.length + 1) ⌈/⌉ 8 + 1
  | .block bytes :: _ => bytes

/-- The exact size of a structure with given slots, cut into the longest
    pieces. -/
def slotsSize (slots : List Slot) : Nat :=
  ((slots.splitBy Slot.joins).map pieceSize).sum

end Layout

open Layout

namespace Field

mutual

/-- The exact packed size of a field. -/
def exactSize : Field → Nat
  | scalar f => (scalar f).plainSize
  | text f => (text f).plainSize
  | array f => (array f).plainSize
  | struct _ _ members => slotsSize (slots members)

/-- The members of a structure as slots. -/
def slots : List Field → List Slot
  | [] => []
  | f :: fs => (if f.isBool then .bit else .block (exactSize f)) :: slots fs

end

/-- The exact packed size of a list of fields laid out as one structure. -/
def exactSizeAll (fs : List Field) : Nat :=
  slotsSize (slots fs)

end Field

/-! ## Pieces -/

namespace Layout

theorem pieceSize_bits (n : Nat) :
    pieceSize (List.replicate (n + 1) .bit) = Field.runSize (n + 1) := by
  show (((List.replicate n Slot.bit).length + 1) ⌈/⌉ 8 + 1 : Nat) = Field.runSize (n + 1)
  rw [List.length_replicate, Nat.ceilDiv_eq_add_pred_div]
  rfl

/-- A structure that consists of booleans is one run of them. -/
theorem slotsSize_bits (n : Nat) : slotsSize (List.replicate n .bit) = Field.runSize n := by
  cases n with
  | zero => rfl
  | succ n =>
      have hchain : (List.replicate (n + 1) Slot.bit).IsChain fun a b => a.joins b = true :=
        List.isChain_replicate_of_rel (n + 1) rfl
      unfold slotsSize
      rw [List.splitBy_of_isChain (by simp) hchain, List.map_singleton, List.sum_singleton,
        pieceSize_bits]

/-- A cut that no run of booleans reaches over is a cut between pieces. -/
theorem slotsSize_append {before after : List Slot}
    (h : ∀ a ∈ before.getLast?, ∀ b ∈ after.head?, a.joins b = false) :
    slotsSize (before ++ after) = slotsSize before + slotsSize after := by
  rw [slotsSize, List.splitBy_append h, List.map_append, List.sum_append]
  rfl

/-- A member that is no boolean ends the run before it, whatever its size. -/
theorem slotsSize_append_block (before after : List Slot) (bytes : Nat) :
    slotsSize (before ++ .block bytes :: after)
      = slotsSize before + bytes + slotsSize after := by
  have hbefore : slotsSize (before ++ .block bytes :: after)
      = slotsSize before + slotsSize (.block bytes :: after) := by
    refine slotsSize_append fun a _ b hb => ?_
    obtain rfl := Option.some.inj hb
    exact Bool.and_false a.isBit
  have hafter : slotsSize ([.block bytes] ++ after)
      = slotsSize [.block bytes] + slotsSize after := by
    refine slotsSize_append fun a ha b _ => ?_
    obtain rfl := Option.some.inj ha
    rfl
  rw [hbefore, Nat.add_assoc]
  exact congrArg (slotsSize before + ·) hafter

end Layout

namespace Field

/-- There is one slot for each member. -/
theorem slots_eq_map (fs : List Field) :
    slots fs = fs.map fun f => if f.isBool then .bit else .block (exactSize f) := by
  induction fs with
  | nil => rfl
  | cons f fs ih =>
      show _ :: slots fs = _
      rw [ih]
      rfl

theorem slots_append (fs gs : List Field) : slots (fs ++ gs) = slots fs ++ slots gs := by
  rw [slots_eq_map, slots_eq_map, slots_eq_map, List.map_append]

theorem slots_cons_of_isBool {f : Field} (h : f.isBool = true) (fs : List Field) :
    slots (f :: fs) = .bit :: slots fs := by
  show (if f.isBool then Slot.bit else .block (exactSize f)) :: slots fs = _
  rw [if_pos h]

theorem slots_cons_of_not_isBool {f : Field} (h : f.isBool = false) (fs : List Field) :
    slots (f :: fs) = .block (exactSize f) :: slots fs := by
  show (if f.isBool then Slot.bit else .block (exactSize f)) :: slots fs = _
  rw [if_neg (by rw [h]; exact Bool.false_ne_true)]

/-! ## The pass -/

/-- Adding to a bounded total gives the bounded sum, also when what is added
    is only known as far as the bound. -/
theorem addSize_min {b c : Nat} (h : min b maxSize = min c maxSize) (a : Nat) :
    addSize (min a maxSize) b = min (a + c) maxSize := by
  unfold addSize
  omega

/-- **WHAT THE PASS KEEPS**: from a bounded total and some pending booleans it
    comes to the total with the exact size of those booleans and the members
    that are left, bounded. -/
theorem packedSizeFrom_eq {fs : List Field}
    (h : ∀ f ∈ fs, min (packedSize f) maxSize = min (exactSize f) maxSize) :
    ∀ total pending : Nat,
      packedSizeFrom (min total maxSize) pending fs
        = min (total + slotsSize (List.replicate pending .bit ++ slots fs)) maxSize := by
  induction fs with
  | nil =>
      intro total pending
      show addSize (min total maxSize) (runSize pending) = _
      rw [slots, List.append_nil, slotsSize_bits, addSize_min rfl]
  | cons f fs ih =>
      intro total pending
      have hrest := ih fun g hg => h g (by simp [hg])
      rw [packedSizeFrom]
      cases hbool : f.isBool with
      | true =>
          -- the boolean joins those that are pending
          rw [if_pos rfl, hrest, slots_cons_of_isBool hbool, List.replicate_succ',
            List.append_assoc, List.singleton_append]
      | false =>
          -- the member ends the run, and the next one starts empty
          rw [if_neg Bool.false_ne_true, addSize_min rfl, addSize_min (h f (by simp)), hrest,
            slots_cons_of_not_isBool hbool, slotsSize_append_block, slotsSize_bits]
          show min (total + runSize pending + exactSize f + slotsSize (slots fs)) maxSize = _
          rw [Nat.add_assoc, Nat.add_assoc, Nat.add_assoc]

/-- A structure is computed as it should be, if its members are. -/
theorem packedSizeFrom_zero {fs : List Field}
    (h : ∀ f ∈ fs, min (packedSize f) maxSize = min (exactSize f) maxSize) :
    packedSizeFrom 0 0 fs = min (exactSizeAll fs) maxSize := by
  have hfrom := packedSizeFrom_eq h 0 0
  rw [Nat.zero_add] at hfrom
  exact hfrom

/-- Every field is computed as it should be, as far as the bound. -/
theorem min_packedSize (f : Field) :
    min (packedSize f) maxSize = min (exactSize f) maxSize := by
  induction f using Field.induction with
  | plain f hplain =>
      cases f with
      | scalar f | text f | array f => rfl
      | struct name comment members => exact nomatch hplain
  | struct name comment members ih =>
      show min (packedSizeFrom 0 0 members) maxSize = min (exactSizeAll members) maxSize
      rw [packedSizeFrom_zero ih]
      omega

/-- **THE PACKED LAYOUT IS EXACT UP TO THE GREATEST SIZE**: the packed size of
    every list of fields is the exact size of its runs and other members, or
    the greatest size if that is less.  A member that is no boolean ends a run
    even if it has no bytes. -/
theorem packedSizeAll_eq_min (fs : List Field) :
    packedSizeAll fs = min (exactSizeAll fs) maxSize ∧
      ∀ (before after : List Field) (f : Field), fs = before ++ f :: after →
        f.isBool = false →
          exactSizeAll fs = exactSizeAll before + exactSize f + exactSizeAll after := by
  refine ⟨packedSizeFrom_zero fun f _ => min_packedSize f, ?_⟩
  rintro before after f rfl hbool
  unfold exactSizeAll
  rw [slots_append, slots_cons_of_not_isBool hbool, slotsSize_append_block]

/-- Two booleans with an empty structure between them are two runs. -/
example : exactSizeAll [.scalar ⟨"a", "", .bool, none⟩, .struct "s" "" [],
    .scalar ⟨"b", "", .bool, none⟩] = 4 := by decide

end Field

end PlcTypes
