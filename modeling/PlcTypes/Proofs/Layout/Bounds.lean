import Mathlib
import PlcTypes.Proofs.Layout.Packed
import PlcTypes.Proofs.Layout.Plain

/-! # The two layouts bound each other

    Packing can make a structure larger as well as smaller: a boolean by
    itself takes one byte in the plain layout and two in the packed one, while
    eight booleans in a row take eight bytes and two.  Nothing worse than that
    happens, at any depth.  The packed size is at most twice the plain size,
    and eight times the packed size is at least the plain size and eight bytes
    more for each run of booleans.  Without booleans among the members the
    sizes are equal, arrays of booleans notwithstanding.

    All of it is shown of the exact sizes.  The members of one structure are
    slots, cut into pieces; a piece is a run of booleans or one other slot, so
    both bounds are checked piece by piece and added up.  A structure inside is
    one slot with the packed size of its own, of which the bounds are known by
    induction on the tree. -/

namespace PlcTypes

open Layout

/-! ## Slots of one structure -/

namespace Layout

/-- The bytes of a slot in a piece of its own. -/
def Slot.alone : Slot → Nat
  | bit => 2
  | block bytes => bytes

/-- The bits of a slot. -/
def Slot.bits : Slot → Nat
  | bit => 1
  | block bytes => 8 * bytes

/-- The number of longest runs of booleans among the slots of a structure. -/
def bitRuns (slots : List Slot) : Nat :=
  (slots.splitBy Slot.joins).countP fun piece => piece.any Slot.isBit

/-- Behind a boolean a piece goes on with booleans. -/
theorem eq_replicate_of_isChain {run : List Slot}
    (h : (Slot.bit :: run).IsChain fun a b => a.joins b = true) :
    run = List.replicate run.length .bit := by
  induction run with
  | nil => rfl
  | cons slot run ih =>
      obtain ⟨hjoins, hrun⟩ := List.isChain_cons_cons.mp h
      cases slot with
      | bit => exact congrArg (Slot.bit :: ·) (ih hrun)
      | block bytes => exact nomatch hjoins

/-- A piece is a run of booleans or a single other slot. -/
theorem piece_cases {slots piece : List Slot} (h : piece ∈ slots.splitBy Slot.joins) :
    (∃ n, piece = List.replicate (n + 1) .bit) ∨ ∃ bytes, piece = [.block bytes] := by
  have hchain := List.isChain_of_mem_splitBy h
  match piece, List.ne_nil_of_mem_splitBy h, hchain with
  | .bit :: run, _, hchain =>
      exact Or.inl ⟨run.length, congrArg (Slot.bit :: ·) (eq_replicate_of_isChain hchain)⟩
  | [.block bytes], _, _ => exact Or.inr ⟨bytes, rfl⟩
  | .block bytes :: slot :: run, _, hchain =>
      exact nomatch (List.isChain_cons_cons.mp hchain).1

/-- A piece takes no more bytes than its slots do apart. -/
theorem pieceSize_le {slots piece : List Slot} (h : piece ∈ slots.splitBy Slot.joins) :
    pieceSize piece ≤ (piece.map Slot.alone).sum := by
  rcases piece_cases h with ⟨n, rfl⟩ | ⟨bytes, rfl⟩
  · have hslots : ((List.replicate (n + 1) Slot.bit).map Slot.alone).sum = (n + 1) * 2 := by
      rw [List.map_replicate, List.sum_replicate_nat]
      rfl
    rw [pieceSize_bits, hslots, Field.runSize, if_neg (Nat.succ_ne_zero n)]
    omega
  · exact Nat.le_add_right bytes 0

/-- A piece has room for its bits, and for eight more if it is a run. -/
theorem bits_le_pieceSize {slots piece : List Slot} (h : piece ∈ slots.splitBy Slot.joins) :
    (piece.map Slot.bits).sum + 8 * (if piece.any Slot.isBit then 1 else 0)
      ≤ 8 * pieceSize piece := by
  rcases piece_cases h with ⟨n, rfl⟩ | ⟨bytes, rfl⟩
  · have hslots : ((List.replicate (n + 1) Slot.bit).map Slot.bits).sum = n + 1 := by
      rw [List.map_replicate, List.sum_replicate_nat]
      exact Nat.mul_one (n + 1)
    have hrun : (List.replicate (n + 1) Slot.bit).any Slot.isBit = true := rfl
    rw [pieceSize_bits, hslots, if_pos hrun, Field.runSize, if_neg (Nat.succ_ne_zero n)]
    omega
  · exact Nat.le_refl (8 * bytes)

/-- Pieces have room for what each of them has room for. -/
theorem bits_le_of_forall {pieces : List (List Slot)}
    (h : ∀ piece ∈ pieces,
      (piece.map Slot.bits).sum + 8 * (if piece.any Slot.isBit then 1 else 0)
        ≤ 8 * pieceSize piece) :
    (pieces.map fun piece => (piece.map Slot.bits).sum).sum
        + 8 * pieces.countP (fun piece => piece.any Slot.isBit)
      ≤ 8 * (pieces.map pieceSize).sum := by
  induction pieces with
  | nil => exact Nat.le_refl 0
  | cons piece pieces ih =>
      have hpiece := h piece (by simp)
      have hrest := ih fun p hp => h p (by simp [hp])
      rw [List.map_cons, List.sum_cons, List.map_cons, List.sum_cons, List.countP_cons]
      omega

/-- What is added up over slots can be added up piece by piece. -/
theorem sum_map_pieces (weight : Slot → Nat) (slots : List Slot) :
    ((slots.splitBy Slot.joins).map fun piece => (piece.map weight).sum).sum
      = (slots.map weight).sum := by
  conv_rhs => rw [← List.flatten_splitBy Slot.joins slots]
  rw [List.map_flatten, List.sum_flatten, List.map_map]
  rfl

/-- A structure takes no more bytes than its slots do apart. -/
theorem slotsSize_le (slots : List Slot) : slotsSize slots ≤ (slots.map Slot.alone).sum := by
  rw [← sum_map_pieces]
  exact List.sum_le_sum fun piece hpiece => pieceSize_le hpiece

/-- A structure has room for its bits, and for eight more in each run of
    booleans. -/
theorem bits_le_slotsSize (slots : List Slot) :
    (slots.map Slot.bits).sum + 8 * bitRuns slots ≤ 8 * slotsSize slots := by
  rw [← sum_map_pieces]
  exact bits_le_of_forall fun piece hpiece => bits_le_pieceSize hpiece

/-- Slots that are no booleans take their bytes. -/
theorem slotsSize_of_blocks {slots : List Slot} (h : ∀ slot ∈ slots, slot.isBit = false) :
    slotsSize slots = (slots.map Slot.alone).sum := by
  induction slots with
  | nil => rfl
  | cons slot slots ih =>
      have hslot := h slot (by simp)
      have hslots := ih fun s hs => h s (by simp [hs])
      cases slot with
      | bit => exact nomatch hslot
      | block bytes =>
          have hcut := slotsSize_append_block [] slots bytes
          rw [List.nil_append] at hcut
          rw [hcut, hslots, List.map_cons, List.sum_cons]
          exact congrArg (· + _) (Nat.zero_add bytes)

end Layout

namespace Field

/-! ## Runs in a tree -/

/-- The number of longest runs of booleans among some siblings. -/
def boolRuns (fs : List Field) : Nat :=
  bitRuns (slots fs)

/-- The number of longest runs of booleans inside a field, in structures at
    every depth. -/
def boolRunsInside (f : Field) : Nat :=
  (f.nodes.map fun g => boolRuns g.members).sum

/-- The number of longest runs of booleans in a list of fields: among the
    fields themselves, and in structures at every depth. -/
def boolRunsAll (fs : List Field) : Nat :=
  boolRuns fs + ((nodesAll fs).map fun g => boolRuns g.members).sum

theorem boolRunsInside_plain {f : Field} (h : f.isPlain = true) : boolRunsInside f = 0 := by
  rw [boolRunsInside, nodes_plain h]
  cases f with
  | scalar f | text f | array f => rfl
  | struct name comment members => exact nomatch h

theorem boolRunsInside_struct (name comment : String) (members : List Field) :
    boolRunsInside (.struct name comment members) = boolRunsAll members := by
  rw [boolRunsInside, nodes, List.map_cons, List.sum_cons]
  rfl

theorem boolRunsAll_eq (fs : List Field) :
    boolRunsAll fs = boolRuns fs + (fs.map boolRunsInside).sum := by
  refine congrArg (boolRuns fs + ·) ?_
  induction fs with
  | nil => rfl
  | cons f fs ih =>
      rw [nodesAll, List.map_append, List.sum_append, ih]
      rfl

/-! ## Bounds of a tree -/

theorem leavesSize_leavesAll (fs : List Field) :
    leavesSize (leavesAll fs) = (fs.map fun f => leavesSize (leaves f)).sum := by
  induction fs with
  | nil => rfl
  | cons f fs ih => rw [leavesAll, leavesSize_append, ih, List.map_cons, List.sum_cons]

/-- A boolean takes one byte by itself. -/
theorem leavesSize_of_isBool {f : Field} (h : f.isBool = true) : leavesSize (leaves f) = 1 := by
  cases f with
  | scalar f =>
      have htype : f.type = .bool := by
        cases htype : f.type with
        | bool => rfl
        | _ => exact absurd h (by rw [isBool, htype]; decide)
      show f.type.bytes + 0 = 1
      rw [htype]
      rfl
  | text f | array f | struct name comment members => exact nomatch h

/-- The slot of a member. -/
def slot (f : Field) : Slot :=
  if f.isBool then .bit else .block (exactSize f)

theorem sum_map_slots (weight : Slot → Nat) (fs : List Field) :
    ((slots fs).map weight).sum = (fs.map fun f => weight f.slot).sum := by
  rw [slots_eq_map, List.map_map]
  rfl

/-- Siblings take at most twice their bytes, if each of them does. -/
theorem exactSizeAll_le_of_forall {fs : List Field}
    (h : ∀ f ∈ fs, exactSize f ≤ 2 * leavesSize (leaves f)) :
    exactSizeAll fs ≤ 2 * leavesSize (leavesAll fs) := by
  have hslot : ∀ f ∈ fs, f.slot.alone ≤ 2 * leavesSize (leaves f) := by
    intro f hf
    cases hbool : f.isBool with
    | true =>
        rw [slot, if_pos hbool, leavesSize_of_isBool hbool]
        exact Nat.le_refl 2
    | false =>
        rw [slot, hbool]
        exact h f hf
  calc exactSizeAll fs
      ≤ ((slots fs).map Slot.alone).sum := slotsSize_le (slots fs)
    _ = (fs.map fun f => f.slot.alone).sum := sum_map_slots Slot.alone fs
    _ ≤ (fs.map fun f => 2 * leavesSize (leaves f)).sum := List.sum_le_sum hslot
    _ = 2 * leavesSize (leavesAll fs) := by rw [List.sum_map_mul_left, leavesSize_leavesAll]

/-- Siblings have room for their bytes and runs as bits, if each of them
    has. -/
theorem le_exactSizeAll_of_forall {fs : List Field}
    (h : ∀ f ∈ fs, leavesSize (leaves f) + 8 * boolRunsInside f ≤ 8 * exactSize f) :
    leavesSize (leavesAll fs) + 8 * boolRunsAll fs ≤ 8 * exactSizeAll fs := by
  have hslot : ∀ f ∈ fs, leavesSize (leaves f) + 8 * boolRunsInside f ≤ f.slot.bits := by
    intro f hf
    cases hbool : f.isBool with
    | true =>
        have hplain : f.isPlain = true := by
          cases f with
          | scalar f | text f | array f => rfl
          | struct name comment members => exact nomatch hbool
        rw [slot, if_pos hbool, leavesSize_of_isBool hbool, boolRunsInside_plain hplain]
        exact Nat.le_refl 1
    | false =>
        rw [slot, hbool]
        exact h f hf
  have hbits : leavesSize (leavesAll fs) + 8 * (fs.map boolRunsInside).sum
      ≤ ((slots fs).map Slot.bits).sum := by
    rw [sum_map_slots, leavesSize_leavesAll, ← List.sum_map_mul_left, ← List.sum_map_add]
    exact List.sum_le_sum hslot
  have hruns : ((slots fs).map Slot.bits).sum + 8 * boolRuns fs ≤ 8 * exactSizeAll fs :=
    bits_le_slotsSize (slots fs)
  rw [boolRunsAll_eq]
  omega

/-- Siblings none of which is a boolean take their bytes, if each of them
    does. -/
theorem exactSizeAll_eq_of_forall {fs : List Field} (hbools : ∀ f ∈ fs, f.isBool = false)
    (h : ∀ f ∈ fs, exactSize f = leavesSize (leaves f)) :
    exactSizeAll fs = leavesSize (leavesAll fs) := by
  have hslot : ∀ f ∈ fs, f.slot = .block (exactSize f) := by
    intro f hf
    rw [slot, hbools f hf]
    rfl
  have hblocks : ∀ s ∈ slots fs, s.isBit = false := by
    intro s hs
    rw [slots_eq_map] at hs
    obtain ⟨f, hf, rfl⟩ := List.mem_map.mp hs
    exact congrArg Slot.isBit (hslot f hf)
  rw [exactSizeAll, slotsSize_of_blocks hblocks, sum_map_slots, leavesSize_leavesAll]
  refine congrArg List.sum (List.map_congr_left fun f hf => ?_)
  rw [hslot f hf]
  exact h f hf

/-- A field without members takes the bytes of its leaves in both layouts. -/
theorem exactSize_plain {f : Field} (h : f.isPlain = true) :
    exactSize f = leavesSize (leaves f) := by
  cases f with
  | scalar f | text f => rfl
  | array a => exact (leavesSize_array a).symm
  | struct name comment members => exact nomatch h

/-- **PACKING AT MOST DOUBLES A FIELD.** -/
theorem exactSize_le (f : Field) : exactSize f ≤ 2 * leavesSize (leaves f) := by
  induction f using Field.induction with
  | plain f hplain =>
      rw [exactSize_plain hplain]
      omega
  | struct name comment members ih => exact exactSizeAll_le_of_forall ih

/-- **A PACKED FIELD HAS ROOM FOR ITS BYTES AS BITS**, and for eight more in
    each run of booleans inside it. -/
theorem le_exactSize (f : Field) :
    leavesSize (leaves f) + 8 * boolRunsInside f ≤ 8 * exactSize f := by
  induction f using Field.induction with
  | plain f hplain =>
      rw [exactSize_plain hplain, boolRunsInside_plain hplain]
      omega
  | struct name comment members ih =>
      rw [boolRunsInside_struct]
      exact le_exactSizeAll_of_forall ih

/-- A field without booleans inside is packed as it is. -/
theorem exactSize_eq (f : Field) (h : ∀ g ∈ nodesAll f.members, g.isBool = false) :
    exactSize f = leavesSize (leaves f) := by
  induction f using Field.induction with
  | plain f hplain => exact exactSize_plain hplain
  | struct name comment members ih =>
      have hown : ∀ f ∈ members, f.isBool = false := fun f hf =>
        h f (mem_nodesAll.mpr ⟨f, hf, mem_nodes_self f⟩)
      have hinner : ∀ f ∈ members, exactSize f = leavesSize (leaves f) := fun f hf =>
        ih f hf fun g hg => h g (mem_nodesAll.mpr ⟨f, hf, mem_nodes_of_mem_members hg⟩)
      exact exactSizeAll_eq_of_forall hown hinner

/-- **THE LAYOUTS BOUND EACH OTHER**: the packed size of a list of fields with
    less than 2^63 bytes is at most twice the plain size, and eight times the
    packed size is at least the plain size and eight for each run of booleans,
    at every depth.  If no field at any depth is a boolean, the two sizes are
    the same, however great. -/
theorem packedSizeAll_bounds (fs : List Field) :
    (leavesSize (leavesAll fs) < 2 ^ 63 →
        packedSizeAll fs ≤ 2 * plainSizeAll fs ∧
          plainSizeAll fs + 8 * boolRunsAll fs ≤ 8 * packedSizeAll fs) ∧
      ((∀ f ∈ nodesAll fs, f.isBool = false) → packedSizeAll fs = plainSizeAll fs) := by
  have hpacked : packedSizeAll fs = min (exactSizeAll fs) maxSize :=
    packedSizeFrom_zero fun f _ => min_packedSize f
  have hplain : plainSizeAll fs = min (leavesSize (leavesAll fs)) maxSize :=
    plainSizeAll_of_forall fun f _ => min_plainSize f
  have hmost := exactSizeAll_le_of_forall fun f (_ : f ∈ fs) => exactSize_le f
  have hleast := le_exactSizeAll_of_forall fun f (_ : f ∈ fs) => le_exactSize f
  constructor
  · intro h
    have hmax : (2 : Nat) ^ 63 + 2 ^ 63 = maxSize + 1 := rfl
    rw [hpacked, hplain]
    omega
  · intro hbools
    rw [hpacked, hplain, exactSizeAll_eq_of_forall]
    · exact fun f hf => hbools f (mem_nodesAll.mpr ⟨f, hf, mem_nodes_self f⟩)
    · exact fun f hf => exactSize_eq f fun g hg =>
        hbools g (mem_nodesAll.mpr ⟨f, hf, mem_nodes_of_mem_members hg⟩)

/-- A panel with a run of two booleans, and in a structure one boolean beside
    an array of them. -/
def panel : List Field :=
  [.scalar ⟨"on", "", .bool, none⟩, .scalar ⟨"off", "", .bool, none⟩,
   .struct "gauge" "" [.scalar ⟨"valid", "", .bool, none⟩,
     .array ⟨"steps", "", .bool, 0, 3, none⟩]]

/-- It takes one byte more when it is packed, and an array of booleans alone
    takes the same. -/
theorem packedSizeAll_bounds_panel :
    leavesSize (leavesAll panel) < 2 ^ 63 ∧ boolRunsAll panel = 2 ∧
      packedSizeAll panel ≤ 2 * plainSizeAll panel ∧
      plainSizeAll panel + 8 * boolRunsAll panel ≤ 8 * packedSizeAll panel ∧
      (∀ f ∈ nodesAll [.array ⟨"steps", "", .bool, 0, 3, none⟩], f.isBool = false) ∧
      packedSizeAll [.array ⟨"steps", "", .bool, 0, 3, none⟩]
        = plainSizeAll [.array ⟨"steps", "", .bool, 0, 3, none⟩] := by
  have hsize : leavesSize (leavesAll panel) < 2 ^ 63 := by decide
  have hbools : ∀ f ∈ nodesAll [.array ⟨"steps", "", .bool, 0, 3, none⟩],
      f.isBool = false := by decide
  obtain ⟨hmost, hleast⟩ := (packedSizeAll_bounds panel).1 hsize
  exact ⟨hsize, by decide, hmost, hleast, hbools, (packedSizeAll_bounds _).2 hbools⟩

/-- One boolean takes twice as many bytes packed, and eight take an eighth of
    theirs and a byte more. -/
example : packedSizeAll (List.replicate 1 (.scalar ⟨"on", "", .bool, none⟩)) = 2 ∧
    packedSizeAll (List.replicate 8 (.scalar ⟨"on", "", .bool, none⟩)) = 2 := by decide

end Field

end PlcTypes
