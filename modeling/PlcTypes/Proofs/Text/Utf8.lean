import PlcTypes.Proofs.Text.Lines

/-! # Text written as bytes and read again

    What is written for a text is read as that text: each character is written
    with a lead byte that says how many tail bytes follow, and the value that
    they spell is the character again.

    The bytes are cut into lines where the text is.  A byte below `0x80` stands
    only for the character with its number, so a line feed or a carriage return
    among the bytes is one in the text.  So the lines of the bytes are the lines
    of the text, and all of them can be had. -/

namespace PlcTypes.Text

namespace Utf8

/-! ## One character -/

theorem toNat_byte {n : Nat} (h : n < 256) : (UInt8.ofNat n).toNat = n := by
  rw [UInt8.toNat_ofNat', Nat.mod_eq_of_lt h]

/-- A tail byte holds six bits. -/
theorem tailBits_ofNat {n : Nat} (h : n < 64) : tailBits (UInt8.ofNat (n + 128)) = some n := by
  unfold tailBits
  rw [toNat_byte (by omega), if_pos (by omega), Nat.add_sub_cancel]

/-- The code point of a character is read as the character. -/
theorem character_toNat {least : Nat} {c : Char} (h : least ≤ c.toNat) :
    character least c.toNat = some c := by
  unfold character
  rw [if_pos ⟨h, c.valid⟩, Char.ofNat_toNat]

variable {c : Char} (rest : List UInt8)

/-- One byte below 128 is a character. -/
theorem decode_one (h : c.toNat < 128) :
    decode (UInt8.ofNat c.toNat :: rest) = (decode rest).map (c :: ·) := by
  rw [decode.eq_def]
  dsimp only
  rw [toNat_byte (by omega), if_pos h, Char.ofNat_toNat]

/-- Two bytes are a character with the bits of both, if it needs them. -/
theorem decode_two {i j : Nat} (hi : i < 32) (hj : j < 64)
    (hc : character 0x80 (i * 64 + j) = some c) :
    decode (UInt8.ofNat (i + 192) :: UInt8.ofNat (j + 128) :: rest)
      = (decode rest).map (c :: ·) := by
  rw [decode.eq_def]
  dsimp only
  rw [toNat_byte (by omega), if_neg (by omega), if_neg (by omega), if_pos (by omega),
    tailBits_ofNat hj, Nat.add_sub_cancel]
  show (character 0x80 (i * 64 + j)).bind _ = _
  rw [hc, Option.bind_some]

/-- Three bytes are read as their character, if the character needs three. -/
theorem decode_three {i j k : Nat} (hi : i < 16) (hj : j < 64) (hk : k < 64)
    (hc : character 0x800 ((i * 64 + j) * 64 + k) = some c) :
    decode (UInt8.ofNat (i + 224) :: UInt8.ofNat (j + 128) :: UInt8.ofNat (k + 128) :: rest)
      = (decode rest).map (c :: ·) := by
  rw [decode.eq_def]
  dsimp only
  rw [toNat_byte (by omega), if_neg (by omega), if_neg (by omega), if_neg (by omega),
    if_pos (by omega), tailBits_ofNat hj, tailBits_ofNat hk, Nat.add_sub_cancel]
  show (character 0x800 ((i * 64 + j) * 64 + k)).bind _ = _
  rw [hc, Option.bind_some]

/-- Four bytes are read as their character, if the character needs four. -/
theorem decode_four {i j k l : Nat} (hi : i < 8) (hj : j < 64) (hk : k < 64) (hl : l < 64)
    (hc : character 0x10000 (((i * 64 + j) * 64 + k) * 64 + l) = some c) :
    decode (UInt8.ofNat (i + 240) :: UInt8.ofNat (j + 128) :: UInt8.ofNat (k + 128)
        :: UInt8.ofNat (l + 128) :: rest)
      = (decode rest).map (c :: ·) := by
  rw [decode.eq_def]
  dsimp only
  rw [toNat_byte (by omega), if_neg (by omega), if_neg (by omega), if_neg (by omega),
    if_neg (by omega), if_pos (by omega), tailBits_ofNat hj, tailBits_ofNat hk,
    tailBits_ofNat hl, Nat.add_sub_cancel]
  show (character 0x10000 (((i * 64 + j) * 64 + k) * 64 + l)).bind _ = _
  rw [hc, Option.bind_some]

/-- **ONE CHARACTER**: its bytes, whatever follows them, are read as the
    character. -/
theorem decode_encodeChar (c : Char) :
    decode (String.utf8EncodeChar c ++ rest) = (decode rest).map (c :: ·) := by
  have hmax : c.toNat < 0x110000 := by
    rcases c.valid with h | h
    · exact Nat.lt_trans h (by decide)
    · exact h.2
  unfold String.utf8EncodeChar
  dsimp only
  rw [show c.val.toNat = c.toNat from rfl]
  -- each length starts at the least code point that needs it
  split
  · exact decode_one rest (by omega)
  · split
    · refine decode_two rest (Nat.mod_lt _ (by decide)) (Nat.mod_lt _ (by decide)) ?_
      rw [show c.toNat / 64 % 32 * 64 + c.toNat % 64 = c.toNat by omega]
      exact character_toNat (by omega)
    · split
      · refine decode_three rest (Nat.mod_lt _ (by decide)) (Nat.mod_lt _ (by decide))
          (Nat.mod_lt _ (by decide)) ?_
        rw [show (c.toNat / 4096 % 16 * 64 + c.toNat / 64 % 64) * 64 + c.toNat % 64
          = c.toNat by omega]
        exact character_toNat (by omega)
      · refine decode_four rest (Nat.mod_lt _ (by decide)) (Nat.mod_lt _ (by decide))
          (Nat.mod_lt _ (by decide)) (Nat.mod_lt _ (by decide)) ?_
        rw [show ((c.toNat / 262144 % 8 * 64 + c.toNat / 4096 % 64) * 64 + c.toNat / 64 % 64) * 64
          + c.toNat % 64 = c.toNat by omega]
        exact character_toNat (by omega)

/-- A byte below `0x80` stands only for the character with its number. -/
theorem encodeChar_of_mem {b : UInt8} (hb : b ∈ String.utf8EncodeChar c) (hlow : b.toNat < 128) :
    String.utf8EncodeChar c = [b] ∧ c.toNat = b.toNat := by
  unfold String.utf8EncodeChar at hb ⊢
  dsimp only at hb ⊢
  rw [show c.val.toNat = c.toNat from rfl] at hb ⊢
  have hhigh : ∀ n, b = UInt8.ofNat n → ¬ (128 ≤ n ∧ n < 256) := by
    rintro n rfl ⟨hn, hn'⟩
    rw [toNat_byte hn'] at hlow
    omega
  split at hb
  · next h =>
      rw [if_pos h]
      rw [List.mem_singleton] at hb
      rw [hb, toNat_byte (by omega)]
      exact ⟨rfl, rfl⟩
  -- every byte of a longer form is at least 0x80
  · split at hb
    · simp only [List.mem_cons, List.not_mem_nil, or_false] at hb
      rcases hb with h | h <;> exact absurd (by omega) (hhigh _ h)
    · split at hb
      · simp only [List.mem_cons, List.not_mem_nil, or_false] at hb
        rcases hb with h | h | h <;> exact absurd (by omega) (hhigh _ h)
      · simp only [List.mem_cons, List.not_mem_nil, or_false] at hb
        rcases hb with h | h | h | h <;> exact absurd (by omega) (hhigh _ h)

/-! ## Texts -/

theorem encode_cons (c : Char) (cs : List Char) :
    encode (c :: cs) = String.utf8EncodeChar c ++ encode cs := rfl

theorem encode_append (cs ds : List Char) : encode (cs ++ ds) = encode cs ++ encode ds :=
  List.flatMap_append

/-- **TEXTS**: what is written for a text is read as the text. -/
theorem decode_encode (cs : List Char) : decode (encode cs) = some cs := by
  induction cs with
  | nil => rfl
  | cons c cs ih => rw [encode_cons, decode_encodeChar, ih, Option.map_some]

/-- Every character takes at least one byte. -/
theorem encode_eq_nil_iff {cs : List Char} : encode cs = [] ↔ cs = [] := by
  constructor
  · intro h
    have hcs := decode_encode cs
    rw [h] at hcs
    exact (Option.some.inj hcs).symm
  · rintro rfl
    rfl

/-- A byte below `0x80` is in what is written for a text only if its character
    is in the text. -/
theorem mem_of_mem_encode {cs : List Char} {b : UInt8} (hb : b ∈ encode cs)
    (hlow : b.toNat < 128) : Char.ofNat b.toNat ∈ cs := by
  obtain ⟨c, hc, hb⟩ := List.mem_flatMap.mp hb
  rw [← (encodeChar_of_mem hb hlow).2, Char.ofNat_toNat]
  exact hc

/-- Lines that are joined are written one after the other, with the byte of a line
    feed between them. -/
theorem encode_intercalate (pieces : List (List Char)) :
    encode (['\n'].intercalate pieces) = [10].intercalate (pieces.map encode) := by
  induction pieces with
  | nil => rfl
  | cons piece pieces ih =>
      cases pieces with
      | nil => simp
      | cons next more =>
          rw [List.intercalate_cons_cons, encode_append, encode_append, ih]
          show _ = [10].intercalate (encode piece :: encode next :: more.map encode)
          rw [List.intercalate_cons_cons]
          rfl

end Utf8

/-! ## Lines -/

open Utf8

/-- The bytes of a text are cut where the text is. -/
theorem splitOn_encode (cs : List Char) :
    (encode cs).splitOn 10 = (cs.splitOn '\n').map encode := by
  have hpieces : ∀ piece ∈ (cs.splitOn '\n').map encode, (10 : UInt8) ∉ piece := by
    intro _ hbytes hlf
    obtain ⟨piece, hpiece, rfl⟩ := List.mem_map.mp hbytes
    have hfree := eq_false_of_mem_splitOnP piece hpiece _ (mem_of_mem_encode hlf (by decide))
    exact absurd hfree (by decide)
  have hne : (cs.splitOn '\n').map encode ≠ [] := by
    rw [Ne, List.map_eq_nil_iff]
    exact List.splitOn_ne_nil _ _
  have hbytes := encode_intercalate (cs.splitOn '\n')
  rw [List.intercalate_splitOn] at hbytes
  rw [hbytes]
  exact List.splitOn_intercalate 10 hpieces hne

/-- The last byte of a text is a carriage return if its last character is one,
    and only then. -/
theorem getLast?_encode (cs : List Char) :
    (encode cs).getLast? = some 13 ↔ cs.getLast? = some '\r' := by
  rcases List.eq_nil_or_concat cs with rfl | ⟨cs, c, rfl⟩
  · exact ⟨nofun, nofun⟩
  · rw [List.concat_eq_append, encode_append, List.getLast?_concat, encode_cons]
    show (encode cs ++ (String.utf8EncodeChar c ++ [])).getLast? = _ ↔ _
    rw [List.append_nil]
    constructor
    · intro h
      -- the last byte is one of those of the last character
      have hmem : (13 : UInt8) ∈ String.utf8EncodeChar c := by
        rw [List.getLast?_append, List.getLast?_eq_some_getLast String.utf8EncodeChar_ne_nil,
          Option.some_or] at h
        rw [← Option.some.inj h]
        exact List.getLast_mem _
      have hc := (encodeChar_of_mem hmem (by decide)).2
      rw [← Char.ofNat_toNat c, hc]
      rfl
    · intro h
      rw [Option.some.inj h]
      exact List.getLast?_concat

/-- A carriage return at the end of a text is one at the end of its bytes: no
    other character is written with that byte. -/
theorem dropReturn_encode (cs : List Char) :
    dropReturn 13 (encode cs) = encode (dropReturn '\r' cs) := by
  unfold dropReturn
  by_cases h : cs.getLast? = some '\r'
  · rw [if_pos (by simpa using (getLast?_encode cs).mpr h), if_pos (by simpa using h)]
    obtain ⟨cs, rfl⟩ := List.getLast?_eq_some_iff.mp h
    rw [encode_append, List.dropLast_concat]
    exact List.dropLast_concat
  · rw [if_neg (by simpa using mt (getLast?_encode cs).mp h), if_neg (by simpa using h)]

/-- The pieces between line feeds lose the same carriage returns before and after
    they are written. -/
theorem endPieces_encode (pieces : List (List Char)) :
    endPieces 13 (pieces.map encode) = (endPieces '\r' pieces).map encode := by
  induction pieces with
  | nil => rfl
  | cons piece pieces ih =>
      cases pieces with
      | nil =>
          show (if (encode piece).isEmpty then [] else [encode piece]) = _
          rw [endPieces]
          by_cases h : piece = []
          · rw [h]
            rfl
          · rw [if_neg (by simpa [encode_eq_nil_iff] using h), if_neg (by simpa using h)]
            rfl
      | cons next more =>
          show dropReturn 13 (encode piece) :: endPieces 13 ((next :: more).map encode) = _
          rw [dropReturn_encode, ih]
          rfl

/-- **LINES**: the lines of the bytes that are written for a text are its
    lines. -/
theorem linesOfBytes_encode (s : String) : linesOfBytes (encode s.toList) = linesOfText s := by
  unfold linesOfBytes linesOfText cutLines
  rw [splitOn_encode, endPieces_encode, List.map_map]
  refine List.map_congr_left fun cs _ => ?_
  show Line.ofBytes (encode cs) = _
  unfold Line.ofBytes
  rw [decode_encode]

end PlcTypes.Text
