import PlcTypes.Text.Quoted

/-! # A quoted text is read back

    Each character of a text is written as one piece: as itself, after a
    backslash, or as the number of a UTF-16 unit.  Reading finds the pieces
    again, because what is written for a character says by its own first
    characters where it ends, and the quote that closes the text is written
    for no character.  The pieces spell the text, since only control
    characters are written by their numbers, and those are no surrogates. -/

namespace PlcTypes.Text.Quoted

/-! ## One piece -/

/-- A piece in front of those that are read behind it. -/
def Piece.before (p : Piece) (read : Option (List Piece × List Char)) :
    Option (List Piece × List Char) :=
  read.map fun (ps, after) => (p :: ps, after)

theorem pieces_quote (rest : List Char) : pieces ('"' :: rest) = some ([], rest) := by
  rw [pieces.eq_def]
  rfl

/-- A character that needs no escape is read as itself. -/
theorem pieces_plain {c : Char} (rest : List Char) (hquote : c ≠ '"') (hbackslash : c ≠ '\\')
    (hcontrol : ¬ c.toNat < 0x20) : pieces (c :: rest) = (Piece.char c).before (pieces rest) := by
  rw [pieces.eq_def]
  dsimp only
  rw [if_neg hquote, if_neg hcontrol, if_pos hbackslash]
  rfl

/-- A backslash and a letter are read as the character that the letter stands for.
    -/
theorem pieces_letter {letter c : Char} (rest : List Char) (hletter : letter ≠ 'u')
    (hmeaning : letterMeanings.lookup letter = some c) :
    pieces ('\\' :: letter :: rest) = (Piece.char c).before (pieces rest) := by
  rw [pieces.eq_def]
  dsimp only
  rw [if_neg (by decide), if_neg (by decide), if_neg (by decide), if_neg hletter, hmeaning]
  rfl

/-- A backslash, the letter of numbers and four digits are read as one unit. -/
theorem pieces_unit {a b c d : Char} {n : Nat} (rest : List Char)
    (hunit : hexUnit a b c d = some n) :
    pieces ('\\' :: 'u' :: a :: b :: c :: d :: rest) = (Piece.unit n).before (pieces rest) := by
  rw [pieces.eq_def]
  dsimp only
  rw [if_neg (by decide), if_neg (by decide), if_neg (by decide), if_pos rfl, hunit]
  rfl

/-! ## What is written for a character -/

/-- The piece that a character is written as. -/
def pieceOf (c : Char) : Piece :=
  if letterEscapes.lookup c = none ∧ c.toNat < 0x20 then .unit c.toNat else .char c

/-- The letter of an escape stands for the character that is escaped, and is
    not the one that announces a number. -/
theorem meaning_of_escape {c letter : Char} (h : letterEscapes.lookup c = some letter) :
    letter ≠ 'u' ∧ letterMeanings.lookup letter = some c := by
  have hall : ∀ e ∈ letterEscapes, e.2 ≠ 'u' ∧ letterMeanings.lookup e.2 = some e.1 := by decide
  obtain ⟨before, after, hsplit, -⟩ := List.lookup_eq_some_iff.mp h
  exact hall (c, letter) (by rw [hsplit]; simp)

/-- The four digits of a control character give its number. -/
theorem hexUnit_digits {n : Nat} (h : n < 0x20) :
    hexUnit '0' '0' (n / 16).digitChar (n % 16).digitChar = some n := by
  have hall : ∀ n < 0x20,
      hexUnit '0' '0' (n / 16).digitChar (n % 16).digitChar = some n := by decide
  exact hall n h

/-- What is written for a character is read as its piece, whatever follows. -/
theorem pieces_escape (c : Char) (rest : List Char) :
    pieces (escape c ++ rest) = (pieceOf c).before (pieces rest) := by
  rw [escape, pieceOf]
  cases hletter : letterEscapes.lookup c with
  | some letter =>
      obtain ⟨hu, hmeaning⟩ := meaning_of_escape hletter
      dsimp only
      rw [if_neg fun h => nomatch h.1]
      exact pieces_letter rest hu hmeaning
  | none =>
      dsimp only
      by_cases hcontrol : c.toNat < 0x20
      · rw [if_pos hcontrol, if_pos ⟨rfl, hcontrol⟩]
        exact pieces_unit rest (hexUnit_digits hcontrol)
      · -- a quote and a backslash would have been escaped
        have hquote : c ≠ '"' := by
          rintro rfl
          exact absurd hletter (by decide)
        have hbackslash : c ≠ '\\' := by
          rintro rfl
          exact absurd hletter (by decide)
        rw [if_neg hcontrol, if_neg fun h => hcontrol h.2]
        exact pieces_plain rest hquote hbackslash hcontrol

/-! ## Whole texts -/

/-- A whole text is read up to the quote that closes it, character by character. -/
theorem pieces_flatMap_escape (cs rest : List Char) :
    pieces (cs.flatMap escape ++ '"' :: rest) = some (cs.map pieceOf, rest) := by
  induction cs with
  | nil => exact pieces_quote rest
  | cons c cs ih =>
      rw [List.flatMap_cons, List.append_assoc, pieces_escape, ih]
      rfl

/-- The pieces of a text spell it. -/
theorem spell_map_pieceOf (cs : List Char) : spell (cs.map pieceOf) = some cs := by
  induction cs with
  | nil => rfl
  | cons c cs ih =>
      rw [List.map_cons, pieceOf]
      by_cases hcontrol : letterEscapes.lookup c = none ∧ c.toNat < 0x20
      · have hvalid : c.toNat.isValidChar := c.valid
        rw [if_pos hcontrol, spell.eq_def]
        dsimp only
        rw [if_pos hvalid, ih, Char.ofNat_toNat]
        rfl
      · rw [if_neg hcontrol, spell, ih]
        rfl

/-- **A QUOTED TEXT IS READ BACK** as the text that was quoted. -/
theorem decode_encode (cs : List Char) : decode (encode cs) = some cs := by
  have hstart : (encode cs).dropWhile isSpace = encode cs :=
    List.dropWhile_cons_of_neg (by decide)
  rw [decode, hstart, encode]
  show (do
    let (ps, after) ← pieces (cs.flatMap escape ++ ['"'])
    if after.all isSpace then spell ps else none) = some cs
  rw [pieces_flatMap_escape]
  exact spell_map_pieceOf cs

/-- A string that a quoted text keeps is given back. -/
theorem codec_decode_encode (text : String) : codec.decode (codec.encode text) = some text := by
  show (decode (String.ofList (encode text.toList)).toList).map String.ofList = some text
  rw [String.toList_ofList, decode_encode, Option.map_some, String.ofList_toList]

end PlcTypes.Text.Quoted
