import PlcTypes.Proofs.Name
import PlcTypes.Text.Lines

/-! # Lines of a text

    Lines that hold no line feed and do not end in a carriage return are
    found again in the text that is made of them.  The other way round, no
    line of any source, be it text or bytes, holds a line feed: for bytes,
    because only the byte `0x0A` is read as one. -/

namespace PlcTypes.Text

/-! ## Writing lines and cutting them again -/

/-- A line that can be written and cut again: it holds no line feed, and no
    carriage return that would be taken for a part of its ending. -/
structure IsLine (cs : List Char) : Prop where
  unbroken : '\n' ∉ cs
  unreturned : cs.getLast? ≠ some '\r'

/-- A text is a line when it has no line feed and does not end in a blank. -/
theorem IsTrimmed.isLine {cs : List Char} (h : IsTrimmed cs) (hn : '\n' ∉ cs) :
    IsLine cs :=
  ⟨hn, fun hr => absurd (h.last _ hr) (by decide)⟩

/-- Cutting gives back lines that end in a line feed, or in more that is
    dropped with it. -/
theorem cutLines_ended {ending : List Char} {lines : List (List Char)}
    (h : ∀ l ∈ lines, '\n' ∉ l ++ ending ∧ dropReturn '\r' (l ++ ending) = l) :
    cutLines '\n' '\r' (lines.flatMap fun l => l ++ ending ++ ['\n']) = lines := by
  unfold cutLines
  induction lines with
  | nil => rfl
  | cons l lines ih =>
      obtain ⟨hn, hdrop⟩ := h l List.mem_cons_self
      rw [List.flatMap_cons, List.append_assoc, List.singleton_append,
        List.splitOn_append_cons_self_of_not_mem hn]
      -- a line feed is followed by one more piece, perhaps an empty one
      cases hrest : (lines.flatMap fun l => l ++ ending ++ ['\n']).splitOn '\n' with
      | nil => exact absurd hrest (List.splitOn_ne_nil _ _)
      | cons next more =>
          rw [endPieces, hdrop, ← hrest, ih fun m hm => h m (List.mem_cons_of_mem l hm)]

/-- Cutting gives the lines back. -/
theorem cutLines_flatMap {lines : List (List Char)} (h : ∀ l ∈ lines, IsLine l) :
    cutLines '\n' '\r' (lines.flatMap fun l => l ++ ['\n']) = lines := by
  have hended : ∀ l ∈ lines, '\n' ∉ l ++ [] ∧ dropReturn '\r' (l ++ []) = l := by
    intro l hl
    obtain ⟨hn, hr⟩ := h l hl
    rw [List.append_nil, dropReturn, if_neg]
    · exact ⟨hn, rfl⟩
    · simpa using hr
  simpa using cutLines_ended hended

/-- Lines are written one after the other, each with a line feed behind it. -/
theorem toList_ofLines (lines : List String) :
    (ofLines lines).toList = (lines.map String.toList).flatMap fun l => l ++ ['\n'] := by
  unfold ofLines
  rw [String.toList_join, List.flatMap_map, List.flatMap_map]
  congr 1
  funext l
  exact String.toList_append

/-- The lines of a text that was made of lines are those lines. -/
theorem linesOfText_ofLines {lines : List String} (h : ∀ l ∈ lines, IsLine l.toList) :
    linesOfText (ofLines lines) = lines.map Line.text := by
  have h' : ∀ l ∈ lines.map String.toList, IsLine l := by
    intro l hl
    obtain ⟨s, hs, rfl⟩ := List.mem_map.mp hl
    exact h s hs
  unfold linesOfText
  rw [toList_ofLines, cutLines_flatMap h', List.map_map]
  refine List.map_congr_left fun s _ => ?_
  show Line.text (String.ofList s.toList) = Line.text s
  rw [String.ofList_toList]

/-! ## No line holds a line feed -/

/-- Ending pieces adds nothing to them. -/
theorem mem_of_mem_endPieces {α : Type} [BEq α] {cr : α} {pieces : List (List α)} {x : α} :
    ∀ xs ∈ endPieces cr pieces, x ∈ xs → ∃ p ∈ pieces, x ∈ p := by
  induction pieces with
  | nil => intro xs hxs; exact nomatch hxs
  | cons piece pieces ih =>
      intro xs hxs hx
      cases pieces with
      | nil =>
          rw [endPieces] at hxs
          split at hxs
          · exact nomatch hxs
          · rw [List.mem_singleton.mp hxs] at hx
            exact ⟨piece, by simp, hx⟩
      | cons next more =>
          rw [endPieces] at hxs
          rcases List.mem_cons.mp hxs with rfl | hxs
          · refine ⟨piece, by simp, ?_⟩
            unfold dropReturn at hx
            split at hx
            · exact List.dropLast_subset _ hx
            · exact hx
          · obtain ⟨p, hp, hxp⟩ := ih xs hxs hx
            exact ⟨p, by simp [hp], hxp⟩

/-- Lines are cut at the line feeds, so none holds one. -/
theorem not_mem_of_mem_cutLines {α : Type} [BEq α] [LawfulBEq α] {lf cr : α}
    {xs line : List α} (h : line ∈ cutLines lf cr xs) : lf ∉ line := by
  intro hlf
  obtain ⟨p, hp, hlf⟩ := mem_of_mem_endPieces line h hlf
  have := eq_false_of_mem_splitOnP p hp lf hlf
  simp at this

theorem Utf8.toNat_ofNat {n : Nat} (h : n.isValidChar) : (Char.ofNat n).toNat = n := by
  rw [Char.ofNat, dif_pos h]
  rfl

/-- A character that is spelled by more than one byte is no line feed. -/
theorem Utf8.ne_of_character {least point : Nat} {c : Char}
    (h : character least point = some c) (hleast : 0x80 ≤ least) : c ≠ '\n' := by
  unfold character at h
  by_cases hp : least ≤ point ∧ point.isValidChar
  · rw [if_pos hp] at h
    obtain rfl := Option.some.inj h
    intro hc
    have h10 : (Char.ofNat point).toNat = 10 := congrArg Char.toNat hc
    rw [toNat_ofNat hp.2] at h10
    omega
  · rw [if_neg hp] at h
    exact nomatch h

/-- Only the byte of a line feed is read as a line feed. -/
theorem Utf8.mem_of_decode {bytes : List UInt8} {cs : List Char}
    (h : decode bytes = some cs) (hn : '\n' ∈ cs) : 10 ∈ bytes := by
  fun_induction decode bytes generalizing cs with
  | case1 =>
      obtain rfl := Option.some.inj h
      exact nomatch hn
  | case2 a rest ha ih =>
      -- one byte spells the character with its number
      obtain ⟨more, hmore, rfl⟩ := Option.map_eq_some_iff.mp h
      rcases List.mem_cons.mp hn with hc | hn
      · have hv : a.toNat.isValidChar := Or.inl (by omega)
        have h10 : 10 = (Char.ofNat a.toNat).toNat := congrArg Char.toNat hc
        rw [toNat_ofNat hv] at h10
        exact List.mem_cons.mpr (Or.inl (UInt8.toNat_inj.mp h10))
      · exact List.mem_cons_of_mem _ (ih hmore hn)
  -- two, three and four bytes: what they spell is at least 0x80
  | case5 a ha b rest hb hc ih =>
      simp only [Option.bind_eq_bind, Option.bind_eq_some_iff, Option.map_eq_some_iff] at h
      obtain ⟨x, -, c, hchar, more, hmore, rfl⟩ := h
      rcases List.mem_cons.mp hn with rfl | hn
      · exact absurd rfl (ne_of_character hchar (by omega))
      · simp [ih hmore hn]
  | case7 a ha b hb hc b' rest hd ih =>
      simp only [Option.bind_eq_bind, Option.bind_eq_some_iff, Option.map_eq_some_iff] at h
      obtain ⟨x, -, y, -, c, hchar, more, hmore, rfl⟩ := h
      rcases List.mem_cons.mp hn with rfl | hn
      · exact absurd rfl (ne_of_character hchar (by omega))
      · simp [ih hmore hn]
  | case9 a ha b hb hc b' hd b'' rest he ih =>
      simp only [Option.bind_eq_bind, Option.bind_eq_some_iff, Option.map_eq_some_iff] at h
      obtain ⟨x, -, y, -, z, -, c, hchar, more, hmore, rfl⟩ := h
      rcases List.mem_cons.mp hn with rfl | hn
      · exact absurd rfl (ne_of_character hchar (by omega))
      · simp [ih hmore hn]
  | case3 | case4 | case6 | case8 | case10 => exact nomatch h

/-- A sequence of lines none of which holds a line feed. -/
def Unbroken (lines : List Line) : Prop :=
  ∀ s, Line.text s ∈ lines → '\n' ∉ s.toList

/-- The lines of a text are unbroken. -/
theorem unbroken_linesOfText (s : String) : Unbroken (linesOfText s) := by
  intro l hl
  obtain ⟨cs, hcs, heq⟩ := List.mem_map.mp hl
  obtain rfl := Line.text.inj heq
  rw [String.toList_ofList]
  exact not_mem_of_mem_cutLines hcs

/-- The lines of bytes are unbroken: a line feed is written with its own byte and
    no other character with it. -/
theorem unbroken_linesOfBytes (bytes : List UInt8) : Unbroken (linesOfBytes bytes) := by
  intro l hl
  obtain ⟨piece, hpiece, heq⟩ := List.mem_map.mp hl
  unfold Line.ofBytes at heq
  cases hdecode : Utf8.decode piece with
  | none =>
      rw [hdecode] at heq
      exact nomatch heq
  | some cs =>
      rw [hdecode] at heq
      obtain rfl := Line.text.inj heq
      rw [String.toList_ofList]
      exact fun hn => not_mem_of_mem_cutLines hpiece (Utf8.mem_of_decode hdecode hn)


/-! ## Any lines are those of a text -/

/-- Lines of text, none of which holds a line feed. -/
def AreText (lines : List Line) : Prop :=
  ∀ l ∈ lines, ∃ s, l = .text s ∧ '\n' ∉ s.toList

/-- The lines of a text are text. -/
theorem areText_linesOfText (s : String) : AreText (linesOfText s) := by
  intro l hl
  obtain ⟨cs, hcs, rfl⟩ := List.mem_map.mp hl
  refine ⟨_, rfl, ?_⟩
  rw [String.toList_ofList]
  exact not_mem_of_mem_cutLines hcs

/-- Ended in a carriage return and a line feed, any lines are found again, also
    those that end in a carriage return themselves. -/
theorem AreText.exists_text {lines : List Line} (h : AreText lines) :
    ∃ s, linesOfText s = lines := by
  have hcut : ∃ pieces : List (List Char), lines = pieces.map (fun cs => .text (String.ofList cs)) ∧
      ∀ cs ∈ pieces, '\n' ∉ cs := by
    induction lines with
    | nil => exact ⟨[], rfl, nofun⟩
    | cons l lines ih =>
        obtain ⟨s, rfl, hs⟩ := h l List.mem_cons_self
        obtain ⟨pieces, rfl, hpieces⟩ := ih fun m hm => h m (List.mem_cons_of_mem _ hm)
        refine ⟨s.toList :: pieces, ?_, List.forall_mem_cons.mpr ⟨hs, hpieces⟩⟩
        rw [List.map_cons, String.ofList_toList]
  obtain ⟨pieces, rfl, hpieces⟩ := hcut
  refine ⟨String.ofList (pieces.flatMap fun cs => cs ++ ['\r'] ++ ['\n']), ?_⟩
  rw [linesOfText, String.toList_ofList, cutLines_ended]
  intro cs hcs
  refine ⟨?_, ?_⟩
  · simp [hpieces cs hcs]
  · rw [dropReturn, List.getLast?_concat, if_pos (by decide), List.dropLast_concat]

end PlcTypes.Text
