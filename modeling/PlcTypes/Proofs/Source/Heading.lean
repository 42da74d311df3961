import PlcTypes.Proofs.Source.Definition

/-! # Finding the heading

    A source starts with blank lines, if any, and then the heading.  Finding
    it looks at these lines only: what follows a heading is handed on as it
    is, and what follows a line that is no heading is not looked at. -/

namespace PlcTypes

open Text

namespace Heading

/-- Without a mark at its start a line is only trimmed. -/
theorem clean_of_unmarked {s : String} (h : (trim s.toList).head? ≠ some '\uFEFF') :
    clean s = trim s.toList := by
  rw [clean, dropWhile_eq_self]
  intro c hc
  rw [beq_eq_false_iff_ne]
  rintro rfl
  -- a mark is no blank, so it would still stand at the start
  obtain ⟨cs, hcs⟩ := List.head?_eq_some_iff.mp hc
  refine h ?_
  have hstart : trimStart ('\uFEFF' :: cs) = [] ++ '\uFEFF' :: cs :=
    trimStart_eq_self fun d hd => by
      rw [← Option.some.inj hd]
      decide
  rw [hcs, trim, hstart, trimEnd_append_cons (by decide)]
  rfl

/-- Blank lines before a heading are passed over. -/
theorem find_blanks {blanks : List String} (hblanks : ∀ b ∈ blanks, trim b.toList = [])
    (n : Nat) (rest : List Line) :
    find n (blanks.map Line.text ++ rest) = find (n + blanks.length) rest := by
  induction blanks generalizing n with
  | nil => rfl
  | cons b blanks ih =>
      have hb : (trim b.toList).isEmpty = true := by
        rw [hblanks b List.mem_cons_self]
        rfl
      rw [List.map_cons, List.cons_append, find, if_pos hb,
        ih fun c hc => hblanks c (List.mem_cons_of_mem b hc), List.length_cons]
      congr 1
      omega

/-- The first line that is not blank is the heading, or there is none. -/
theorem find_text {s : String} (hs : trim s.toList ≠ []) (n : Nat) (rest : List Line) :
    find n (.text s :: rest) = ofText (n + 1) s rest := by
  rw [find, if_neg]
  rw [List.isEmpty_iff]
  exact hs

/-- A source is blank lines and then nothing, or a line that is not blank. -/
theorem exists_blanks (lines : List Line) :
    ∃ (blanks : List String) (tail : List Line), lines = blanks.map Line.text ++ tail ∧
      (∀ b ∈ blanks, trim b.toList = []) ∧
        ∀ s rest, tail = .text s :: rest → trim s.toList ≠ [] := by
  induction lines with
  | nil => exact ⟨[], [], rfl, nofun, nofun⟩
  | cons line lines ih =>
      cases line with
      | unreadable fault => exact ⟨[], .unreadable fault :: lines, rfl, nofun, nofun⟩
      | text s =>
          by_cases hs : trim s.toList = []
          · obtain ⟨blanks, tail, rfl, hblanks, htail⟩ := ih
            exact ⟨s :: blanks, tail, rfl, List.forall_mem_cons.mpr ⟨hs, hblanks⟩, htail⟩
          · refine ⟨[], .text s :: lines, rfl, nofun, ?_⟩
            intro s' rest hrest
            obtain ⟨hline, -⟩ := List.cons.inj hrest
            rw [← Line.text.inj hline]
            exact hs

/-- A heading line is read in the same way wherever it stands. -/
theorem ofText_eq_bare (n : Nat) (s : String) (rest : List Line) :
    ofText n s rest = (ofText 0 s []).map fun h => { h with line := n, rest } := by
  rw [ofText, ofText]
  cases Grammar.heading? (clean s) with
  | none => rfl
  | some found =>
      obtain ⟨title, comment⟩ := found
      dsimp only
      cases nameOf (String.ofList title) with
      | error e => rfl
      | ok name => rfl

/-- In particular whatever follows it. -/
theorem ofText_eq (n : Nat) (s : String) (rest : List Line) :
    ofText n s rest = (ofText n s []).map fun h => { h with rest } := by
  rw [ofText_eq_bare n s rest, ofText_eq_bare n s []]
  cases ofText 0 s [] with
  | error e => rfl
  | ok h => rfl

/-- What a heading line says is in the heading. -/
theorem ofText_eq_ok {n : Nat} {s : String} {rest : List Line} {h : Heading}
    (hs : ofText n s rest = .ok h) :
    h.line = n ∧ h.rest = rest ∧ (Grammar.heading? (clean s)).isSome = true := by
  rw [ofText] at hs
  cases hfound : Grammar.heading? (clean s) with
  | none =>
      rw [hfound] at hs
      exact nomatch hs
  | some found =>
      rw [hfound] at hs
      obtain ⟨name, -, hs⟩ := bind_eq_ok.mp hs
      obtain rfl := Except.ok.inj hs
      exact ⟨rfl, rfl, rfl⟩

/-- A heading stands behind blank lines, and is found there whatever follows
    it. -/
theorem exists_front_of_find {n : Nat} {lines : List Line} {h : Heading}
    (hfound : find n lines = .ok h) :
    ∃ (blanks : List String) (s : String),
      lines = (blanks ++ [s]).map Line.text ++ h.rest ∧ h.line = n + blanks.length + 1 ∧
        (∀ b ∈ blanks, trim b.toList = []) ∧ (Grammar.heading? (clean s)).isSome = true ∧
          ∀ rest, find n ((blanks ++ [s]).map Line.text ++ rest) = .ok { h with rest } := by
  obtain ⟨blanks, tail, rfl, hblanks, htail⟩ := exists_blanks lines
  rw [find_blanks hblanks] at hfound
  cases tail with
  | nil => exact nomatch hfound
  | cons line rest =>
      cases line with
      | unreadable fault => exact nomatch hfound
      | text s =>
          have hs := htail s rest rfl
          rw [find_text hs] at hfound
          obtain ⟨hline, hrest, hheading⟩ := ofText_eq_ok hfound
          refine ⟨blanks, s, ?_, hline, hblanks, hheading, ?_⟩
          · rw [hrest, List.map_append, List.append_assoc]
            rfl
          · intro rest'
            rw [List.map_append, List.append_assoc, find_blanks hblanks]
            show find _ (.text s :: rest') = _
            rw [ofText_eq] at hfound
            rw [find_text hs, ofText_eq]
            cases hbare : ofText (n + blanks.length + 1) s [] with
            | error e =>
                rw [hbare] at hfound
                exact nomatch hfound
            | ok bare =>
                rw [hbare] at hfound
                obtain rfl := Except.ok.inj hfound
                rfl

end Heading

end PlcTypes
