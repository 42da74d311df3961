import Mathlib.Data.List.TakeWhile
import PlcTypes.Text.Basic

/-! # Trimmed texts

    A text is *trimmed* when neither of its ends is a blank.  Trimming gives
    such a text, leaves it alone, and is not impressed by blanks around it:
    those three facts are all that readers and writers need to know of it.

    The second half relates `holds` and `cutAt` to infixes, so that what a
    text does not hold is not held by its trimmed form either. -/

namespace PlcTypes.Text

/-- A text whose first and last characters are no blanks. -/
structure IsTrimmed (cs : List Char) : Prop where
  head : ∀ c, cs.head? = some c → isBlank c = false
  last : ∀ c, cs.getLast? = some c → isBlank c = false

/-! ## Trimming at one end -/

theorem dropWhile_eq_self {p : Char → Bool} {cs : List Char}
    (h : ∀ c, cs.head? = some c → p c = false) : cs.dropWhile p = cs := by
  cases cs with
  | nil => rfl
  | cons c cs =>
      rw [List.dropWhile_cons, if_neg]
      rw [h c rfl]
      exact Bool.false_ne_true

theorem head_dropWhile {p : Char → Bool} {cs : List Char} {c : Char}
    (h : (cs.dropWhile p).head? = some c) : p c = false := by
  have := List.head?_dropWhile_not p cs
  rw [h] at this
  exact this

/-- Nothing is dropped from a character on that stays. -/
theorem dropWhile_append_cons {p : Char → Bool} {c : Char} (hc : p c = false)
    (cs rest : List Char) : (cs ++ c :: rest).dropWhile p = cs.dropWhile p ++ c :: rest := by
  have hstay : (c :: rest).dropWhile p = c :: rest :=
    List.dropWhile_cons_of_neg (by rw [hc]; exact Bool.false_ne_true)
  rw [List.dropWhile_append, hstay]
  split
  · next hnil =>
      rw [List.isEmpty_iff.mp hnil]
      rfl
  · rfl

/-- A text that starts with no blank loses nothing in front. -/
theorem trimStart_eq_self {cs : List Char}
    (h : ∀ c, cs.head? = some c → isBlank c = false) : trimStart cs = cs :=
  dropWhile_eq_self h

/-- A text that ends with no blank loses nothing behind. -/
theorem trimEnd_eq_self {cs : List Char}
    (h : ∀ c, cs.getLast? = some c → isBlank c = false) : trimEnd cs = cs := by
  unfold trimEnd
  rw [dropWhile_eq_self, List.reverse_reverse]
  intro c hc
  rw [List.head?_reverse] at hc
  exact h c hc

/-- Only what stands behind the last solid character can be lost. -/
theorem trimEnd_append_cons {c : Char} (hc : isBlank c = false) (as bs : List Char) :
    trimEnd (as ++ c :: bs) = as ++ c :: trimEnd bs := by
  have hback : (as ++ c :: bs).reverse = bs.reverse ++ c :: as.reverse := by simp
  rw [trimEnd, hback, dropWhile_append_cons hc, List.reverse_append, List.reverse_cons,
    List.reverse_reverse, List.append_assoc]
  rfl

/-- What is lost behind was the end of the text. -/
theorem trimEnd_isPrefix (cs : List Char) : trimEnd cs <+: cs := by
  have h := List.reverse_prefix.mpr (List.dropWhile_suffix isBlank (l := cs.reverse))
  rw [List.reverse_reverse] at h
  exact h

/-! ## Trimming at both ends -/

/-- A trimmed text is left alone. -/
theorem IsTrimmed.trim_eq {cs : List Char} (h : IsTrimmed cs) : trim cs = cs := by
  unfold trim
  rw [trimStart_eq_self h.head, trimEnd_eq_self h.last]

/-- Trimming gives a trimmed text. -/
theorem isTrimmed_trim (cs : List Char) : IsTrimmed (trim cs) := by
  constructor
  · intro c hc
    obtain ⟨post, hpost⟩ := trimEnd_isPrefix (trimStart cs)
    have hhead : (trimStart cs).head? = some c := by
      rw [← hpost]
      rw [List.head?_append]
      show ((trim cs).head?).or post.head? = some c
      rw [hc]
      rfl
    exact head_dropWhile hhead
  · intro c hc
    unfold trim trimEnd at hc
    rw [List.getLast?_reverse] at hc
    exact head_dropWhile hc

/-- Trimmed texts are those that trimming leaves as they are. -/
theorem trim_eq_self_iff {cs : List Char} : trim cs = cs ↔ IsTrimmed cs := by
  constructor
  · intro h
    rw [← h]
    exact isTrimmed_trim cs
  · exact IsTrimmed.trim_eq

@[simp] theorem trim_trim (cs : List Char) : trim (trim cs) = trim cs :=
  (isTrimmed_trim cs).trim_eq

/-- Blanks in front are trimmed away. -/
theorem trim_append_left {pre : List Char} (h : ∀ c ∈ pre, isBlank c = true)
    (cs : List Char) : trim (pre ++ cs) = trim cs := by
  unfold trim trimStart
  rw [List.dropWhile_append_of_pos h]

/-- Blanks behind are trimmed away. -/
theorem trim_append_right {post : List Char} (h : ∀ c ∈ post, isBlank c = true)
    (cs : List Char) : trim (cs ++ post) = trim cs := by
  have hend : ∀ ds, trimEnd (ds ++ post) = trimEnd ds := by
    intro ds
    rw [trimEnd, trimEnd, List.reverse_append, List.dropWhile_append_of_pos]
    exact fun c hc => h c (List.mem_reverse.mp hc)
  have hpost : trimStart post = [] := List.dropWhile_eq_nil_iff.mpr h
  rw [trim, trim, trimStart, List.dropWhile_append]
  split
  · next hnil =>
      rw [List.isEmpty_iff] at hnil
      show trimEnd (trimStart post) = trimEnd (cs.dropWhile isBlank)
      rw [hpost, hnil]
  · exact hend _

/-- A blank in front makes no difference. -/
theorem trim_cons_of_blank {c : Char} (h : isBlank c = true) (cs : List Char) :
    trim (c :: cs) = trim cs := by
  have hpre : ∀ d ∈ [c], isBlank d = true := by simpa using h
  exact trim_append_left hpre cs

/-- Trimming the front first makes no difference. -/
theorem trim_trimStart (cs : List Char) : trim (trimStart cs) = trim cs := by
  have hstart : trimStart (trimStart cs) = trimStart cs :=
    trimStart_eq_self fun c hc => head_dropWhile hc
  rw [trim, trim, hstart]

/-- Trimming the end first makes no difference. -/
theorem trim_trimEnd (cs : List Char) : trim (trimEnd cs) = trim cs := by
  have hblank : ∀ c ∈ (cs.reverse.takeWhile isBlank).reverse, isBlank c = true :=
    fun c hc => List.mem_takeWhile_imp (List.mem_reverse.mp hc)
  have hsplit : trimEnd cs ++ (cs.reverse.takeWhile isBlank).reverse = cs := by
    rw [trimEnd, ← List.reverse_append, List.takeWhile_append_dropWhile, List.reverse_reverse]
  rw [← trim_append_right hblank, hsplit]

/-- What is trimmed is a part of the text. -/
theorem trim_isInfix (cs : List Char) : trim cs <:+: cs :=
  (trimEnd_isPrefix _).isInfix.trans (List.dropWhile_suffix _).isInfix

theorem mem_of_mem_trim {c : Char} {cs : List Char} (h : c ∈ trim cs) : c ∈ cs :=
  (trim_isInfix cs).subset h

/-- A solid character is not lost in front. -/
theorem mem_trimStart {c : Char} {cs : List Char} (h : c ∈ cs) (hc : isBlank c = false) :
    c ∈ trimStart cs := by
  rw [← List.takeWhile_append_dropWhile (p := isBlank) (l := cs), List.mem_append] at h
  rcases h with h | h
  · rw [List.mem_takeWhile_imp h] at hc
    exact Bool.noConfusion hc
  · exact h

/-- What is no blank is not trimmed away. -/
theorem mem_trim {c : Char} {cs : List Char} (h : c ∈ cs) (hc : isBlank c = false) :
    c ∈ trim cs := by
  have hback := mem_trimStart (List.mem_reverse.mpr (mem_trimStart h hc)) hc
  exact List.mem_reverse.mpr hback

theorem isTrimmed_nil : IsTrimmed [] := ⟨nofun, nofun⟩

/-- A text without blanks is trimmed. -/
theorem isTrimmed_of_blankless {cs : List Char} (h : ∀ c ∈ cs, isBlank c = false) :
    IsTrimmed cs :=
  ⟨fun c hc => h c (List.mem_of_head? hc), fun c hc => h c (List.mem_of_getLast? hc)⟩

/-- Two texts make a trimmed one if the outer ends are no blanks. -/
theorem isTrimmed_append {as bs : List Char} (ha : as ≠ []) (hb : bs ≠ [])
    (hhead : ∀ c, as.head? = some c → isBlank c = false)
    (hlast : ∀ c, bs.getLast? = some c → isBlank c = false) : IsTrimmed (as ++ bs) := by
  constructor
  · intro c hc
    cases as with
    | nil => exact absurd rfl ha
    | cons a as => exact hhead c hc
  · intro c hc
    rw [List.getLast?_append, List.getLast?_eq_some_getLast hb] at hc
    rw [Option.some_or, ← List.getLast?_eq_some_getLast hb] at hc
    exact hlast c hc

@[simp] theorem toList_trimmed (s : String) : (trimmed s).toList = trim s.toList :=
  String.toList_ofList

/-- A trimmed string is left as it is. -/
theorem trimmed_eq_self {s : String} (h : IsTrimmed s.toList) : trimmed s = s := by
  unfold trimmed
  rw [h.trim_eq, String.ofList_toList]

/-! ## Marks in a text -/

/-- A text holds a mark when the mark is a part of it. -/
theorem holds_iff {mark cs : List Char} : holds mark cs = true ↔ mark <:+: cs := by
  unfold holds
  induction cs with
  | nil =>
      cases mark with
      | nil => simp [cutAt]
      | cons m mark => simp [cutAt]
  | cons c cs ih =>
      unfold cutAt
      by_cases h : mark.isPrefixOf (c :: cs) = true
      · rw [if_pos h]
        have hpre := List.isPrefixOf_iff_prefix.mp h
        exact ⟨fun _ => hpre.isInfix, fun _ => rfl⟩
      · rw [if_neg h, Option.isSome_map, ih, List.infix_cons_iff]
        constructor
        · exact Or.inr
        · rintro (hpre | hin)
          · have htrue := List.isPrefixOf_iff_prefix.mpr hpre
            exact absurd htrue h
          · exact hin

/-- A part of a text holds nothing that the text does not hold. -/
theorem holds_of_isInfix {mark as bs : List Char} (h : as <:+: bs)
    (hb : holds mark bs = false) : holds mark as = false := by
  cases has : holds mark as with
  | false => rfl
  | true =>
      have := holds_iff.mpr ((holds_iff.mp has).trans h)
      rw [hb] at this
      exact absurd this Bool.false_ne_true

/-- A text is cut at the first mark: before it the mark does not start. -/
theorem cutAt_append {m : Char} {mark before : List Char} (h : m ∉ before)
    (after : List Char) :
    cutAt (m :: mark) (before ++ (m :: mark ++ after)) = some (before, after) := by
  induction before with
  | nil =>
      show cutAt (m :: mark) (m :: (mark ++ after)) = some ([], after)
      rw [cutAt, if_pos (by simp)]
      simp
  | cons c before ih =>
      have hc : m ≠ c := fun heq => h (by simp [heq])
      rw [List.cons_append, cutAt, if_neg (by simp [hc]), ih fun hm => h (by simp [hm])]
      rfl

end PlcTypes.Text
