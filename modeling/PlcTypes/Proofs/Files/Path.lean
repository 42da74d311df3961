import PlcTypes.Files.Path
import PlcTypes.Proofs.Name

/-! # What joining and taking the parent do to components

    Only the components that are not idle lead from one directory to another.
    The parent of a path has those of the path but the last, and joining a name
    to a directory puts the components of the name after those of the
    directory.  Both start where the path that they are made from starts. -/

namespace PlcTypes.Path

/-- The components that are not idle. -/
def solid (cs : List (List Char)) : List (List Char) :=
  cs.filter fun c => !isIdle c

theorem solid_append (as bs : List (List Char)) : solid (as ++ bs) = solid as ++ solid bs :=
  List.filter_append ..

theorem solid_cons_of_idle {c : List Char} (h : isIdle c = true) (cs : List (List Char)) :
    solid (c :: cs) = solid cs :=
  List.filter_cons_of_neg (by simp [h])

theorem solid_cons {c : List Char} (h : isIdle c = false) (cs : List (List Char)) :
    solid (c :: cs) = c :: solid cs :=
  List.filter_cons_of_pos (by simp [h])

/-- Idle components alone lead nowhere. -/
theorem solid_eq_nil {cs : List (List Char)} (h : ∀ c ∈ cs, isIdle c = true) : solid cs = [] := by
  refine List.filter_eq_nil_iff.mpr fun c hc => ?_
  rw [h c hc]
  exact Bool.false_ne_true

/-- A slash separates the components before it from those after it. -/
theorem components_append_slash (cs ds : List Char) :
    components (cs ++ '/' :: ds) = components cs ++ components ds :=
  List.splitOn_append_cons_self cs ds

/-- A slash at the start leads nowhere. -/
theorem solid_components_slash (cs : List Char) :
    solid (components ('/' :: cs)) = solid (components cs) := by
  have h := components_append_slash [] cs
  rw [List.nil_append] at h
  rw [h, solid_append]
  rfl

/-! ## Components joined by slashes -/

/-- Components that are joined by slashes are found again. -/
theorem solid_components_intercalate {cs : List (List Char)} (h : ∀ c ∈ cs, '/' ∉ c) :
    solid (components (['/'].intercalate cs)) = solid cs := by
  by_cases hnil : cs = []
  · rw [hnil]
    rfl
  · unfold components
    rw [List.splitOn_intercalate '/' h hnil]

/-- What the first components spell is the start of what all of them spell. -/
theorem intercalate_prefix (as bs : List (List Char)) :
    ['/'].intercalate as <+: ['/'].intercalate (as ++ bs) := by
  induction as with
  | nil => exact List.nil_prefix
  | cons a as ih =>
      by_cases has : as = []
      · rw [has, List.intercalate_singleton]
        cases bs with
        | nil => exact ⟨[], by simp⟩
        | cons b bs =>
            rw [List.singleton_append, List.intercalate_cons_cons, List.append_assoc]
            exact List.prefix_append ..
      · rw [List.intercalate_cons_of_ne_nil has, List.cons_append,
          List.intercalate_cons_of_ne_nil (by simp [has])]
        exact (List.prefix_append_right_inj _).mpr ih

/-! ## The fixed head of a path -/

/-- The head and the body of a path make the path, and there are three heads. -/
theorem splitHead_cases {cs head body : List Char} (h : splitHead cs = (head, body)) :
    head ++ body = cs ∧
      (head = ['/'] ∨ (head = ['.'] ∧ (body = [] ∨ isAbsolute body = true)) ∨
        (head = [] ∧ isAbsolute body = false)) := by
  fun_cases splitHead cs with
  | case1 cs =>
      obtain ⟨rfl, rfl⟩ := Prod.mk.inj h
      exact ⟨rfl, Or.inl rfl⟩
  | case2 =>
      obtain ⟨rfl, rfl⟩ := Prod.mk.inj h
      exact ⟨rfl, Or.inr (Or.inl ⟨rfl, Or.inl rfl⟩)⟩
  | case3 cs =>
      obtain ⟨rfl, rfl⟩ := Prod.mk.inj h
      exact ⟨rfl, Or.inr (Or.inl ⟨rfl, Or.inr rfl⟩)⟩
  | case4 cs hslash hdot hdots =>
      rw [splitHead.eq_4 cs hslash hdot hdots] at h
      obtain ⟨rfl, rfl⟩ := Prod.mk.inj h
      refine ⟨rfl, Or.inr (Or.inr ⟨rfl, ?_⟩)⟩
      cases cs with
      | nil => rfl
      | cons c cs =>
          have hc : c ≠ '/' := fun hc => hslash cs (by rw [hc])
          simpa [isAbsolute] using hc

/-- A start of a path begins where the path does, unless it is empty. -/
theorem isAbsolute_of_prefix {cs ds : List Char} (h : cs <+: ds) :
    cs = [] ∨ isAbsolute cs = isAbsolute ds := by
  obtain ⟨rest, rfl⟩ := h
  cases cs with
  | nil => exact Or.inl rfl
  | cons c cs => exact Or.inr rfl

/-- The start of a body after the head of its path leads where it leads alone,
    from where the path starts. -/
theorem solid_components_head {cs head body start : List Char}
    (hsplit : splitHead cs = (head, body)) (hstart : start <+: body) :
    solid (components (head ++ start)) = solid (components start) ∧
      isAbsolute (head ++ start) = isAbsolute cs := by
  obtain ⟨rfl, hhead⟩ := splitHead_cases hsplit
  rcases hhead with rfl | ⟨rfl, hbody⟩ | ⟨rfl, hrelative⟩
  · exact ⟨solid_components_slash start, rfl⟩
  · refine ⟨?_, rfl⟩
    -- what follows the dot is nothing or a slash
    cases start with
    | nil => rfl
    | cons c start =>
        have hc : isAbsolute (c :: start) = true := by
          rcases isAbsolute_of_prefix hstart with hnil | habsolute
          · exact nomatch hnil
          · rcases hbody with rfl | hbody
            · exact absurd (List.prefix_nil.mp hstart) (by simp)
            · rw [habsolute, hbody]
        obtain rfl : c = '/' := by simpa [isAbsolute] using hc
        rw [components_append_slash, solid_append, solid_components_slash]
        rfl
  · refine ⟨rfl, ?_⟩
    rcases isAbsolute_of_prefix hstart with rfl | habsolute
    · exact hrelative.symm
    · exact habsolute

/-! ## The parent of a path -/

/-- Dropping idle components at the end of a path drops nothing else. -/
theorem solid_reverse_dropWhile (cs : List (List Char)) :
    solid (cs.dropWhile isIdle).reverse = solid cs.reverse ∧
      (cs.dropWhile isIdle).reverse <+: cs.reverse := by
  have hcs : cs.reverse = (cs.dropWhile isIdle).reverse ++ (cs.takeWhile isIdle).reverse := by
    rw [← List.reverse_append, List.takeWhile_append_dropWhile]
  have hidle : solid (cs.takeWhile isIdle).reverse = [] :=
    solid_eq_nil fun c hc => List.all_eq_true.mp List.all_takeWhile c (List.mem_reverse.mp hc)
  rw [hcs, solid_append, hidle, List.append_nil]
  exact ⟨rfl, List.prefix_append ..⟩

/-- **THE PARENT** of a path has the components of the path but the last, idle
    ones apart, and starts where the path starts. -/
theorem solid_components_parent (p : Path) (h : solid (components p.text.toList) ≠ []) :
    solid (components p.parent.text.toList) = (solid (components p.text.toList)).dropLast ∧
      isAbsolute p.parent.text.toList = isAbsolute p.text.toList := by
  obtain ⟨head, body, hsplit⟩ : ∃ head body, splitHead p.text.toList = (head, body) :=
    ⟨_, _, rfl⟩
  have hbody : solid (components p.text.toList) = solid (components body) := by
    rw [← (splitHead_cases hsplit).1]
    exact (solid_components_head hsplit (List.prefix_refl body)).1
  obtain ⟨hsolid, hprefix⟩ := solid_reverse_dropWhile (components body).reverse
  rw [List.reverse_reverse] at hsolid hprefix
  rw [hbody, ← hsolid] at h ⊢
  unfold parent
  rw [hsplit]
  dsimp only
  cases hdrop : (components body).reverse.dropWhile isIdle with
  | nil =>
      rw [hdrop] at h
      exact absurd rfl h
  | cons last others =>
      rw [hdrop] at hprefix
      obtain ⟨hkept, hstart⟩ := solid_reverse_dropWhile others
      rw [List.reverse_cons] at hprefix ⊢
      -- the component that is dropped is not idle
      have hlast : isIdle last = false := by
        have hhead := List.head?_dropWhile_not isIdle (components body).reverse
        rw [hdrop] at hhead
        exact hhead
      have hothers := hstart.trans ((List.prefix_append ..).trans hprefix)
      have hslash : ∀ c ∈ (others.dropWhile isIdle).reverse, '/' ∉ c := by
        intro c hc hmem
        have hfree := eq_false_of_mem_splitOnP c (hothers.subset hc) '/' hmem
        exact absurd hfree (by decide)
      have htext : ['/'].intercalate (others.dropWhile isIdle).reverse <+: body := by
        obtain ⟨more, hmore⟩ := hothers
        have hjoined := intercalate_prefix (others.dropWhile isIdle).reverse more
        rw [hmore] at hjoined
        rwa [components, List.intercalate_splitOn] at hjoined
      obtain ⟨hcomponents, habsolute⟩ := solid_components_head hsplit htext
      dsimp only
      rw [String.toList_ofList, hcomponents, solid_components_intercalate hslash, hkept,
        solid_append]
      refine ⟨?_, habsolute⟩
      rw [solid_cons hlast]
      exact List.dropLast_concat.symm

/-! ## Joining -/

/-- What a directory puts before a relative name. -/
def lead (dir : Path) : String :=
  if dir.text.toList.isEmpty then ""
  else if dir.text.toList.getLast? == some '/' then dir.text
  else dir.text ++ "/"

/-- A relative name is put behind what the directory puts before it. -/
theorem join_of_relative (dir : Path) {name : String} (h : isAbsolute name.toList = false) :
    dir.join name = ⟨dir.lead ++ name⟩ := by
  unfold join lead
  dsimp only
  rw [h, Bool.false_or]
  split
  · rw [String.empty_append]
  · split
    · rfl
    · rfl

/-- An absolute name stands for itself. -/
theorem join_of_isAbsolute (dir : Path) {name : String} (h : isAbsolute name.toList = true) :
    dir.join name = ⟨name⟩ := by
  unfold join
  dsimp only
  rw [h, Bool.true_or, if_pos rfl]

/-- A directory puts nothing before a name, or its own components and a
    slash. -/
theorem lead_cases (dir : Path) :
    (dir.lead.toList = [] ∧ dir.text.toList = []) ∨
      ∃ cs, dir.lead.toList = cs ++ ['/'] ∧
        solid (components cs) = solid (components dir.text.toList) ∧
          isAbsolute (cs ++ ['/']) = isAbsolute dir.text.toList := by
  unfold lead
  by_cases hempty : dir.text.toList = []
  · rw [if_pos (by simpa using hempty)]
    exact Or.inl ⟨rfl, hempty⟩
  · right
    rw [if_neg (by simpa using hempty)]
    by_cases hslash : dir.text.toList.getLast? = some '/'
    · rw [if_pos (by simpa using hslash)]
      obtain ⟨cs, hcs⟩ := List.getLast?_eq_some_iff.mp hslash
      refine ⟨cs, hcs, ?_, by rw [hcs]⟩
      rw [hcs, components_append_slash, solid_append]
      exact (List.append_nil _).symm
    · rw [if_neg (by simpa using hslash), String.toList_append]
      refine ⟨dir.text.toList, rfl, rfl, ?_⟩
      show ((dir.text.toList ++ ['/']).head? == some '/') = (dir.text.toList.head? == some '/')
      rw [List.head?_append, Option.or_of_isSome (by simpa using hempty)]

/-- **JOINING** a relative name to a directory puts its components after those
    of the directory, idle ones apart, and starts where the directory
    starts. -/
theorem components_join (dir : Path) {name : String} (hname : isAbsolute name.toList = false) :
    ∃ cs, components (dir.join name).text.toList = cs ++ components name.toList ∧
      solid cs = solid (components dir.text.toList) ∧
        isAbsolute (dir.join name).text.toList = isAbsolute dir.text.toList := by
  rw [join_of_relative dir hname]
  dsimp only
  rw [String.toList_append]
  rcases dir.lead_cases with ⟨hlead, hdir⟩ | ⟨cs, hlead, hsolid, habsolute⟩
  · rw [hlead, hdir, List.nil_append]
    exact ⟨[], rfl, rfl, hname⟩
  · rw [hlead, List.append_assoc, List.singleton_append, components_append_slash]
    refine ⟨components cs, rfl, hsolid, ?_⟩
    rw [← habsolute]
    cases cs with
    | nil => rfl
    | cons c cs => rfl

/-- A name inside a directory is not the empty path. -/
theorem join_ne_empty (dir : Path) {name : String} (hname : name ≠ "") :
    (dir.join name).text ≠ "" := by
  cases habsolute : isAbsolute name.toList with
  | true =>
      rw [join_of_isAbsolute dir habsolute]
      exact hname
  | false =>
      rw [join_of_relative dir habsolute]
      simp [hname]

end PlcTypes.Path
