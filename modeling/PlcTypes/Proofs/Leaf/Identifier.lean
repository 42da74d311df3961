import Mathlib.Data.List.Count
import Mathlib.Data.List.Forall2
import PlcTypes.Proofs.Field.Built
import PlcTypes.Proofs.Leaf.Column

/-! # Columns as the server reads them

    An SQL Server reads a name in brackets up to the first closing bracket
    that is not doubled; two of them stand for one.  A column is written with
    its path between brackets as it is, and nothing in it is doubled.

    So a column is read as the path and the type of its leaf exactly when the
    path holds no closing bracket.  Otherwise no column can be read as that
    path, because with its brackets doubled the path has more of them than the
    column.  A path holds a closing bracket if one of its names does, or if that
    is the separator and there is something to separate. -/

namespace PlcTypes

/-! ## Names in brackets -/

/-- The name up to the first closing bracket that is not doubled, and what
    follows that bracket. -/
def bracketed? : List Char → Option (List Char × List Char)
  | [] => none
  | ']' :: ']' :: cs => (bracketed? cs).map fun (name, rest) => (']' :: name, rest)
  | ']' :: cs => some ([], cs)
  | c :: cs => (bracketed? cs).map fun (name, rest) => (c :: name, rest)

/-- The name in brackets that a text starts with, and what follows it. -/
def identifier? : List Char → Option (List Char × List Char)
  | '[' :: cs => bracketed? cs
  | _ => none

/-- A name with its closing brackets doubled. -/
def doubled (name : List Char) : List Char :=
  name.flatMap fun c => if c = ']' then [']', ']'] else [c]

theorem doubled_cons_bracket (name : List Char) :
    doubled (']' :: name) = ']' :: ']' :: doubled name := rfl

theorem doubled_cons {c : Char} (h : c ≠ ']') (name : List Char) :
    doubled (c :: name) = c :: doubled name := by
  rw [doubled, List.flatMap_cons, if_neg h]
  rfl

theorem doubled_eq_self {name : List Char} (h : ']' ∉ name) : doubled name = name := by
  induction name with
  | nil => rfl
  | cons c name ih =>
      have hc : c ≠ ']' := fun hc => h (hc ▸ List.mem_cons_self)
      have hname : ']' ∉ name := fun hname => h (List.mem_cons_of_mem c hname)
      rw [doubled_cons hc, ih hname]

theorem count_doubled (name : List Char) :
    (doubled name).count ']' = 2 * name.count ']' := by
  induction name with
  | nil => rfl
  | cons c name ih =>
      by_cases hc : c = ']'
      · rw [hc, doubled_cons_bracket, List.count_cons_self, List.count_cons_self,
          List.count_cons_self, ih]
        omega
      · rw [doubled_cons hc, List.count_cons_of_ne hc, List.count_cons_of_ne hc, ih]

/-- A name is read from the text with its closing brackets doubled, if no
    further one comes behind it. -/
theorem bracketed?_doubled (name : List Char) {rest : List Char} (h : rest.head? ≠ some ']') :
    bracketed? (doubled name ++ ']' :: rest) = some (name, rest) := by
  induction name with
  | nil =>
      cases rest with
      | nil => rfl
      | cons c rest =>
          have hc : c ≠ ']' := fun hc => h (congrArg some hc)
          show bracketed? (']' :: c :: rest) = some ([], c :: rest)
          rw [bracketed?]
          exact fun cs hcs => hc (List.cons.inj hcs).1
  | cons c name ih =>
      by_cases hc : c = ']'
      · rw [hc, doubled_cons_bracket, List.cons_append, List.cons_append, bracketed?, ih]
        rfl
      · rw [doubled_cons hc, List.cons_append, bracketed?, ih]
        · rfl
        · exact fun _ hbracket _ => hc hbracket
        · exact hc

/-- From no other text is the name read. -/
theorem eq_of_bracketed? {cs name rest : List Char} (h : bracketed? cs = some (name, rest)) :
    cs = doubled name ++ ']' :: rest := by
  fun_induction bracketed? cs generalizing name with
  | case1 => exact nomatch h
  | case2 cs ih =>
      obtain ⟨⟨inner, after⟩, hinner, hpair⟩ := Option.map_eq_some_iff.mp h
      obtain ⟨rfl, rfl⟩ := Prod.mk.inj hpair
      rw [ih hinner, doubled_cons_bracket]
      rfl
  | case3 cs hsingle =>
      obtain ⟨rfl, rfl⟩ := Prod.mk.inj (Option.some.inj h)
      rfl
  | case4 c cs hpair hc ih =>
      obtain ⟨⟨inner, after⟩, hinner, hpair⟩ := Option.map_eq_some_iff.mp h
      obtain ⟨rfl, rfl⟩ := Prod.mk.inj hpair
      rw [ih hinner, doubled_cons hc]
      rfl

/-! ## One column -/

/-- Whether a column is read as a name in brackets, one space and a type. -/
def IsReadAs (column name type : String) : Prop :=
  identifier? column.toList = some (name.toList, ' ' :: type.toList)

/-- A name without closing brackets is read, and its type behind it. -/
theorem isReadAs_columnText {name : String} (h : ']' ∉ name.toList) (type : String) :
    IsReadAs (columnText name type) name type := by
  have hspace : (' ' :: type.toList).head? ≠ some ']' := nofun
  have hread := bracketed?_doubled name.toList hspace
  rw [doubled_eq_self h] at hread
  rw [IsReadAs, toList_columnText]
  exact hread

/-- A name with a closing bracket is not read, whatever comes behind it. -/
theorem not_mem_of_identifier? {name type : String} {rest : List Char}
    (htype : ']' ∉ type.toList)
    (h : identifier? (columnText name type).toList = some (name.toList, rest)) :
    ']' ∉ name.toList := by
  rw [toList_columnText] at h
  have htext := congrArg (List.count ']') (eq_of_bracketed? h)
  have htype : (' ' :: type.toList).count ']' = 0 :=
    List.count_eq_zero.mpr (List.not_mem_cons_of_ne_of_not_mem (by decide) htype)
  -- the column has one bracket more than the name, and must have twice as many and one
  rw [List.count_append, List.count_append, List.count_cons_self, List.count_cons_self,
    count_doubled, htype] at htext
  exact List.count_eq_zero.mp (by omega)

/-! ## Brackets in paths -/

/-- A joined path holds a character of its names, or the separator if it is
    needed. -/
theorem mem_joined {c separator : Char} {path : List String} :
    c ∈ joined separator path
      ↔ (∃ name ∈ path, c ∈ name.toList) ∨ c = separator ∧ 2 ≤ path.length := by
  induction path with
  | nil => simp [joined]
  | cons name path ih =>
      by_cases hpath : path = []
      · rw [hpath, joined_singleton]
        simp
      · have hlength : 0 < path.length := List.length_pos_iff.mpr hpath
        have hlong : 2 ≤ (name :: path).length := by
          rw [List.length_cons]
          omega
        rw [joined_cons hpath, List.mem_append, List.mem_cons, ih, List.exists_mem_cons_iff]
        constructor
        · rintro (hname | hseparator | hinner | ⟨hseparator, -⟩)
          · exact Or.inl (Or.inl hname)
          · exact Or.inr ⟨hseparator, hlong⟩
          · exact Or.inl (Or.inr hinner)
          · exact Or.inr ⟨hseparator, hlong⟩
        · rintro ((hname | hinner) | ⟨hseparator, -⟩)
          · exact Or.inl hname
          · exact Or.inr (Or.inr (Or.inl hinner))
          · exact Or.inr (Or.inl hseparator)

/-! ## The columns of a definition -/

namespace TypeDefinition

/-- A path holds no closing bracket, if no name and not the separator does. -/
theorem not_mem_render {t : TypeDefinition} {separator : Char}
    (hnames : ∀ f ∈ t.nodes, ']' ∉ f.name.toList) (hseparator : separator ≠ ']')
    {e : FieldPath × Leaf} (he : e ∈ t.flattenRelative) :
    ']' ∉ (e.1.render separator).toList := by
  rw [toList_render, mem_joined]
  rintro (⟨s, hs, hbracket⟩ | ⟨hbracket, -⟩)
  · obtain ⟨f, hf, he⟩ := Field.mem_flattenAll.mp he
    rcases Field.segment_of_mem_flatten he s hs with hroot | ⟨g, hg, rfl⟩ | ⟨index, rfl⟩
    · exact nomatch hroot
    · exact hnames g (Field.mem_nodesAll.mpr ⟨f, hf, hg⟩) hbracket
    · exact (Decimal.isNumeral_ofInt index).not_mem (by decide) (by decide) hbracket
  · exact hseparator hbracket.symm

/-- **COLUMNS WHOSE PATHS HOLD NO CLOSING BRACKET ARE READ BACK**, and no
    others: the column of a leaf is read as the path and the type of the leaf if
    and only if the path holds none, and otherwise it is not read as a column of
    that path at all.  A path holds a closing bracket if one of its names does,
    or if that is the separator and stands between two names.  So all columns of
    a definition are read back when closing brackets are neither in its names
    nor between them. -/
theorem isReadAs_columns (t : TypeDefinition) (separator : Char) :
    List.Forall₂
        (fun column e =>
          (IsReadAs column (e.1.render separator) e.2.columnType
              ↔ ']' ∉ (e.1.render separator).toList) ∧
            ((∃ rest, identifier? column.toList = some ((e.1.render separator).toList, rest))
              ↔ ']' ∉ (e.1.render separator).toList))
        (t.columns separator) t.flattenRelative ∧
      (∀ e ∈ t.flattenRelative, ']' ∈ (e.1.render separator).toList ↔
        (∃ name ∈ e.1.segments, ']' ∈ name.toList) ∨
          ']' = separator ∧ 2 ≤ e.1.segments.length) ∧
      ((∀ f ∈ t.nodes, ']' ∉ f.name.toList) → separator ≠ ']' →
        List.Forall₂
          (fun column e => IsReadAs column (e.1.render separator) e.2.columnType)
          (t.columns separator) t.flattenRelative) := by
  refine ⟨?_, ?_, ?_⟩
  · rw [columns, List.forall₂_map_left_iff, List.forall₂_same]
    intro e _
    have hread : ']' ∉ (e.1.render separator).toList →
        IsReadAs (columnText (e.1.render separator) e.2.columnType) (e.1.render separator)
          e.2.columnType := fun h => isReadAs_columnText h _
    refine ⟨⟨not_mem_of_identifier? e.2.not_mem_columnType, hread⟩, ?_, ?_⟩
    · rintro ⟨rest, hrest⟩
      exact not_mem_of_identifier? e.2.not_mem_columnType hrest
    · exact fun h => ⟨_, hread h⟩
  · intro e _
    rw [toList_render, mem_joined]
  · intro hnames hseparator
    rw [columns, List.forall₂_map_left_iff, List.forall₂_same]
    intro e he
    exact isReadAs_columnText (not_mem_render hnames hseparator he) _

/-- A definition with spaces and opening brackets in its names. -/
def boiler : TypeDefinition where
  name := "Boiler"
  version := "0.1"
  comment := ""
  members :=
    [.struct "steam [bar" "" [.scalar ⟨"set point", "", .real, none⟩],
     .array ⟨"level", "", .int, -1, 1, none⟩]

/-- Its columns are read back. -/
theorem isReadAs_columns_boiler :
    (∀ f ∈ boiler.nodes, ']' ∉ f.name.toList) ∧
      boiler.columns '.' = ["[steam [bar.set point] FLOAT(24)", "[level.-1] SMALLINT",
        "[level.0] SMALLINT"] ∧
      List.Forall₂ (fun column e => IsReadAs column (e.1.render '.') e.2.columnType)
        (boiler.columns '.') boiler.flattenRelative := by
  have hnames : ∀ f ∈ boiler.nodes, ']' ∉ f.name.toList := by decide
  exact ⟨hnames, by decide, (isReadAs_columns boiler '.').2.2 hnames (by decide)⟩

/-- A definition with a closing bracket in the name of a field. -/
def vessel : TypeDefinition where
  name := "Vessel"
  version := "0.1"
  comment := ""
  members := [.scalar ⟨"p]bar", "", .int, none⟩]

/-- Its column is read as that of a field with a shorter name, so not every
    definition that can be made has columns that are read back. -/
theorem columns_vessel :
    vessel.Built ∧ vessel.columns '.' = ["[p]bar] SMALLINT"] ∧
      identifier? "[p]bar] SMALLINT".toList = some ("p".toList, "bar] SMALLINT".toList) ∧
      ¬ ∀ (t : TypeDefinition) (separator : Char), t.Built →
        List.Forall₂
          (fun column e => IsReadAs column (e.1.render separator) e.2.columnType)
          (t.columns separator) t.flattenRelative := by
  have hfield : ScalarField.create "p]bar" .int = .ok ⟨"p]bar", "", .int, none⟩ := rfl
  have hdefinition : create "Vessel" "0.1" vessel.members = .ok vessel := rfl
  have hbuilt : vessel.Built := by
    refine .create (fun m hm => ?_) hdefinition
    obtain rfl := List.mem_singleton.mp hm
    exact .scalar (.create hfield)
  have hcolumns : vessel.columns '.' = ["[p]bar] SMALLINT"] := by decide
  have hread : identifier? "[p]bar] SMALLINT".toList
      = some ("p".toList, "bar] SMALLINT".toList) := by decide
  refine ⟨hbuilt, hcolumns, hread, fun h => ?_⟩
  have hvessel := h vessel '.' hbuilt
  rw [hcolumns] at hvessel
  cases hvessel with
  | cons hcolumn hrest =>
      have hcolumn' : identifier? "[p]bar] SMALLINT".toList
          = some ("p]bar".toList, " SMALLINT".toList) := hcolumn
      rw [hread] at hcolumn'
      exact absurd hcolumn' (by decide)

end TypeDefinition

end PlcTypes
