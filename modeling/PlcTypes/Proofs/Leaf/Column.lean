import Mathlib.Data.List.Nodup
import PlcTypes.Column
import PlcTypes.Proofs.Leaf.LookUp
import PlcTypes.Proofs.Text.Trim

/-! # Columns and their names

    The columns of a definition are those of its leaves, in the order of the
    leaves, and the name of a column is the path of its leaf, joined by a
    separator.

    Different leaves have different paths, but joining can make them equal: with
    an underscore between the segments, a member `b` of a structure `a` has the
    column of a field `a_b` beside it.  It cannot happen when no name holds the
    separator.  Then the first segment of a path is what stands before the first
    separator, so it can be cut off, and the rest is compared inside the field
    that it names.  The texts of indices are last on their paths, so they are
    never cut and may hold anything. -/

namespace PlcTypes

open Text

/-! ## Reading the name of a column -/

/-- The name of a column: what stands between its outer brackets. -/
def columnName (column : String) : String :=
  String.ofList (((column.toList.drop 1).reverse.dropWhile (· != ']')).drop 1).reverse

theorem toList_columnText (name type : String) :
    (columnText name type).toList = '[' :: (name.toList ++ ']' :: ' ' :: type.toList) := by
  rw [columnText, String.toList_append, String.toList_append, String.toList_append]
  simp

/-- The name is found again before a type without a closing bracket. -/
theorem columnName_columnText (name : String) {type : String} (h : ']' ∉ type.toList) :
    columnName (columnText name type) = name := by
  have hbehind : ∀ c ∈ (' ' :: type.toList).reverse, (c != ']') = true := by
    intro c hc
    rw [List.mem_reverse, List.mem_cons] at hc
    rw [bne_iff_ne]
    rintro rfl
    rcases hc with hspace | hc
    · exact absurd hspace (by decide)
    · exact h hc
  have hback : (name.toList ++ ']' :: ' ' :: type.toList).reverse
      = (' ' :: type.toList).reverse ++ (']' :: name.toList.reverse) := by
    simp
  rw [columnName, toList_columnText, List.drop_succ_cons, List.drop_zero, hback,
    List.dropWhile_append_of_pos hbehind, List.dropWhile_cons_of_neg (by decide),
    List.drop_succ_cons, List.drop_zero, List.reverse_reverse, String.ofList_toList]

theorem Leaf.not_mem_columnType (leaf : Leaf) : ']' ∉ leaf.columnType.toList := by
  cases leaf with
  | scalar f =>
      show ']' ∉ f.type.columnType.toList
      cases f.type <;> decide
  | text f =>
      show ']' ∉ ("nvarchar(" ++ Decimal.ofNat f.capacity ++ ")").toList
      have hdigits : ']' ∉ (Decimal.ofNat f.capacity).toList :=
        (Decimal.isNumeral_ofNat f.capacity).not_mem (by decide) (by decide)
      rw [String.toList_append, String.toList_append]
      simp [hdigits]

/-! ## Texts of paths -/

/-- Segments joined by a separator. -/
def joined (separator : Char) (path : List String) : List Char :=
  [separator].intercalate (path.map String.toList)

theorem toList_render (p : FieldPath) (separator : Char) :
    (p.render separator).toList = joined separator p.segments := by
  rw [FieldPath.render, String.toList_intercalate, String.toList_singleton]
  rfl

theorem joined_cons {separator : Char} {name : String} {path : List String} (h : path ≠ []) :
    joined separator (name :: path) = name.toList ++ separator :: joined separator path := by
  have hne : path.map String.toList ≠ [] := fun hnil => h (List.map_eq_nil_iff.mp hnil)
  rw [joined, List.map_cons, List.intercalate_cons_of_ne_nil hne, List.append_assoc]
  rfl

theorem joined_singleton (separator : Char) (name : String) :
    joined separator [name] = name.toList :=
  List.intercalate_singleton

/-- What stands before the first separator, and what stands behind it, is
    determined by the whole. -/
theorem append_separator_inj {separator : Char} {as bs cs ds : List Char}
    (has : separator ∉ as) (hcs : separator ∉ cs)
    (h : as ++ separator :: bs = cs ++ separator :: ds) : as = cs ∧ bs = ds := by
  have hleft : cutAt [separator] (as ++ separator :: bs) = some (as, bs) := cutAt_append has bs
  have hright : cutAt [separator] (cs ++ separator :: ds) = some (cs, ds) := cutAt_append hcs ds
  rw [h, hright] at hleft
  obtain ⟨rfl, rfl⟩ := Prod.mk.inj (Option.some.inj hleft)
  exact ⟨rfl, rfl⟩

/-- Joined paths whose first segments are free of the separator have the same
    first segment and are joined in the same way behind it. -/
theorem joined_cons_inj {separator : Char} {name name' : String} {path path' : List String}
    (hname : separator ∉ name.toList) (hname' : separator ∉ name'.toList)
    (h : joined separator (name :: path) = joined separator (name' :: path')) :
    name = name' ∧ joined separator path = joined separator path' := by
  by_cases hpath : path = []
  · by_cases hpath' : path' = []
    · rw [hpath, hpath', joined_singleton, joined_singleton] at h
      exact ⟨String.toList_inj.mp h, by rw [hpath, hpath']⟩
    · -- only the longer path holds a separator
      rw [hpath, joined_singleton, joined_cons hpath'] at h
      exact absurd (h ▸ by simp) hname
  · by_cases hpath' : path' = []
    · rw [hpath', joined_singleton, joined_cons hpath] at h
      exact absurd (h ▸ by simp) hname'
    · rw [joined_cons hpath, joined_cons hpath'] at h
      obtain ⟨hsame, hrest⟩ := append_separator_inj hname hname' h
      exact ⟨String.toList_inj.mp hsame, hrest⟩

namespace Field

/-! ## Paths with the same text -/

/-- No name in some fields, on any level, holds the separator. -/
def AreFree (separator : Char) (fs : List Field) : Prop :=
  ∀ f ∈ nodesAll fs, separator ∉ f.name.toList

/-- Inside a field, paths with the same text are the same. -/
def TellsPathsApart (separator : Char) (f : Field) : Prop :=
  ∀ path path' leaf leaf', leafAt? f path = some leaf → leafAt? f path' = some leaf' →
    joined separator path = joined separator path' → path = path'

variable {separator : Char}

/-- Paths from fields with different names are determined by their joined names. -/
theorem eq_of_joined_eq {fs : List Field} (hnames : (fs.map Field.name).Nodup)
    (hfree : ∀ f ∈ fs, separator ∉ f.name.toList)
    (h : ∀ f ∈ fs, f.TellsPathsApart separator) {path path' : List String} {leaf leaf' : Leaf}
    (hleaf : leafAtAll? fs path = some leaf) (hleaf' : leafAtAll? fs path' = some leaf')
    (htext : joined separator path = joined separator path') : path = path' := by
  have hnil : leafAtAll? fs [] = none := by cases fs <;> rfl
  cases path with
  | nil => exact nomatch hnil.symm.trans hleaf
  | cons name path =>
      cases path' with
      | nil => exact nomatch hnil.symm.trans hleaf'
      | cons name' path' =>
          obtain ⟨f, hf, rfl, hinside⟩ := (leafAtAll?_cons hnames).mp hleaf
          obtain ⟨g, hg, rfl, hinside'⟩ := (leafAtAll?_cons hnames).mp hleaf'
          obtain ⟨hname, hrest⟩ := joined_cons_inj (hfree f hf) (hfree g hg) htext
          -- of the fields in the list only one has the name
          obtain rfl : f = g := List.inj_on_of_nodup_map hnames hf hg hname
          rw [h f hf path path' leaf leaf' hinside hinside' hrest]

/-- In every tree with unique names that are free of the separator, paths with
    the same text are the same. -/
theorem tellsPathsApart (f : Field) : HaveUniqueNames f.members → AreFree separator f.members →
    f.TellsPathsApart separator := by
  induction f using Field.induction with
  | plain f hplain =>
      intro _ _ path path' leaf leaf' hleaf hleaf' htext
      cases f with
      | scalar f | text f =>
          cases path with
          | nil =>
              cases path' with
              | nil => rfl
              | cons name' path' => exact nomatch hleaf'
          | cons name path => exact nomatch hleaf
      | array a =>
          -- both paths are the text of one index
          have hsingle : ∀ path leaf, leafAt? (.array a) path = some leaf →
              ∃ index, path = [index] := by
            intro path leaf hleaf
            match path, hleaf with
            | [index], _ => exact ⟨index, rfl⟩
          obtain ⟨index, rfl⟩ := hsingle path leaf hleaf
          obtain ⟨index', rfl⟩ := hsingle path' leaf' hleaf'
          rw [joined_singleton, joined_singleton, String.toList_inj] at htext
          rw [htext]
      | struct name comment members => exact nomatch hplain
  | struct name comment members ih =>
      intro hunique hfree path path' leaf leaf' hleaf hleaf' htext
      have hown : ∀ f ∈ members, separator ∉ f.name.toList := fun f hf =>
        hfree f (mem_nodesAll.mpr ⟨f, hf, mem_nodes_self f⟩)
      have hinner : ∀ f ∈ members, AreFree separator f.members := fun f hf g hg =>
        hfree g (mem_nodesAll.mpr ⟨f, hf, mem_nodes_of_mem_members hg⟩)
      exact eq_of_joined_eq hunique.own hown
        (fun f hf => ih f hf (hunique.members hf) (hinner f hf)) hleaf hleaf' htext

end Field

/-! ## Columns and leaves -/

namespace TypeDefinition

/-- In a definition with unique names that are free of the separator, different
    paths to leaves have different texts. -/
theorem nodup_render {t : TypeDefinition} {separator : Char}
    (hunique : Field.HaveUniqueNames t.members)
    (hfree : ∀ f ∈ t.nodes, separator ∉ f.name.toList) :
    (t.flattenRelative.map fun e => e.1.render separator).Nodup := by
  have hlists : ∀ f ∈ t.members, f.ListsLeaves := fun f hf =>
    f.listsLeaves (hunique.members hf)
  have hpaths : (t.flattenRelative.map Prod.fst).Nodup :=
    Field.nodup_flattenAll hunique.own hlists
      (fun f hf => f.nodup_flatten (hunique.members hf)) .root
  have hleaf : ∀ e ∈ t.flattenRelative,
      Field.leafAtAll? t.members e.1.segments = some e.2 := by
    intro e he
    obtain ⟨path, hpath, hleaf⟩ := (Field.mem_flattenAll_iff hunique.own hlists).mp he
    have hsegments : e.1.segments = path := hpath
    rw [hsegments]
    exact hleaf
  have htells : ∀ f ∈ t.members, f.TellsPathsApart separator := fun f hf =>
    f.tellsPathsApart (hunique.members hf) fun g hg =>
      hfree g (Field.mem_nodesAll.mpr ⟨f, hf, Field.mem_nodes_of_mem_members hg⟩)
  have hown : ∀ f ∈ t.members, separator ∉ f.name.toList := fun f hf =>
    hfree f (Field.mem_nodesAll.mpr ⟨f, hf, Field.mem_nodes_self f⟩)
  have hmap : t.flattenRelative.map (fun e => e.1.render separator)
      = (t.flattenRelative.map Prod.fst).map fun p => p.render separator := by
    rw [List.map_map]
    rfl
  rw [hmap]
  refine List.Nodup.map_on ?_ hpaths
  intro p hp q hq htext
  obtain ⟨e, he, rfl⟩ := List.mem_map.mp hp
  obtain ⟨e', he', rfl⟩ := List.mem_map.mp hq
  rw [← String.toList_inj, toList_render, toList_render] at htext
  exact congrArg FieldPath.mk
    (Field.eq_of_joined_eq hunique.own hown htells (hleaf e he) (hleaf e' he') htext)

/-- **DIFFERENT LEAVES GET DIFFERENT COLUMNS**, if no name holds the separator:
    the columns of a definition are named by the paths of its leaves, there is
    one for each leaf, in the order of the leaves and of its type, and when the
    names are different in each structure and free of the separator, no two
    columns have the same name. -/
theorem nodup_columnNames (t : TypeDefinition) (separator : Char) :
    (t.columns separator).map columnName
        = t.flattenRelative.map (fun e => e.1.render separator) ∧
      t.columns separator = List.zipWith columnText ((t.columns separator).map columnName)
        (t.leaves.map Leaf.columnType) ∧
      (t.columns separator).length = t.leaves.length ∧
      (Field.HaveUniqueNames t.members → (∀ f ∈ t.nodes, separator ∉ f.name.toList) →
        ((t.columns separator).map columnName).Nodup) := by
  have hnames : (t.columns separator).map columnName
      = t.flattenRelative.map fun e => e.1.render separator := by
    rw [columns, List.map_map]
    refine List.map_congr_left fun e _ => ?_
    exact columnName_columnText _ e.2.not_mem_columnType
  have hleaves : t.flattenRelative.map Prod.snd = t.leaves :=
    Field.map_snd_flattenAll .root t.members
  refine ⟨hnames, ?_, ?_, ?_⟩
  · rw [hnames, ← hleaves, List.map_map, List.zipWith_map, List.zipWith_self]
    rfl
  · rw [← hleaves, columns, List.length_map, List.length_map]
  · intro hunique hfree
    rw [hnames]
    exact nodup_render hunique hfree

/-- A definition with a structure and an array whose indices go below zero. -/
def mixer : TypeDefinition where
  name := "Mixer"
  version := "0.1"
  comment := ""
  members :=
    [.struct "drive" "" [.scalar ⟨"on", "", .bool, none⟩, .text ⟨"on-site", "", 8⟩],
     .array ⟨"level", "", .int, -1, 1, none⟩]

/-- The separator may stand in the texts of indices. -/
theorem nodup_columnNames_mixer :
    Field.HaveUniqueNames mixer.members ∧ (∀ f ∈ mixer.nodes, '1' ∉ f.name.toList) ∧
      mixer.columns '1' = ["[drive1on] BIT", "[drive1on-site] nvarchar(8)",
        "[level1-1] SMALLINT", "[level10] SMALLINT"] ∧
      ((mixer.columns '1').map columnName).Nodup := by
  have hunique : Field.HaveUniqueNames mixer.members := ⟨by decide, by decide⟩
  have hfree : ∀ f ∈ mixer.nodes, '1' ∉ f.name.toList := by decide
  exact ⟨hunique, hfree, by decide, (nodup_columnNames mixer '1').2.2.2 hunique hfree⟩

/-- A definition with valid names, different in each structure, one of which
    holds an underscore. -/
def hopper : TypeDefinition where
  name := "Hopper"
  version := "0.1"
  comment := ""
  members :=
    [.scalar ⟨"a_b", "", .int, none⟩, .struct "a" "" [.scalar ⟨"b", "", .int, none⟩]]

/-- With an underscore for a separator its two leaves get the same column. -/
theorem columns_hopper :
    (∀ f ∈ hopper.nodes, IsNameText f.name) ∧ Field.HaveUniqueNames hopper.members ∧
      hopper.columns '_' = ["[a_b] SMALLINT", "[a_b] SMALLINT"] ∧
      ¬ ((hopper.columns '_').map columnName).Nodup := by
  have hnames : ∀ f ∈ hopper.nodes, IsNameText f.name := by
    have hstored : ∀ f ∈ hopper.nodes, nameOf f.name = .ok f.name := by decide
    exact fun f hf => isNameText_of_nameOf (hstored f hf)
  exact ⟨hnames, ⟨by decide, by decide⟩, by decide, by decide⟩

end TypeDefinition

end PlcTypes
