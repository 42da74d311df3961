import Mathlib.Data.List.Nodup
import PlcTypes.Proofs.Decimal
import PlcTypes.Proofs.FieldPath
import PlcTypes.Proofs.Leaf.Walk

/-! # Leaves and the paths that lead to them

    A path is followed from a list of fields: its first segment names a
    member, the rest is followed inside that member.  A scalar or a string is
    reached where the path ends, a structure passes the path on to its
    members, and an array takes one segment more, which must be the text of
    one of its indices.

    When the members of each structure have different names, the leaves that
    flattening lists are the leaves that paths lead to: none is missing, none
    is made up and none is listed twice.  The induction is on the tree, with
    the path above it kept general.  The texts of the paths are different as
    well, since each path is read back from its text. -/

namespace PlcTypes

/-! ## Elements of an array -/

namespace ArrayField

/-- The element that a segment names: it must be the text of an index. -/
def element? (a : ArrayField) (segment : String) : Option ScalarField :=
  match Decimal.int? segment.toList with
  | none => none
  | some index =>
      if Decimal.ofInt index = segment ∧ a.start ≤ index ∧ index < a.stop then
        some { name := segment, comment := "", type := a.element, initial := a.initial }
      else none

/-- The indices are the numbers between the ends of the range. -/
theorem mem_indices {a : ArrayField} {index : Int} :
    index ∈ a.indices ↔ a.start ≤ index ∧ index < a.stop := by
  rw [indices, List.mem_map]
  constructor
  · rintro ⟨k, hk, rfl⟩
    rw [List.mem_range] at hk
    omega
  · rintro ⟨hstart, hstop⟩
    refine ⟨(index - a.start).toNat, ?_, ?_⟩
    · rw [List.mem_range]
      omega
    · omega

theorem nodup_indices (a : ArrayField) : a.indices.Nodup := by
  refine List.Nodup.map ?_ List.nodup_range
  intro j k h
  have h' : a.start + (j : Int) = a.start + (k : Int) := h
  omega

/-- An index leads to an element by its text, and nothing else does. -/
theorem element?_eq_some {a : ArrayField} {segment : String} {e : ScalarField} :
    a.element? segment = some e ↔ e ∈ a.elements ∧ e.name = segment := by
  unfold elements
  rw [List.mem_map]
  constructor
  · intro h
    unfold element? at h
    split at h
    · exact nomatch h
    · next index _ =>
        split at h
        · next hindex =>
            obtain ⟨rfl, hrange⟩ := hindex
            obtain rfl := Option.some.inj h
            exact ⟨⟨index, mem_indices.mpr hrange, rfl⟩, rfl⟩
        · exact nomatch h
  · rintro ⟨⟨index, hindex, rfl⟩, rfl⟩
    unfold element?
    dsimp only
    rw [Decimal.int?_ofInt]
    exact if_pos ⟨rfl, mem_indices.mp hindex⟩

/-- The elements have different names. -/
theorem nodup_names_elements (a : ArrayField) : (a.elements.map ScalarField.name).Nodup := by
  unfold elements
  rw [List.map_map]
  exact List.Nodup.map Decimal.ofInt_injective a.nodup_indices

end ArrayField

/-! ## Following a path -/

namespace Field

mutual

/-- The leaf that a path leads to inside a field. -/
def leafAt? : Field → List String → Option Leaf
  | scalar f, [] => some (.scalar f)
  | text f, [] => some (.text f)
  | array f, [index] => (f.element? index).map .scalar
  | struct _ _ members, path => leafAtAll? members path
  | _, _ => none

/-- The leaf that a path leads to from a list of fields, the first of which
    with the right name is followed. -/
def leafAtAll? : List Field → List String → Option Leaf
  | f :: fs, name :: path =>
      if f.name = name then leafAt? f path else leafAtAll? fs (name :: path)
  | _, _ => none

end

/-- Fields whose names are different from one another, on this level and on
    every level below. -/
structure HaveUniqueNames (fs : List Field) : Prop where
  own : (fs.map Field.name).Nodup
  inner : ∀ f ∈ nodesAll fs, (f.members.map Field.name).Nodup

/-- What holds on all levels holds inside each field. -/
theorem HaveUniqueNames.members {f : Field} {fs : List Field} (h : HaveUniqueNames fs)
    (hf : f ∈ fs) : HaveUniqueNames f.members := by
  refine ⟨h.inner f (mem_nodesAll.mpr ⟨f, hf, mem_nodes_self f⟩), fun g hg => ?_⟩
  exact h.inner g (mem_nodesAll.mpr ⟨f, hf, mem_nodes_of_mem_members hg⟩)

/-- From fields with different names a path leads through the one that its
    first segment names. -/
theorem leafAtAll?_cons {fs : List Field} (h : (fs.map Field.name).Nodup) {name : String}
    {path : List String} {leaf : Leaf} :
    leafAtAll? fs (name :: path) = some leaf
      ↔ ∃ f ∈ fs, f.name = name ∧ leafAt? f path = some leaf := by
  induction fs with
  | nil => simp [leafAtAll?]
  | cons f fs ih =>
      rw [List.map_cons, List.nodup_cons] at h
      obtain ⟨hnew, hrest⟩ := h
      rw [leafAtAll?]
      by_cases hname : f.name = name
      · rw [if_pos hname]
        constructor
        · intro hleaf
          exact ⟨f, by simp, hname, hleaf⟩
        · rintro ⟨g, hg, hgname, hleaf⟩
          rcases List.mem_cons.mp hg with rfl | hg
          · exact hleaf
          · -- no later field has the name of this one
            refine absurd (List.mem_map.mpr ⟨g, hg, ?_⟩) hnew
            rw [hgname, hname]
      · rw [if_neg hname, ih hrest]
        constructor
        · rintro ⟨g, hg, hgname, hleaf⟩
          exact ⟨g, by simp [hg], hgname, hleaf⟩
        · rintro ⟨g, hg, hgname, hleaf⟩
          rcases List.mem_cons.mp hg with rfl | hg
          · exact absurd hgname hname
          · exact ⟨g, hg, hgname, hleaf⟩

/-! ## Which leaves are listed -/

/-- The leaves of a field under their paths are listed with the paths that
    lead to them. -/
def ListsLeaves (f : Field) : Prop :=
  ∀ (base p : FieldPath) (leaf : Leaf),
    (p, leaf) ∈ flatten base f
      ↔ ∃ path, p.segments = base.segments ++ f.name :: path ∧ leafAt? f path = some leaf

/-- Members with different names list their leaves if each member does. -/
theorem mem_flattenAll_iff {fs : List Field} (hnames : (fs.map Field.name).Nodup)
    (h : ∀ f ∈ fs, f.ListsLeaves) {base p : FieldPath} {leaf : Leaf} :
    (p, leaf) ∈ flattenAll base fs
      ↔ ∃ path, p.segments = base.segments ++ path ∧ leafAtAll? fs path = some leaf := by
  rw [mem_flattenAll]
  constructor
  · rintro ⟨f, hf, hmem⟩
    obtain ⟨path, hpath, hleaf⟩ := (h f hf base p leaf).mp hmem
    exact ⟨f.name :: path, hpath, (leafAtAll?_cons hnames).mpr ⟨f, hf, rfl, hleaf⟩⟩
  · rintro ⟨path, hpath, hleaf⟩
    cases path with
    | nil =>
        -- no member is reached by the path that leads nowhere
        cases fs with
        | nil => exact nomatch hleaf
        | cons f fs => exact nomatch hleaf
    | cons name path =>
        obtain ⟨f, hf, rfl, hinside⟩ := (leafAtAll?_cons hnames).mp hleaf
        exact ⟨f, hf, (h f hf base p leaf).mpr ⟨path, hpath, hinside⟩⟩

/-- The path to a field that is a leaf ends with it. -/
theorem listsLeaves_toField (leaf : Leaf) : leaf.toField.ListsLeaves := by
  intro base p leaf'
  cases leaf with
  | scalar f | text f =>
      rw [flatten_toField, List.mem_singleton, Prod.mk.injEq]
      constructor
      · rintro ⟨rfl, rfl⟩
        exact ⟨[], rfl, rfl⟩
      · rintro ⟨path, hpath, hleaf⟩
        cases path with
        | nil =>
            obtain rfl := Option.some.inj hleaf
            exact ⟨congrArg FieldPath.mk hpath, rfl⟩
        | cons name path => exact nomatch hleaf

/-- An array lists its elements with the paths that lead to them. -/
theorem listsLeaves_array (a : ArrayField) : ListsLeaves (.array a) := by
  intro base p leaf
  rw [flatten_array, List.mem_map]
  constructor
  · rintro ⟨e, he, hpair⟩
    obtain ⟨rfl, rfl⟩ := Prod.mk.inj hpair
    refine ⟨[e.name], ?_, ?_⟩
    · rw [FieldPath.segments_nest, FieldPath.segments_nest, List.append_assoc]
      rfl
    · show (a.element? e.name).map Leaf.scalar = _
      rw [ArrayField.element?_eq_some.mpr ⟨he, rfl⟩, Option.map_some]
  · rintro ⟨path, hpath, hleaf⟩
    -- only a path of one segment leads to an element
    obtain ⟨index, rfl⟩ : ∃ index, path = [index] := by
      cases path with
      | nil => exact nomatch hleaf
      | cons index path =>
          cases path with
          | nil => exact ⟨index, rfl⟩
          | cons name path => exact nomatch hleaf
    obtain ⟨e, hnamed, rfl⟩ := Option.map_eq_some_iff.mp hleaf
    obtain ⟨he, rfl⟩ := ArrayField.element?_eq_some.mp hnamed
    refine ⟨e, he, ?_⟩
    have hp : (base.nest a.name).nest e.name = p := by
      refine congrArg FieldPath.mk ?_
      rw [hpath, FieldPath.segments_nest, List.append_assoc]
      rfl
    rw [hp]

/-- Leaves are listed as paths lead to them, in every tree with unique
    names. -/
theorem listsLeaves (f : Field) : HaveUniqueNames f.members → f.ListsLeaves := by
  induction f using Field.induction with
  | plain f hplain =>
      intro _
      cases f with
      | scalar f => exact listsLeaves_toField (.scalar f)
      | text f => exact listsLeaves_toField (.text f)
      | array a => exact listsLeaves_array a
      | struct name comment members => exact nomatch hplain
  | struct name comment members ih =>
      intro h base p leaf
      have hown : (members.map Field.name).Nodup := h.own
      have hmembers : ∀ f ∈ members, f.ListsLeaves := fun f hf => ih f hf (h.members hf)
      rw [flatten_struct, mem_flattenAll_iff hown hmembers, FieldPath.segments_nest]
      constructor
      · rintro ⟨path, hpath, hleaf⟩
        rw [List.append_assoc] at hpath
        exact ⟨path, hpath, hleaf⟩
      · rintro ⟨path, hpath, hleaf⟩
        refine ⟨path, ?_, hleaf⟩
        rw [List.append_assoc]
        exact hpath

/-! ## No leaf is listed twice -/

/-- Members with different names list no path twice if no member does. -/
theorem nodup_flattenAll {fs : List Field} (hnames : (fs.map Field.name).Nodup)
    (hlists : ∀ f ∈ fs, f.ListsLeaves)
    (h : ∀ f ∈ fs, ∀ base, ((flatten base f).map Prod.fst).Nodup) (base : FieldPath) :
    ((flattenAll base fs).map Prod.fst).Nodup := by
  induction fs with
  | nil => exact List.nodup_nil
  | cons f fs ih =>
      rw [List.map_cons, List.nodup_cons] at hnames
      obtain ⟨hnew, hrest⟩ := hnames
      rw [flattenAll, List.map_append, List.nodup_append]
      refine ⟨h f (by simp) base, ?_, ?_⟩
      · exact ih hrest (fun g hg => hlists g (by simp [hg])) fun g hg => h g (by simp [hg])
      · -- paths through different members differ behind the path above them
        intro p hp q hq hpq
        obtain ⟨⟨p, leaf⟩, hmem, rfl⟩ := List.mem_map.mp hp
        obtain ⟨⟨q, leaf'⟩, hmem', rfl⟩ := List.mem_map.mp hq
        obtain ⟨g, hg, hmem'⟩ := mem_flattenAll.mp hmem'
        obtain ⟨path, hpath, -⟩ := (hlists f (by simp) base p leaf).mp hmem
        obtain ⟨path', hpath', -⟩ := (hlists g (by simp [hg]) base q leaf').mp hmem'
        have hjoined : base.segments ++ f.name :: path = base.segments ++ g.name :: path' := by
          rw [← hpath, ← hpath']
          exact congrArg FieldPath.segments hpq
        have hsame : f.name :: path = g.name :: path' := List.append_cancel_left hjoined
        exact hnew (List.mem_map.mpr ⟨g, hg, (List.cons.inj hsame).1.symm⟩)

/-- No path is listed twice, in every tree with unique names. -/
theorem nodup_flatten (f : Field) :
    HaveUniqueNames f.members → ∀ base, ((flatten base f).map Prod.fst).Nodup := by
  induction f using Field.induction with
  | plain f hplain =>
      intro _ base
      cases f with
      | scalar f => exact List.nodup_singleton _
      | text f => exact List.nodup_singleton _
      | array a =>
          have hpaths : (flatten base (.array a)).map Prod.fst
              = (a.elements.map ScalarField.name).map (base.nest a.name).nest := by
            rw [flatten_array, List.map_map, List.map_map]
            rfl
          rw [hpaths]
          refine List.Nodup.map ?_ a.nodup_names_elements
          intro s s' hs
          have hsegments := congrArg FieldPath.segments hs
          rw [FieldPath.segments_nest, FieldPath.segments_nest] at hsegments
          exact List.singleton_inj.mp (List.append_cancel_left hsegments)
      | struct name comment members => exact nomatch hplain
  | struct name comment members ih =>
      intro h base
      have hlists : ∀ f ∈ members, f.ListsLeaves := fun f hf => f.listsLeaves (h.members hf)
      exact nodup_flattenAll h.own hlists (fun f hf => ih f hf (h.members hf)) _

/-! ## The segments of paths -/

/-- A path consists of the path above it, names of fields and texts of
    indices. -/
theorem segment_of_mem_flatten {f : Field} :
    ∀ {base p : FieldPath} {leaf : Leaf}, (p, leaf) ∈ flatten base f → ∀ s ∈ p.segments,
      s ∈ base.segments ∨ (∃ g ∈ f.nodes, s = g.name) ∨ ∃ index, s = Decimal.ofInt index := by
  induction f using Field.induction with
  | plain f hplain =>
      intro base p leaf hmem s hs
      cases f with
      | scalar f | text f =>
          obtain ⟨rfl, rfl⟩ := Prod.mk.inj (List.mem_singleton.mp hmem)
          rw [FieldPath.segments_nest, List.mem_append, List.mem_singleton] at hs
          exact hs.imp_right fun hs => Or.inl ⟨_, mem_nodes_self _, hs⟩
      | array a =>
          obtain ⟨e, he, hpair⟩ := List.mem_map.mp hmem
          obtain ⟨rfl, rfl⟩ := Prod.mk.inj hpair
          obtain ⟨index, -, rfl⟩ := List.mem_map.mp he
          simp only [FieldPath.segments_nest, List.mem_append, List.mem_singleton] at hs
          rcases hs with (hs | hs) | hs
          · exact Or.inl hs
          · exact Or.inr (Or.inl ⟨_, mem_nodes_self _, hs⟩)
          · exact Or.inr (Or.inr ⟨index, hs⟩)
      | struct name comment members => exact nomatch hplain
  | struct name comment members ih =>
      intro base p leaf hmem s hs
      obtain ⟨f, hf, hmem⟩ := mem_flattenAll.mp hmem
      rcases ih f hf hmem s hs with hs | ⟨g, hg, rfl⟩ | hs
      · rw [FieldPath.segments_nest, List.mem_append, List.mem_singleton] at hs
        exact hs.imp_right fun hs => Or.inl ⟨_, mem_nodes_self _, hs⟩
      · exact Or.inr (Or.inl ⟨g, mem_nodes_struct.mpr (Or.inr ⟨f, hf, hg⟩), rfl⟩)
      · exact Or.inr (Or.inr hs)

end Field

/-! ## Leaves and paths -/

/-- **LEAVES AND PATHS CORRESPOND**: in a definition whose names are valid, as
    they are in all that is made or read, and different in each structure, a
    leaf is listed under a path exactly if the path leads to it.  Every path
    is listed once, different paths have different texts, and a path is read
    back from its text. -/
theorem TypeDefinition.flattenRelative_iff_leafAtAll? {t : TypeDefinition}
    (hnames : ∀ f ∈ t.nodes, IsNameText f.name) (hunique : Field.HaveUniqueNames t.members) :
    (∀ p leaf, (p, leaf) ∈ t.flattenRelative
        ↔ Field.leafAtAll? t.members p.segments = some leaf) ∧
      (t.flattenRelative.map Prod.fst).Nodup ∧
      (t.flattenRelative.map fun e => e.1.render FieldPath.dot).Nodup ∧
      ∀ e ∈ t.flattenRelative, FieldPath.parse (e.1.render FieldPath.dot) FieldPath.dot = e.1 := by
  have hlists : ∀ f ∈ t.members, f.ListsLeaves := fun f hf =>
    f.listsLeaves (hunique.members hf)
  have hpaths : (t.flattenRelative.map Prod.fst).Nodup :=
    Field.nodup_flattenAll hunique.own hlists
      (fun f hf => f.nodup_flatten (hunique.members hf)) .root
  -- names and texts of indices are not empty and hold no dot
  have hparse : ∀ e ∈ t.flattenRelative,
      FieldPath.parse (e.1.render FieldPath.dot) FieldPath.dot = e.1 := by
    rintro ⟨p, leaf⟩ hmem
    refine FieldPath.parse_render fun s hs => ?_
    obtain ⟨f, hf, hmem⟩ := Field.mem_flattenAll.mp hmem
    rcases Field.segment_of_mem_flatten hmem s hs with hroot | ⟨g, hg, rfl⟩ | ⟨index, rfl⟩
    · exact nomatch hroot
    · have hname := hnames g (Field.mem_nodesAll.mpr ⟨f, hf, hg⟩)
      refine ⟨fun hempty => hname.ne_nil (String.toList_eq_nil_iff.mpr hempty), fun hdot => ?_⟩
      exact absurd (hname.isNameChar hdot) (by decide)
    · have hnumeral := Decimal.isNumeral_ofInt index
      refine ⟨fun hempty => hnumeral.1 (String.toList_eq_nil_iff.mpr hempty), ?_⟩
      exact hnumeral.not_mem (by decide) (by decide)
  refine ⟨?_, hpaths, ?_, hparse⟩
  · intro p leaf
    refine (Field.mem_flattenAll_iff hunique.own hlists).trans ?_
    constructor
    · rintro ⟨path, hpath, hleaf⟩
      have hpath' : p.segments = path := hpath
      rw [hpath']
      exact hleaf
    · intro hleaf
      exact ⟨p.segments, rfl, hleaf⟩
  · -- a path is determined by its text
    have htexts : t.flattenRelative.map (fun e => e.1.render FieldPath.dot)
        = (t.flattenRelative.map Prod.fst).map fun p => p.render FieldPath.dot := by
      rw [List.map_map]
      rfl
    rw [htexts]
    refine List.Nodup.map_on ?_ hpaths
    intro p hp q hq htext
    obtain ⟨e, he, rfl⟩ := List.mem_map.mp hp
    obtain ⟨e', he', rfl⟩ := List.mem_map.mp hq
    rw [← hparse e he, htext, hparse e' he']

/-- A definition with an array inside a structure, whose range starts below
    zero, and with the name of the array once more outside. -/
def TypeDefinition.gauge : TypeDefinition where
  name := "Gauge"
  version := "0.1"
  comment := ""
  members :=
    [.struct "set" "" [.array ⟨"limit", "high", .int, -1, 1, some "7"⟩, .text ⟨"unit", "", 4⟩],
     .scalar ⟨"limit", "", .bool, none⟩]

/-- The path to an element that has a number below zero for a name leads through
    the structure. -/
theorem TypeDefinition.flattenRelative_gauge :
    (∀ f ∈ gauge.nodes, IsNameText f.name) ∧ Field.HaveUniqueNames gauge.members ∧
      (⟨["set", "limit", "-1"]⟩, .scalar ⟨"-1", "", .int, some "7"⟩) ∈ gauge.flattenRelative := by
  have hnames : ∀ f ∈ gauge.nodes, IsNameText f.name := by
    have hstored : ∀ f ∈ gauge.nodes, nameOf f.name = .ok f.name := by decide
    intro f hf
    exact isNameText_of_nameOf (hstored f hf)
  have hunique : Field.HaveUniqueNames gauge.members := ⟨by decide, by decide⟩
  refine ⟨hnames, hunique, ?_⟩
  refine ((flattenRelative_iff_leafAtAll? hnames hunique).1 _ _).mpr ?_
  decide

end PlcTypes
