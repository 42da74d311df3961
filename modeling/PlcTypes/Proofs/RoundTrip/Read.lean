import PlcTypes.Proofs.RoundTrip.Definition
import PlcTypes.Proofs.Source.WellFormed

/-! # Round trip of definitions that were read

    What is written for a definition that was read can be read again, with any
    files, and gives the definition with its comments settled.  So writing and
    reading change a definition, and its text, exactly when a comment in it
    holds a carriage return.  Only the structure that stands for a reference
    can have such a comment. -/

namespace PlcTypes

open Text Grammar Render

namespace TypeDefinition

variable {t : TypeDefinition}

/-- The heading of a well-formed definition holds no carriage return. -/
theorem not_mem_headingText (h : t.IsWellFormed) : '\r' ∉ t.headingText := by
  have hname : '\r' ∉ t.name.toList := fun hc => absurd (h.name.breakless hc) (by decide)
  have hremark : '\r' ∉ (remark t.comment).toList := by
    rw [Field.mem_remark (by decide), h.comment.trimmed.trim_eq]
    exact fun hc => absurd (h.comment.breakless _ hc) (by decide)
  unfold headingText
  simp [hname, hremark]

/-- A line with a carriage return is the first line of a node whose comment
    holds it. -/
theorem comment_of_mem_line (h : t.IsWellFormed) {l : String} (hl : l ∈ t.lines)
    (hr : '\r' ∈ l.toList) : ∃ f ∈ t.nodes, '\r' ∈ f.comment.toList := by
  have hversion : '\r' ∉ ("VERSION : " ++ t.version).toList := by
    have hn : '\r' ∉ t.version.toList := fun hc =>
      absurd (h.version.breakless _ hc) (by decide)
    simp [hn]
  unfold lines at hl
  simp only [List.mem_append, List.mem_cons, List.not_mem_nil, or_false] at hl
  rcases hl with ((rfl | rfl | rfl) | hl) | rfl | rfl | rfl
  · rw [toList_heading] at hr
    exact absurd hr (not_mem_headingText h)
  · exact absurd hr hversion
  · exact absurd hr (by decide)
  · rw [Field.linesAll_eq_flatMap] at hl
    obtain ⟨f, hf, hl⟩ := List.mem_flatMap.mp hl
    rcases Field.mem_lines hl with ⟨k, g, hg, rfl⟩ | ⟨k, rfl⟩
    · have hnode : g ∈ t.nodes := Field.mem_nodesAll.mpr ⟨f, hf, hg⟩
      refine ⟨g, hnode, (Field.mem_opening (h.members g hnode) (by decide)).mp ?_⟩
      simpa [toList_lineAt] using hr
    · simp [toList_lineAt] at hr
  · exact absurd hr (by decide)
  · exact absurd hr (by decide)
  · exact absurd hr (by decide)

/-- The first line of each node is a line of the definition. -/
theorem exists_mem_lines {g : Field} (hg : g ∈ t.nodes) : ∃ k, lineAt k g.opening ∈ t.lines := by
  obtain ⟨f, hf, hgf⟩ := Field.mem_nodesAll.mp hg
  obtain ⟨k, hk⟩ := Field.exists_mem_lines hgf 2
  refine ⟨k, ?_⟩
  have hall : lineAt k g.opening ∈ Field.linesAll 2 t.members := by
    rw [Field.linesAll_eq_flatMap]
    exact List.mem_flatMap.mpr ⟨f, hf, hk⟩
  unfold lines
  simp [hall]

/-- The only carriage returns in what is written for a well-formed definition
    are those in its comments. -/
theorem mem_render (h : t.IsWellFormed) :
    '\r' ∈ t.render.toList ↔ ∃ f ∈ t.nodes, '\r' ∈ f.comment.toList := by
  have hlines : '\r' ∈ t.render.toList ↔ ∃ l ∈ t.lines, '\r' ∈ l.toList := by
    unfold render
    rw [toList_ofLines, List.flatMap_map, List.mem_flatMap]
    simp
  rw [hlines]
  constructor
  · rintro ⟨l, hl, hr⟩
    exact comment_of_mem_line h hl hr
  · rintro ⟨g, hg, hr⟩
    obtain ⟨k, hk⟩ := exists_mem_lines hg
    refine ⟨lineAt k g.opening, hk, ?_⟩
    have hopening := (Field.mem_opening (h.members g hg) (m := '\r') (by decide)).mpr hr
    simp [toList_lineAt, hopening]

/-- What is written for a settled definition is what is written for the
    definition if there is no carriage return in its comments, and only
    then. -/
theorem render_settled_eq_iff (h : t.IsWellFormed) :
    t.settled.render = t.render ↔ ∀ f ∈ t.nodes, '\r' ∉ f.comment.toList := by
  constructor
  · -- the text of a settled definition holds no carriage return
    intro hrender f hf hr
    have hsettled : '\r' ∈ t.settled.render.toList := by
      rw [hrender]
      exact (mem_render h).mpr ⟨f, hf, hr⟩
    obtain ⟨g, hg, hr⟩ := (mem_render h.settled).mp hsettled
    rw [nodes_settled] at hg
    obtain ⟨g, hnode, rfl⟩ := List.mem_map.mp hg
    exact absurd ((h.members g hnode).isOneLine_settled.breakless _ hr) (by decide)
  · intro hr
    rw [h.settled_eq_self_iff.mpr hr]

end TypeDefinition

/-- **ROUND TRIP OF DEFINITIONS THAT WERE READ**: what is written for such a
    definition is read, with any files, as the definition with its comments
    settled.  That is the definition itself, and is written as the same text,
    exactly if no comment in it holds a carriage return. -/
theorem readText_render_of_read {fs : FileSystem} {source : String} {dir : Path}
    {t : TypeDefinition} (h : (fs.readText source dir).outcome = .ok t)
    (fs' : FileSystem) (dir' : Path) :
    (fs'.readText t.render dir').outcome = .ok t.settled ∧
      (t.settled = t ↔ ∀ f ∈ t.nodes, '\r' ∉ f.comment.toList) ∧
      (t.settled.render = t.render ↔ ∀ f ∈ t.nodes, '\r' ∉ f.comment.toList) := by
  have hread := FileSystem.isRead_readText h
  have hagain : fs'.readText t.render dir' = ⟨[.begun t.name []], .ok t.settled⟩ :=
    TypeDefinition.ofLines_render hread.wellFormed hread.last rfl _
  refine ⟨?_, ?_, ?_⟩
  · rw [hagain]
  · exact hread.wellFormed.settled_eq_self_iff
  · exact TypeDefinition.render_settled_eq_iff hread.wellFormed

/-- A directory with the definition of a type without members. -/
def tableFiles : FileSystem where
  home := []
  entries :=
    [(["Axis.udt"], .file (Utf8.encode
      "TYPE \"Axis\"\nVERSION : 0.1\nSTRUCT\nEND_STRUCT;\nEND_TYPE\n".toList))]

/-- A definition that refers to that type, with a carriage return in the
    comment of the reference. -/
def tableSource : String :=
  "TYPE \"Table\"\nVERSION : 0.1\nSTRUCT\nx : \"Axis\"; // left\rright\nEND_STRUCT;\nEND_TYPE\n"

/-- A definition with a comment that holds a carriage return, as it comes from a
    reference. -/
def table : TypeDefinition where
  name := "Table"
  version := "0.1"
  comment := ""
  members := [.struct "x" "left\rright" []]

theorem readText_tableSource : (tableFiles.readText tableSource ⟨"."⟩).outcome = .ok table := by
  decide +kernel

/-- A definition that was read need not be read back from what is written for
    it. -/
theorem table_changes :
    ¬ ∀ (fs : FileSystem) (source : String) (dir : Path) (t : TypeDefinition),
      (fs.readText source dir).outcome = .ok t →
        ∀ (fs' : FileSystem) (dir' : Path), (fs'.readText t.render dir').outcome = .ok t := by
  intro h
  have hagain := h tableFiles tableSource ⟨"."⟩ table readText_tableSource tableFiles ⟨"."⟩
  exact absurd hagain (by decide +kernel)

/-- The carriage return is lost when the definition is written and read again. -/
theorem readText_render_table :
    (tableFiles.readText tableSource ⟨"."⟩).outcome = .ok table ∧
      (tableFiles.readText table.render ⟨"."⟩).outcome = .ok table.settled ∧
      ¬ table.settled = table := by
  have h := readText_render_of_read readText_tableSource tableFiles ⟨"."⟩
  refine ⟨readText_tableSource, h.1, fun hsettled => ?_⟩
  have hreturn := h.2.1.mp hsettled (.struct "x" "left\rright" []) (by decide)
  exact absurd hreturn (by decide)

end PlcTypes
