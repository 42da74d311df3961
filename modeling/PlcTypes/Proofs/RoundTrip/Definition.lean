import PlcTypes.Proofs.RoundTrip.Field
import PlcTypes.Proofs.Text.Lines
import PlcTypes.Source.Definition

/-! # A written definition is read back

    The reader keeps the open structures on a stack, while a tree is written
    by recursion on its structures.  The two meet in one invariant: from any
    members read so far, the lines of a field lead to the same members with
    that field added, and what follows is read from there.  For a structure
    its first line opens it, its members are added to it one after the other,
    and its closing line adds it to the structure around it.

    No line of a written definition refers to a file, so the meaning of
    references does not matter. -/

namespace PlcTypes

open Text Grammar Render

/-! ## Lines of a field -/

/-- A line that stands inside `depth` structures. -/
def lineAt (depth : Nat) (cs : List Char) : String :=
  indent depth ++ String.ofList cs

/-- A line starts with four spaces for each structure around it. -/
theorem toList_lineAt (depth : Nat) (cs : List Char) :
    (lineAt depth cs).toList = List.replicate (4 * depth) ' ' ++ cs := by
  unfold lineAt indent
  rw [String.toList_append, String.toList_ofList, String.toList_ofList]

/-- Indentation is trimmed away. -/
theorem trim_lineAt {cs : List Char} (h : IsTrimmed cs) (depth : Nat) :
    trim (lineAt depth cs).toList = cs := by
  rw [toList_lineAt, trim_append_left, h.trim_eq]
  intro c hc
  rw [List.eq_of_mem_replicate hc]
  decide

/-- A text that is written on a line. -/
theorem indent_append {s : String} {cs : List Char} (h : s.toList = cs) (depth : Nat) :
    indent depth ++ s = lineAt depth cs := by
  unfold lineAt
  rw [← h, String.ofList_toList]

theorem not_mem_lineAt {cs : List Char} (hn : '\n' ∉ cs) (depth : Nat) :
    '\n' ∉ (lineAt depth cs).toList := by
  rw [toList_lineAt]
  simp [hn]

/-- A line of text stays one when it is indented. -/
theorem isLine_lineAt {cs : List Char} (h : IsTrimmed cs) (hne : cs ≠ []) (hn : '\n' ∉ cs)
    (depth : Nat) : IsLine (lineAt depth cs).toList := by
  refine ⟨not_mem_lineAt hn depth, ?_⟩
  · rw [toList_lineAt, List.getLast?_append, List.getLast?_eq_some_getLast hne, Option.some_or,
      ← List.getLast?_eq_some_getLast hne]
    exact (h.isLine hn).unreturned

namespace Field

theorem opening_ne_nil (f : Field) : f.opening ≠ [] := by
  unfold opening
  simp

/-- A field without members is one line. -/
theorem lines_plain {f : Field} (h : f.isPlain = true) (depth : Nat) :
    lines depth f = [lineAt depth f.opening] := by
  cases f with
  | scalar f =>
      have hrender : f.render.toList = (scalar f).opening := by
        unfold ScalarField.render opening form
        simp [Field.name, Field.comment]
      rw [lines, indent_append hrender]
  | text f =>
      have hrender : f.render.toList = (text f).opening := by
        unfold TextField.render opening form
        simp [Field.name, Field.comment]
      rw [lines, indent_append hrender]
  | array f =>
      have hrender : f.render.toList = (array f).opening := by
        unfold ArrayField.render opening form rangeText
        simp [Field.name, Field.comment]
      rw [lines, indent_append hrender]
  | struct name comment members => exact nomatch h

/-- A structure is two lines with those of its members between them, one step
    further in. -/
theorem lines_struct (name comment : String) (members : List Field) (depth : Nat) :
    lines depth (struct name comment members)
      = lineAt depth (struct name comment members).opening
        :: (linesAll (depth + 1) members ++ [lineAt depth "END_STRUCT;".toList]) := by
  have hhead : (nameText name ++ (" : STRUCT" ++ remark comment)).toList
      = (struct name comment members).opening := by
    unfold opening form
    simp [Field.name, Field.comment]
  rw [lines, String.append_assoc, String.append_assoc, indent_append hhead]
  rfl

theorem linesAll_eq_flatMap (depth : Nat) (fs : List Field) :
    linesAll depth fs = fs.flatMap (lines depth) := by
  induction fs with
  | nil => rfl
  | cons f fs ih => rw [linesAll, List.flatMap_cons, ih]

/-- The lines of a field are the first lines of its nodes and closing lines. -/
theorem mem_lines {f : Field} {l : String} {depth : Nat} (h : l ∈ lines depth f) :
    (∃ k, ∃ g ∈ f.nodes, l = lineAt k g.opening) ∨ ∃ k, l = lineAt k "END_STRUCT;".toList := by
  induction f using Field.induction generalizing depth with
  | plain f hf =>
      rw [lines_plain hf, List.mem_singleton] at h
      exact Or.inl ⟨depth, f, mem_nodes_self f, h⟩
  | struct name comment members ih =>
      rw [lines_struct, List.mem_cons, List.mem_append, linesAll_eq_flatMap, List.mem_flatMap,
        List.mem_singleton] at h
      rcases h with h | ⟨f, hf, h⟩ | h
      · exact Or.inl ⟨depth, _, mem_nodes_self _, h⟩
      · rcases ih f hf h with ⟨k, g, hg, hl⟩ | hl
        · exact Or.inl ⟨k, g, mem_nodes_struct.mpr (Or.inr ⟨f, hf, hg⟩), hl⟩
        · exact Or.inr hl
      · exact Or.inr ⟨depth, h⟩

/-- The first line of each node is among the lines of a field. -/
theorem exists_mem_lines {f g : Field} (h : g ∈ f.nodes) (depth : Nat) :
    ∃ k, lineAt k g.opening ∈ lines depth f := by
  induction f using Field.induction generalizing depth with
  | plain f hf =>
      rw [nodes_plain hf, List.mem_singleton] at h
      rw [h, lines_plain hf]
      exact ⟨depth, by simp⟩
  | struct name comment members ih =>
      rw [lines_struct]
      rcases mem_nodes_struct.mp h with rfl | ⟨f, hf, hg⟩
      · exact ⟨depth, by simp⟩
      · obtain ⟨k, hk⟩ := ih f hf hg (depth + 1)
        refine ⟨k, ?_⟩
        have hall : lineAt k g.opening ∈ linesAll (depth + 1) members := by
          rw [linesAll_eq_flatMap]
          exact List.mem_flatMap.mpr ⟨f, hf, hk⟩
        simp [hall]

theorem isTrimmed_closing : IsTrimmed "END_STRUCT;".toList :=
  trim_eq_self_iff.mp (by decide)

/-- What is written for a field of a well-formed tree are lines of text. -/
theorem isLine_of_mem_lines {f : Field} (h : ∀ g ∈ f.nodes, g.IsWellFormed) {depth : Nat} :
    ∀ l ∈ lines depth f, IsLine l.toList := by
  intro l hl
  rcases mem_lines hl with ⟨k, g, hg, rfl⟩ | ⟨k, rfl⟩
  · have hwf := h g hg
    exact isLine_lineAt (isTrimmed_opening hwf) (opening_ne_nil g) (not_mem_opening hwf) k
  · exact isLine_lineAt isTrimmed_closing (by decide) (by decide) k

end Field

/-! ## Reading members -/

section Members

variable {refer : String → String → Traced TypeDefinition} {owner version : String}

/-- A line after which reading goes on is done with. -/
theorem Stage.run_of_more {n : Nat} {stage next : Stage} {s : String} {rest : List Line}
    (h : stage.step refer owner (n + 1) (trim s.toList) = pure (.more next)) :
    Stage.run refer owner n stage (.text s :: rest)
      = Stage.run refer owner (n + 1) next rest := by
  rw [Stage.run, h, pure_bind]

/-- What a declaration among the members leads to. -/
theorem Stage.step_members_declaration {n : Nat} {ms ms' : Members} {cs : List Char}
    {d : Declaration} (hcs : declaration? cs = some d)
    (hd : Stage.declare refer n ms d = pure ms') :
    Stage.step refer owner n cs (.members version ms) = pure (.more (.members version ms')) := by
  rw [Stage.step, BodyLine.ofText_of_declaration? hcs]
  dsimp only
  rw [hd, pure_bind]

/-- The declaration of a field without members adds the field. -/
theorem declare_plain {f : Field} (h : f.IsWellFormed) (hlast : f.HasLast)
    (hplain : f.isPlain = true) (n : Nat) (ms : Members) :
    Stage.declare refer n ms { name := f.name, spec := f.spec, comment := f.comment }
      = pure (ms.add f) := by
  have hfield : ∃ spec, f.spec = .plain spec ∧ spec.field f.name f.comment = .ok f := by
    cases f with
    | scalar f => exact ⟨_, rfl, ScalarField.IsWellFormed.field_eq h⟩
    | text f => exact ⟨_, rfl, TextField.IsWellFormed.field_eq h⟩
    | array f => exact ⟨_, rfl, ArrayField.IsWellFormed.field_eq h (hlast f rfl)⟩
    | struct name comment members => exact nomatch hplain
  obtain ⟨spec, hspec, hbuild⟩ := hfield
  unfold Stage.declare
  dsimp only
  rw [h.nameText.nameOf_eq, Traced.lift_ok, pure_bind, hspec]
  dsimp only
  rw [hbuild]

/-- The declaration of a structure opens it. -/
theorem declare_struct {name comment : String} (h : IsNameText name) (n : Nat) (ms : Members) :
    Stage.declare refer n ms { name, spec := .struct, comment }
      = pure (ms.openStruct name comment) := by
  unfold Stage.declare
  dsimp only
  rw [h.nameOf_eq, Traced.lift_ok, pure_bind]

/-- Fields are added to the innermost open structure. -/
theorem foldl_add_openStruct (own : List Field) (s : OpenStruct) (outer : List OpenStruct)
    (fs : List Field) :
    fs.foldl Members.add ⟨own, s :: outer⟩
      = ⟨own, { s with members := fs.reverse ++ s.members } :: outer⟩ := by
  induction fs generalizing s with
  | nil => rfl
  | cons f fs ih =>
      rw [List.foldl_cons]
      show fs.foldl Members.add ⟨own, { s with members := f :: s.members } :: outer⟩ = _
      rw [ih]
      simp

/-- Fields that are added while no structure is open are members of the
    definition. -/
theorem foldl_add_empty (own fs : List Field) :
    fs.foldl Members.add ⟨own, []⟩ = ⟨fs.reverse ++ own, []⟩ := by
  induction fs generalizing own with
  | nil => rfl
  | cons f fs ih =>
      rw [List.foldl_cons]
      show fs.foldl Members.add ⟨f :: own, []⟩ = _
      rw [ih]
      simp

/-- At its closing line a structure with its members is added to the one
    around it. -/
theorem close_openStruct (ms : Members) (name comment : String) (fs : List Field) :
    Stage.close version (fs.foldl Members.add (ms.openStruct name comment))
      = .members version (ms.add (.struct name (oneLine comment) fs)) := by
  unfold Members.openStruct
  rw [foldl_add_openStruct]
  unfold Stage.close OpenStruct.close
  simp

/-- A closing line closes the innermost open structure. -/
theorem step_closing (n : Nat) (ms : Members) :
    Stage.step refer owner n "END_STRUCT;".toList (.members version ms)
      = pure (.more (Stage.close version ms)) := by
  have hclosing : BodyLine.ofText "END_STRUCT;".toList = .closing := by decide
  rw [Stage.step, hclosing]

/-- The first line of a field, wherever it stands, leads to what its
    declaration leads to. -/
theorem step_opening {f : Field} (h : f.IsWellFormed) {ms ms' : Members} (depth n : Nat)
    (hd : Stage.declare refer n ms { name := f.name, spec := f.spec, comment := f.comment }
      = pure ms') :
    Stage.step refer owner n (trim (lineAt depth f.opening).toList) (.members version ms)
      = pure (.more (.members version ms')) := by
  rw [trim_lineAt (Field.isTrimmed_opening h)]
  exact Stage.step_members_declaration (Field.declaration?_opening h) hd

/-- A closing line does so at any depth. -/
theorem step_closing_lineAt (depth n : Nat) (ms : Members) :
    Stage.step refer owner n (trim (lineAt depth "END_STRUCT;".toList).toList)
        (.members version ms)
      = pure (.more (Stage.close version ms)) := by
  rw [trim_lineAt Field.isTrimmed_closing]
  exact step_closing n ms

variable (refer owner version) in
/-- From any members, the lines of a field lead to those members with the
    field added. -/
def AddsField (f : Field) : Prop :=
  ∀ (depth n : Nat) (ms : Members) (rest : List Line),
    Stage.run refer owner n (.members version ms)
        ((Field.lines depth f).map Line.text ++ rest)
      = Stage.run refer owner (n + (Field.lines depth f).length)
          (.members version (ms.add f.settled)) rest

/-- The lines of several fields lead to the members with all of them added. -/
theorem run_linesAll {fs : List Field} (h : ∀ f ∈ fs, AddsField refer owner version f)
    (depth n : Nat) (ms : Members) (rest : List Line) :
    Stage.run refer owner n (.members version ms)
        ((Field.linesAll depth fs).map Line.text ++ rest)
      = Stage.run refer owner (n + (Field.linesAll depth fs).length)
          (.members version ((Field.settledAll fs).foldl Members.add ms)) rest := by
  induction fs generalizing n ms with
  | nil => rfl
  | cons f fs ih =>
      rw [Field.linesAll, List.map_append, List.append_assoc, h f (by simp) depth n ms,
        ih (fun g hg => h g (by simp [hg])), List.length_append, Nat.add_assoc]
      rfl

/-- A line that opens a structure, the lines of its members and a closing line
    lead to the members with that structure added. -/
theorem run_struct {head name comment : String} {members : List Field}
    (hopen : ∀ n ms, Stage.step refer owner n (trim head.toList) (.members version ms)
      = pure (.more (.members version (ms.openStruct name comment))))
    (hmembers : ∀ f ∈ members, AddsField refer owner version f)
    (depth n : Nat) (ms : Members) (rest : List Line) :
    Stage.run refer owner n (.members version ms)
        ((head :: (Field.linesAll (depth + 1) members
          ++ [lineAt depth "END_STRUCT;".toList])).map Line.text ++ rest)
      = Stage.run refer owner
          (n + (head :: (Field.linesAll (depth + 1) members
            ++ [lineAt depth "END_STRUCT;".toList])).length)
          (.members version
            (ms.add (.struct name (oneLine comment) (Field.settledAll members)))) rest := by
  rw [List.map_cons, List.cons_append, Stage.run_of_more (hopen (n + 1) ms),
    List.map_append, List.append_assoc, run_linesAll hmembers, List.map_singleton,
    List.singleton_append, Stage.run_of_more (step_closing_lineAt depth _ _),
    close_openStruct, List.length_cons, List.length_append, List.length_singleton]
  -- the first and the closing line are counted
  congr 1
  omega

/-- Every field of a well-formed tree is added by the lines that are written for
    it. -/
theorem addsField {f : Field} (h : ∀ g ∈ f.nodes, g.IsWellFormed ∧ g.HasLast) :
    AddsField refer owner version f := by
  induction f using Field.induction with
  | plain f hplain =>
      intro depth n ms rest
      obtain ⟨hwf, hlast⟩ := h f (Field.mem_nodes_self f)
      rw [Field.lines_plain hplain, Field.settled_plain hplain]
      exact Stage.run_of_more
        (step_opening hwf depth (n + 1) (declare_plain hwf hlast hplain (n + 1) ms))
  | struct name comment members ih =>
      intro depth n ms rest
      obtain ⟨hwf, -⟩ := h _ (Field.mem_nodes_self (.struct name comment members))
      -- its members are added to the structure that its first line opens
      have hmembers : ∀ f ∈ members, AddsField refer owner version f := fun f hf =>
        ih f hf fun g hg => h g (Field.mem_nodes_struct.mpr (Or.inr ⟨f, hf, hg⟩))
      have hopen : ∀ n ms, Stage.step refer owner n
          (trim (lineAt depth (Field.struct name comment members).opening).toList)
          (.members version ms)
          = pure (.more (.members version (ms.openStruct name comment))) := fun n ms =>
        step_opening hwf depth n (declare_struct hwf.1 n ms)
      rw [Field.lines_struct, Field.settled]
      exact run_struct hopen hmembers depth n ms rest

end Members

/-! ## Reading a definition -/

namespace TypeDefinition

variable {t : TypeDefinition}

/-- The heading of a written definition, without what follows it. -/
def headingText (t : TypeDefinition) : List Char :=
  "TYPE \"".toList ++ (t.name.toList ++ '"' :: (remark t.comment).toList)

theorem toList_heading (t : TypeDefinition) :
    ("TYPE \"" ++ t.name ++ "\"" ++ remark t.comment).toList = t.headingText := by
  unfold headingText
  simp

/-- The heading gives the name and the comment of the definition. -/
theorem heading?_headingText (h : t.IsWellFormed) :
    heading? t.headingText = some (t.name.toList, trim t.comment.toList) := by
  have hword : word? "TYPE".toList t.headingText
      = some (' ' :: '"' :: (t.name.toList ++ '"' :: (remark t.comment).toList)) := rfl
  have hspan : spanTo '"' (t.name.toList ++ '"' :: (remark t.comment).toList)
      = (t.name.toList, '"' :: (remark t.comment).toList) :=
    spanTo_append (fun hc => h.name.ne_quote hc rfl)
      (fun c hc => isGap_of_isBlank_eq_false (h.name.trimmed.head c hc)) rfl _
  unfold heading?
  simp only [hword, mark?_space, mark?_cons (m := '"') rfl, hspan, ending?_remark,
    h.name.trimmed.trim_eq, Option.bind_eq_bind, Option.bind_some, Option.pure_def]

/-- The heading starts with a keyword and ends with a quote or a comment. -/
theorem isTrimmed_headingText (t : TypeDefinition) : IsTrimmed t.headingText := by
  have hquote : ∃ c, ("TYPE \"".toList ++ (t.name.toList ++ ['"'])).getLast? = some c
      ∧ isBlank c = false := by
    refine ⟨'"', ?_, by decide⟩
    rw [← List.append_assoc, List.getLast?_concat]
  obtain ⟨c, hc, hblank⟩ := Field.getLast?_append_remark t.comment hquote
  have happend : t.headingText
      = "TYPE \"".toList ++ (t.name.toList ++ ['"']) ++ (remark t.comment).toList := by
    unfold headingText
    simp
  constructor
  · intro d hd
    rw [← Option.some.inj hd]
    decide
  · intro d hd
    rw [happend, hc] at hd
    rw [← Option.some.inj hd]
    exact hblank

/-- The heading is one line of text. -/
theorem isLine_headingText (h : t.IsWellFormed) : IsLine t.headingText := by
  refine (isTrimmed_headingText t).isLine ?_
  have hname : '\n' ∉ t.name.toList := fun hn => absurd (h.name.breakless hn) (by decide)
  have hremark : '\n' ∉ (remark t.comment).toList := by
    rw [Field.mem_remark (by decide), h.comment.trimmed.trim_eq]
    exact h.comment.isRemark.unbroken
  unfold headingText
  simp [hname, hremark]

/-- The first line that is written is found as the heading. -/
theorem find_heading (h : t.IsWellFormed) (rest : List Line) :
    Heading.find 0
        (.text ("TYPE \"" ++ t.name ++ "\"" ++ remark t.comment) :: rest)
      = .ok { name := t.name, comment := t.comment, line := 1, rest } := by
  have htrim := (isTrimmed_headingText t).trim_eq
  have hclean : Heading.clean ("TYPE \"" ++ t.name ++ "\"" ++ remark t.comment)
      = t.headingText := by
    unfold Heading.clean
    rw [toList_heading, dropWhile_eq_self, htrim]
    intro c hc
    rw [← Option.some.inj hc]
    decide
  have hname : String.ofList t.name.toList = t.name := String.ofList_toList
  have hcomment : String.ofList (trim t.comment.toList) = t.comment := by
    rw [h.comment.trimmed.trim_eq, String.ofList_toList]
  rw [Heading.find, toList_heading, htrim]
  unfold Heading.ofText
  dsimp only
  rw [hclean, heading?_headingText h]
  dsimp only
  rw [hname, hcomment, h.name.nameOf_eq]
  rfl

/-- A version line is read back, whatever its trailing blank. -/
theorem version?_line (h : t.IsWellFormed) :
    version? (trim ("VERSION : " ++ t.version).toList) = some t.version.toList := by
  by_cases hempty : t.version = ""
  · rw [hempty]
    decide
  · have hne : t.version.toList ≠ [] := fun hnil => hempty (String.toList_eq_nil_iff.mp hnil)
    have htrim : IsTrimmed ("VERSION : ".toList ++ t.version.toList) :=
      isTrimmed_append (by decide) hne (by
        intro c hc
        rw [← Option.some.inj hc]
        decide) h.version.last
    have hword : word? "VERSION".toList ("VERSION : ".toList ++ t.version.toList)
        = some (' ' :: ':' :: ' ' :: t.version.toList) := rfl
    have hversion : versionOf (' ' :: ':' :: ' ' :: t.version.toList) = t.version.toList := by
      show versionOf t.version.toList = t.version.toList
      exact h.version.versionOf_eq
    rw [String.toList_append, htrim.trim_eq]
    unfold version?
    rw [hword, Option.map_some, hversion]

theorem isLine_version (h : t.IsWellFormed) : IsLine ("VERSION : " ++ t.version).toList := by
  rw [String.toList_append]
  constructor
  · have hn : '\n' ∉ t.version.toList := fun hn =>
      absurd (h.version.breakless _ hn) (by decide)
    simp [hn]
  · -- an empty version leaves the blank behind the colon at the end
    intro hr
    rw [List.getLast?_append] at hr
    cases hlast : t.version.toList.getLast? with
    | none =>
        rw [hlast] at hr
        exact absurd hr (by decide)
    | some c =>
        rw [hlast, Option.some_or] at hr
        obtain rfl := Option.some.inj hr
        exact absurd (h.version.last _ hlast) (by decide)

/-- Each line of a written definition is one line. -/
theorem isLine_of_mem_lines (h : t.IsWellFormed) : ∀ l ∈ t.lines, IsLine l.toList := by
  intro l hl
  unfold lines at hl
  simp only [List.mem_append, List.mem_cons, List.not_mem_nil, or_false] at hl
  rcases hl with ((rfl | rfl | rfl) | hl) | rfl | rfl | rfl
  · rw [toList_heading]
    exact isLine_headingText h
  · exact isLine_version h
  · exact ⟨by decide, by decide⟩
  · rw [Field.linesAll_eq_flatMap] at hl
    obtain ⟨f, hf, hl⟩ := List.mem_flatMap.mp hl
    refine Field.isLine_of_mem_lines (fun g hg => h.members g ?_) l hl
    exact Field.mem_nodesAll.mpr ⟨f, hf, hg⟩
  · exact ⟨by decide, by decide⟩
  · exact ⟨by decide, by decide⟩
  · exact ⟨by decide, by decide⟩

/-- What is written is cut into the lines that were written. -/
theorem linesOfText_render (h : t.IsWellFormed) :
    linesOfText t.render = t.lines.map Line.text :=
  linesOfText_ofLines (isLine_of_mem_lines h)

/-- After its heading a written definition gives its version and its settled
    members. -/
theorem run_lines (h : t.IsWellFormed) (hlast : ∀ f ∈ t.nodes, f.HasLast)
    (refer : String → String → Traced TypeDefinition) :
    Stage.run refer t.name 1 .metadata (t.lines.tail.map Line.text)
      = pure (t.version, Field.settledAll t.members) := by
  have hfields : ∀ f ∈ t.members, AddsField refer t.name t.version f := fun f hf =>
    addsField fun g hg =>
      have hnode : g ∈ t.nodes := Field.mem_nodesAll.mpr ⟨f, hf, hg⟩
      ⟨h.members g hnode, hlast g hnode⟩
  have hversion : Stage.step refer t.name 2 (trim ("VERSION : " ++ t.version).toList) .metadata
      = pure (.more (.opening t.version)) := by
    rw [Stage.step, version?_line h]
    dsimp only
    rw [String.ofList_toList]
  have hopen : Stage.step refer t.name 3 (trim (indent 1 ++ "STRUCT").toList)
      (.opening t.version) = pure (.more (.members t.version .empty)) := rfl
  have hclose : ∀ n ms, Stage.step refer t.name (n + 1)
      (trim (indent 1 ++ "END_STRUCT;").toList) (.members t.version ms)
      = pure (.more (Stage.close t.version ms)) := by
    intro n ms
    exact step_closing (n + 1) ms
  have hblank : ∀ n fs, Stage.step refer t.name (n + 1) (trim "".toList) (.footer t.version fs)
      = pure (.more (.footer t.version fs)) := fun n fs => rfl
  have hend : ∀ n fs, Stage.step refer t.name (n + 1) (trim "END_TYPE".toList)
      (.footer t.version fs) = pure (.done t.version fs) := fun n fs => rfl
  -- version and opening lead to no members, from where the invariant takes over
  show Stage.run refer t.name 1 .metadata
    (.text ("VERSION : " ++ t.version) :: .text (indent 1 ++ "STRUCT")
      :: ((Field.linesAll 2 t.members ++ [indent 1 ++ "END_STRUCT;", "", "END_TYPE"]).map
        Line.text)) = _
  rw [Stage.run_of_more hversion, Stage.run_of_more hopen, List.map_append,
    run_linesAll hfields]
  -- with no structure open, the closing line ends the members
  show Stage.run refer t.name _ _
    [.text (indent 1 ++ "END_STRUCT;"), .text "", .text "END_TYPE"] = _
  rw [Stage.run_of_more (hclose _ _), Members.empty, foldl_add_empty, Stage.close]
  dsimp only
  rw [Stage.run_of_more (hblank _ _), Stage.run, hend, pure_bind, List.append_nil,
    List.reverse_reverse]

/-- **A WRITTEN DEFINITION IS READ BACK**: a well-formed definition, all of
    whose arrays have a last index, is read from what is written for it with
    its comments settled, whatever references mean. -/
theorem ofLines_render (h : t.IsWellFormed) (hlast : ∀ f ∈ t.nodes, f.HasLast)
    {within : List String} (hnew : isWithin within t.name = false)
    (refer : (h : Heading) → Heading.find 0 (linesOfText t.render) = .ok h →
      isWithin within h.name = false → String → String → Traced TypeDefinition) :
    ofLines within (linesOfText t.render) refer
      = ⟨[.begun t.name within], .ok t.settled⟩ := by
  have hfound : Heading.find 0 (linesOfText t.render)
      = .ok { name := t.name, comment := t.comment, line := 1,
              rest := t.lines.tail.map Line.text } := by
    rw [linesOfText_render h]
    exact find_heading h _
  -- the stored name and version are what making the definition stores
  have hcreate : create t.name t.version (Field.settledAll t.members)
      = .ok ⟨t.name, t.version, "", Field.settledAll t.members⟩ := by
    refine create_eq_ok.mpr ⟨t.name, h.name.nameOf_eq, h.version.breakless, ?_⟩
    rw [h.version.versionOf_eq, String.ofList_toList]
  rw [ofLines_of_found hfound hnew]
  unfold Heading.definition
  rw [run_lines h hlast, pure_bind]
  dsimp only
  rw [hcreate, Traced.lift_ok, pure_bind]
  unfold withComment
  rw [h.comment.oneLine_eq]
  rfl

end TypeDefinition

end PlcTypes
