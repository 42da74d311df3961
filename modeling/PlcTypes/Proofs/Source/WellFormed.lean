import PlcTypes.Proofs.Field.WellFormed
import PlcTypes.Proofs.Grammar.BodyLine
import PlcTypes.Proofs.Grammar.Declaration
import PlcTypes.Proofs.Source.Definition
import PlcTypes.Proofs.Source.Line
import PlcTypes.Proofs.Text.Lines
import PlcTypes.Source.Load

/-! # What is read is well formed

    Fields reach a tree by three ways: they are made from a declaration, a
    structure is closed, or a structure is put in the place of a reference.
    The first two go through the functions that make fields; the third takes
    over members and comments as they are, so it relies on the definition
    that is referred to and on the line that refers to it.

    The invariant of reading is that every node of every member read so far
    is well formed.  One line preserves it, hence all lines do, and hence,
    since references are met with fewer and fewer names, all files do. -/

namespace PlcTypes

open Text Grammar

/-! ## Fields from declarations -/

/-- A field that can be read: well formed, and with a last index if it is an
    array. -/
structure Field.IsRead (f : Field) : Prop where
  wellFormed : f.IsWellFormed
  last : f.HasLast

/-- The last index that is read from a range is a 64-bit number. -/
theorem isIndex_of_rangeOf {range : String} {first last : Int}
    (h : rangeOf range = .ok (first, last)) : isIndex last = true := by
  unfold rangeOf at h
  dsimp only at h
  split at h
  · exact nomatch h
  · split at h
    · exact nomatch h
    · next low high _ =>
        split at h
        · exact nomatch h
        · exact nomatch h
        · next _ _ first' last' _ hhigh =>
            obtain ⟨-, rfl⟩ := Prod.mk.inj (Except.ok.inj h)
            exact (Option.filter_eq_some_iff.mp hhigh).2

/-- An array with a last index stops behind it. -/
theorem stop_of_create {name : String} {element : ScalarType} {low : Bound} {last : Int}
    {f : ArrayField} (h : ArrayField.create name element low (.included last) = .ok f) :
    f.stop = last + 1 :=
  (isIndex_of_checkIndex (ArrayField.create_eq_ok.mp h).stop).2

/-- The fields that a declaration can make can be read. -/
theorem isRead_of_field {name comment : String} {spec : PlainSpec} {f : Field}
    (h : spec.field name comment = .ok f) : ∀ g ∈ f.nodes, g.IsRead := by
  cases spec with
  | array range element initial =>
      obtain ⟨⟨first, last⟩, hrange, h⟩ := bind_eq_ok.mp h
      obtain ⟨type, -, h⟩ := bind_eq_ok.mp h
      obtain ⟨a, ha, h⟩ := bind_eq_ok.mp h
      obtain ⟨b, hb, h⟩ := bind_eq_ok.mp h
      obtain rfl := Except.ok.inj h
      have hwf : b.IsWellFormed :=
        ((ArrayField.isWellFormed_create ha).withComment comment).withDefault hb
      -- an array that is read is written with its last index, which is one
      have hstop : b.stop = last + 1 := by
        obtain ⟨value, -, hb⟩ := bind_eq_ok.mp hb
        obtain rfl := Except.ok.inj hb
        show a.stop = last + 1
        exact stop_of_create ha
      intro g hg
      obtain rfl := List.mem_singleton.mp hg
      refine ⟨hwf, ?_⟩
      rintro c hc
      obtain rfl := Field.array.inj hc
      rw [hstop, Int.add_sub_cancel]
      exact isIndex_of_rangeOf hrange
  | text length =>
      obtain ⟨capacity, -, h⟩ := bind_eq_ok.mp h
      obtain ⟨a, ha, h⟩ := bind_eq_ok.mp h
      obtain rfl := Except.ok.inj h
      have hwf : (a.withComment comment).IsWellFormed :=
        (TextField.isWellFormed_create ha).withComment comment
      intro g hg
      obtain rfl := List.mem_singleton.mp hg
      exact ⟨hwf, Field.hasLast_of_ne (by simp)⟩
  | scalar type initial =>
      obtain ⟨type', -, h⟩ := bind_eq_ok.mp h
      obtain ⟨a, ha, h⟩ := bind_eq_ok.mp h
      obtain ⟨b, hb, h⟩ := bind_eq_ok.mp h
      obtain rfl := Except.ok.inj h
      have hwf : b.IsWellFormed :=
        ((ScalarField.isWellFormed_create ha).withComment comment).withDefault hb
      intro g hg
      obtain rfl := List.mem_singleton.mp hg
      exact ⟨hwf, Field.hasLast_of_ne (by simp)⟩

/-! ## Members -/

/-- Fields every node of which can be read. -/
def AreRead (fs : List Field) : Prop :=
  ∀ g ∈ Field.nodesAll fs, g.IsRead

theorem areRead_nil : AreRead [] := nofun

/-- A list can be read if its first field can, and its rest. -/
theorem areRead_cons {f : Field} {fs : List Field} :
    AreRead (f :: fs) ↔ (∀ g ∈ f.nodes, g.IsRead) ∧ AreRead fs := by
  unfold AreRead
  rw [Field.nodesAll, List.forall_mem_append]

/-- The order of fields does not matter. -/
theorem AreRead.reverse {fs : List Field} (h : AreRead fs) : AreRead fs.reverse := by
  intro g hg
  obtain ⟨f, hf, hg⟩ := Field.mem_nodesAll.mp hg
  exact h g (Field.mem_nodesAll.mpr ⟨f, List.mem_reverse.mp hf, hg⟩)

/-- A definition that can be read. -/
structure TypeDefinition.IsRead (t : TypeDefinition) : Prop where
  wellFormed : t.IsWellFormed
  last : ∀ f ∈ t.nodes, f.HasLast

/-- The members of a definition that can be read can be read. -/
theorem TypeDefinition.IsRead.areRead {t : TypeDefinition} (h : t.IsRead) :
    AreRead t.members :=
  fun g hg => ⟨h.wellFormed.members g hg, h.last g hg⟩

/-- An open structure, and then its members. -/
structure OpenStruct.IsRead (s : OpenStruct) : Prop where
  name : IsNameText s.name
  members : AreRead s.members

/-- The members that have been read so far, in all structures that are open. -/
structure Members.AreRead (ms : Members) : Prop where
  own : PlcTypes.AreRead ms.own
  inner : ∀ s ∈ ms.inner, s.IsRead

namespace Members

variable {ms : Members}

/-- A field that can be read is added to the others. -/
theorem AreRead.add (h : ms.AreRead) {f : Field} (hf : ∀ g ∈ f.nodes, g.IsRead) :
    (ms.add f).AreRead := by
  unfold Members.add
  split
  · exact ⟨areRead_cons.mpr ⟨hf, h.own⟩, h.inner⟩
  · next s outer hinner =>
      have hinner' := h.inner
      rw [hinner, List.forall_mem_cons] at hinner'
      obtain ⟨hs, houter⟩ := hinner'
      exact ⟨h.own, List.forall_mem_cons.mpr
        ⟨⟨hs.name, areRead_cons.mpr ⟨hf, hs.members⟩⟩, houter⟩⟩

/-- A structure is opened with a name in its stored form and without members. -/
theorem AreRead.openStruct (h : ms.AreRead) {name : String} (hname : IsNameText name)
    (comment : String) : (ms.openStruct name comment).AreRead :=
  ⟨h.own, List.forall_mem_cons.mpr ⟨⟨hname, areRead_nil⟩, h.inner⟩⟩

end Members

/-- A closed structure can be read. -/
theorem OpenStruct.IsRead.close {s : OpenStruct} (h : s.IsRead) :
    ∀ g ∈ s.close.nodes, g.IsRead := by
  intro g hg
  unfold OpenStruct.close at hg
  rcases Field.mem_nodes_struct.mp hg with rfl | ⟨f, hf, hg⟩
  · exact ⟨⟨h.name, (isOneLine_oneLine s.comment).isRemark⟩, Field.hasLast_of_ne (by simp)⟩
  · exact h.members.reverse g (Field.mem_nodesAll.mpr ⟨f, hf, hg⟩)

/-- What stands in the place of a reference can be read. -/
theorem TypeDefinition.IsRead.graft {t : TypeDefinition} (h : t.IsRead) {name comment : String}
    (hname : IsNameText name) (hcomment : IsRemark comment) :
    ∀ g ∈ (t.graft name comment).nodes, g.IsRead := by
  intro g hg
  unfold TypeDefinition.graft at hg
  rcases Field.mem_nodes_struct.mp hg with rfl | ⟨f, hf, hg⟩
  · -- the comment is that of the definition or, if there is one, of the line
    refine ⟨⟨hname, ?_⟩, Field.hasLast_of_ne (by simp)⟩
    by_cases hempty : comment.isEmpty = true
    · rw [if_pos hempty]
      exact h.wellFormed.comment.isRemark
    · rw [if_neg hempty]
      exact hcomment
  · exact h.areRead g (Field.mem_nodesAll.mpr ⟨f, hf, hg⟩)

/-! ## Lines -/

/-- What holds of all that has been read at a stage. -/
def Stage.IsRead : Stage → Prop
  | members _ ms => ms.AreRead
  | footer _ fs => AreRead fs
  | _ => True

/-- What a line has led to: members that can be read. -/
def Progress.IsRead : Progress → Prop
  | more stage => stage.IsRead
  | done _ fs => AreRead fs

section Lines

variable {refer : String → String → Traced TypeDefinition} {owner : String}

/-- A closing line makes a field of an open structure, or ends the body. -/
theorem Stage.isRead_close {version : String} {ms : Members} (h : ms.AreRead) :
    (Stage.close version ms).IsRead := by
  unfold Stage.close
  split
  · exact h.own.reverse
  · next s outer hinner =>
      have hinner' := h.inner
      rw [hinner, List.forall_mem_cons] at hinner'
      obtain ⟨hs, houter⟩ := hinner'
      have hms : Members.AreRead { ms with inner := outer } := ⟨h.own, houter⟩
      exact hms.add hs.close

variable (hrefer : ∀ field target t, (refer field target).outcome = .ok t → t.IsRead)
include hrefer

/-- A declaration on a line without line feeds adds what can be read. -/
theorem Stage.Adds.areRead {ms ms' : Members} {d : Declaration} (h : Stage.Adds refer d ms ms')
    (hms : ms.AreRead) (hcomment : IsRemark d.comment) : ms'.AreRead := by
  cases h with
  | struct hname hspec => exact hms.openStruct (isNameText_of_nameOf hname) d.comment
  | reference hname hspec ht =>
      exact hms.add ((hrefer _ _ _ ht).graft (isNameText_of_nameOf hname) hcomment)
  | plain hname hspec hf => exact hms.add (isRead_of_field hf)

/-- **ONE LINE PRESERVES THE INVARIANT**: what has been read can be read. -/
theorem Stage.isRead_step {n : Nat} {cs : List Char} {stage : Stage} {p : Progress}
    (hcs : '\n' ∉ cs) (hstage : stage.IsRead)
    (h : (stage.step refer owner n cs).outcome = .ok p) : p.IsRead := by
  cases Stage.leadsTo_of_step h with
  | metadata | early | version | gap => exact trivial
  | opening => exact ⟨areRead_nil, nofun⟩
  | skip | blank | last | ignored => exact hstage
  | closing => exact Stage.isRead_close hstage
  | declaration hline hms =>
      obtain ⟨htrim, hpart⟩ := comment_of_declaration? (BodyLine.declaration?_of_ofText hline)
      exact hms.areRead hrefer hstage ⟨htrim, fun hn => hcs (hpart.subset hn)⟩

/-- All lines preserve the invariant. -/
theorem Stage.areRead_run {n : Nat} {stage : Stage} {lines : List Line} {version : String}
    {fs : List Field} (hlines : Unbroken lines) (hstage : stage.IsRead)
    (h : (Stage.run refer owner n stage lines).outcome = .ok (version, fs)) : AreRead fs := by
  induction lines generalizing n stage with
  | nil =>
      cases stage with
      | metadata | version | opening v | members v ms => exact nomatch h
      | footer v fs' =>
          obtain ⟨-, -, h⟩ := Traced.outcome_bind_eq_ok.mp h
          obtain ⟨-, rfl⟩ := Prod.mk.inj (Except.ok.inj h)
          exact hstage
  | cons line rest ih =>
      have hrest : Unbroken rest := fun s hs => hlines s (by simp [hs])
      cases line with
      | unreadable fault => exact nomatch h
      | text s =>
          have hcs : '\n' ∉ trim s.toList := fun hn =>
            hlines s (by simp) (mem_of_mem_trim hn)
          rw [Stage.run] at h
          obtain ⟨p, hp, h⟩ := Traced.outcome_bind_eq_ok.mp h
          have hp' := Stage.isRead_step hrefer hcs hstage hp
          cases p with
          | more next => exact ih hrest hp' h
          | done v fs' =>
              obtain ⟨-, rfl⟩ := Prod.mk.inj (Except.ok.inj h)
              exact hp'

end Lines

/-! ## Definitions -/

/-- A definition that is made of a heading and a body can be read. -/
theorem Heading.isRead_definition {h : Heading} {t : TypeDefinition}
    {refer : String → String → Traced TypeDefinition}
    (hrefer : ∀ field target t, (refer field target).outcome = .ok t → t.IsRead)
    (hrest : Unbroken h.rest) (ht : (h.definition refer).outcome = .ok t) : t.IsRead := by
  obtain ⟨⟨version, fs⟩, hrun, ht⟩ := Traced.outcome_bind_eq_ok.mp ht
  obtain ⟨bare, hcreate, ht⟩ := Traced.outcome_bind_eq_ok.mp ht
  obtain rfl := Except.ok.inj ht
  have hstart : Stage.metadata.IsRead := trivial
  have hfs : AreRead fs := Stage.areRead_run hrefer hrest hstart hrun
  refine ⟨?_, fun f hf => ?_⟩
  · exact (TypeDefinition.isWellFormed_create hcreate fun f hf =>
      (hfs f hf).wellFormed).withComment h.comment
  · have hmembers := TypeDefinition.members_of_create hcreate
    refine (hfs f ?_).last
    rw [← hmembers]
    exact hf

/-- What is read from lines without line feeds can be read, if what its references
    mean can. -/
theorem TypeDefinition.isRead_ofLines {within : List String} {lines : List Line}
    {refer : (h : Heading) → Heading.find 0 lines = .ok h →
      isWithin within h.name = false → String → String → Traced TypeDefinition}
    (hlines : Unbroken lines)
    (hrefer : ∀ h hfound hnew field target t,
      (refer h hfound hnew field target).outcome = .ok t → t.IsRead)
    {t : TypeDefinition} (ht : (ofLines within lines refer).outcome = .ok t) : t.IsRead := by
  obtain ⟨h, hfound, hnew, ht⟩ := outcome_ofLines_eq_ok ht
  refine h.isRead_definition (hrefer h hfound hnew) ?_ ht
  exact fun s hs => hlines s ((Heading.rest_suffix hfound).subset hs)

/-! ## Files -/

namespace FileSystem

variable {fs : FileSystem}

/-- There are no line feeds in the lines of a file. -/
theorem unbroken_lines? {path : Path} {lines : List Line} (h : fs.lines? path = some lines) :
    Unbroken lines := by
  obtain ⟨entry, -, rfl⟩ := Option.map_eq_some_iff.mp h
  cases entry with
  | file bytes => exact unbroken_linesOfBytes bytes
  | directory =>
      intro s hs
      exact nomatch List.mem_singleton.mp hs

/-- A reference can be read when the file can that it leads to. -/
theorem isRead_refer {dir : Path} {load : Path → Traced TypeDefinition}
    (hload : ∀ p t, (load p).outcome = .ok t → t.IsRead) {field target : String}
    {t : TypeDefinition} (ht : (fs.refer dir load field target).outcome = .ok t) : t.IsRead := by
  obtain ⟨path, -, ht⟩ := Traced.outcome_bind_eq_ok.mp ht
  obtain ⟨-, -, ht⟩ := Traced.outcome_bind_eq_ok.mp ht
  exact hload path t ht

/-- Every definition that is loaded can be read, by induction on the references. -/
theorem isRead_load {within : List String} {path dir : Path} {t : TypeDefinition}
    (ht : (fs.load within path dir).outcome = .ok t) : t.IsRead := by
  induction within, path, dir using load.induct fs generalizing t with
  | case1 within path dir hmissing =>
      rw [load_of_missing hmissing] at ht
      exact nomatch ht
  | case2 within path dir lines hthere ih =>
      -- induction on the names that are not met yet
      rw [load_of_lines hthere] at ht
      refine TypeDefinition.isRead_ofLines (unbroken_lines? hthere) ?_ ht
      intro h hfound hnew field target t ht
      exact isRead_refer (fun p t ht => ih h hfound hnew p ht) ht

/-- **WHAT IS READ IS WELL FORMED**, from any lines and any files. -/
theorem isRead_readLines {dir : Path} {lines : List Line} (hlines : Unbroken lines)
    {t : TypeDefinition} (ht : (fs.readLines dir lines).outcome = .ok t) : t.IsRead := by
  refine TypeDefinition.isRead_ofLines hlines ?_ ht
  intro h hfound hnew field target t ht
  exact isRead_refer (fun p t ht => isRead_load ht) ht

/-- What is read from a text is well formed. -/
theorem isRead_readText {source : String} {dir : Path} {t : TypeDefinition}
    (ht : (fs.readText source dir).outcome = .ok t) : t.IsRead :=
  isRead_readLines (unbroken_linesOfText source) ht

end FileSystem

end PlcTypes
