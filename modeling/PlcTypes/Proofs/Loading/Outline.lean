import PlcTypes.Proofs.Loading.Entrances
import PlcTypes.Proofs.Source.Body
import PlcTypes.Proofs.Source.Heading

/-! # The outline of a source

    A source that is read has an outline: its heading and its version, the line
    that opens the members, the body with the members, the line that closes it,
    and what comes after.  The body is all that counts for the members, and
    nothing in it is lost: what it declares is the tree.  What comes after is
    not part of the definition; unless the reader warns, it is the line that
    ends the definition. -/

namespace PlcTypes

open Text Grammar

/-- The definition in whose source an event happens. -/
def Event.owner? : Event → Option String
  | begun name _ | metadata name _ | ignored name _ _ | endMissing name => some name
  | _ => none

/-- The parts of a source. -/
structure Outline where
  /-- Lines before the heading. -/
  before : List String
  heading : String
  metadata : Option String
  version : String
  /-- Lines between the version and the line that opens the members. -/
  gap : List String
  opening : String
  body : List String
  closing : String
  after : List Line

namespace Outline

/-- The lines up to the one that opens the members. -/
def front (o : Outline) : List String :=
  o.before ++ o.heading :: (o.metadata.toList ++ o.version :: (o.gap ++ [o.opening]))

/-- All lines. -/
def lines (o : Outline) : List Line :=
  (o.front ++ (o.body ++ [o.closing])).map Line.text ++ o.after

/-- The parts are what they are called, and the body declares the members. -/
structure Declares (o : Outline) (refer : String → String → Traced TypeDefinition)
    (members : List Field) : Prop where
  before : ∀ l ∈ o.before, trim l.toList = []
  heading : (heading? (Heading.clean o.heading)).isSome = true
  metadata : ∀ l ∈ o.metadata, version? (trim l.toList) = none
  version : (version? (trim o.version.toList)).isSome = true
  gap : ∀ l ∈ o.gap, trim l.toList = []
  opening : isStruct (trim o.opening.toList) = true
  body : PlcTypes.Declares refer o.body members
  closing : closesStruct o.closing = true

end Outline

namespace Stage

section Frame

variable {refer : String → String → Traced TypeDefinition} {owner : String}
  {b : String × List Field}

/-! ## Before the members -/

/-- Up to the line that opens the members there are blank lines only. -/
theorem exists_opening {n : Nat} {v : String} {lines : List Line}
    (h : (run refer owner n (.opening v) lines).outcome = .ok b) :
    ∃ (gap : List String) (opening : String) (rest : List Line) (m : Nat),
      lines = (gap ++ [opening]).map Line.text ++ rest ∧ (∀ l ∈ gap, trim l.toList = []) ∧
        isStruct (trim opening.toList) = true ∧
          (run refer owner m (.members v .empty) rest).outcome = .ok b ∧
            (run refer owner m (.members v .empty) rest).events
              <:+ (run refer owner n (.opening v) lines).events := by
  induction lines generalizing n with
  | nil => exact nomatch h
  | cons line rest ih =>
      cases line with
      | unreadable fault => exact nomatch h
      | text s =>
          obtain ⟨p, hp, -⟩ := Traced.outcome_bind_eq_ok.mp h
          cases leadsTo_of_step hp with
          | gap hgap =>
              rw [run_of_step_more hp] at h ⊢
              obtain ⟨gap, opening, rest', m, rfl, hblank, hopening, hrun, hsuffix⟩ := ih h
              exact ⟨s :: gap, opening, rest', m, rfl,
                List.forall_mem_cons.mpr ⟨hgap, hblank⟩, hopening, hrun,
                hsuffix.trans (List.suffix_append _ _)⟩
          | opening _ hopening =>
              rw [run_of_step_more hp] at h ⊢
              exact ⟨[], s, rest, n + 1, rfl, nofun, hopening, h, List.suffix_append _ _⟩

/-- After the heading there are the version, perhaps behind a line of metadata,
    and the line that opens the members. -/
theorem exists_version {n : Nat} {lines : List Line}
    (h : (run refer owner n .metadata lines).outcome = .ok b) :
    ∃ (metadata : Option String) (version : String) (rest : List Line) (m : Nat) (v : String),
      lines = (metadata.toList ++ [version]).map Line.text ++ rest ∧
        (∀ l ∈ metadata, version? (trim l.toList) = none) ∧
          (version? (trim version.toList)).isSome = true ∧
            (run refer owner m (.opening v) rest).outcome = .ok b ∧
              (run refer owner m (.opening v) rest).events
                <:+ (run refer owner n .metadata lines).events := by
  obtain ⟨s, rest, p, rfl, hp⟩ := exists_step h nofun
  cases leadsTo_of_step hp with
  | early hversion =>
      rw [run_of_step_more hp] at h ⊢
      exact ⟨none, s, rest, n + 1, _, rfl, nofun, Option.isSome_of_eq_some hversion, h,
        List.suffix_append _ _⟩
  | metadata hmetadata =>
      rw [run_of_step_more hp] at h ⊢
      -- the line is metadata, so the version is on the next one
      obtain ⟨s', rest, p, rfl, hp'⟩ := exists_step h nofun
      cases leadsTo_of_step hp' with
      | version hversion =>
          rw [run_of_step_more hp'] at h ⊢
          refine ⟨some s, s', rest, n + 1 + 1, _, rfl, ?_, Option.isSome_of_eq_some hversion, h,
            (List.suffix_append _ _).trans (List.suffix_append _ _)⟩
          intro l hl
          obtain rfl := Option.some.inj hl
          exact hmetadata

/-! ## After the members -/

/-- After the members nothing is added to the definition.  Unless the reader
    warns of its source, the first line there that is not blank ends it. -/
theorem of_run_footer {n : Nat} {v : String} {fs : List Field} {lines : List Line}
    (h : (run refer owner n (.footer v fs) lines).outcome = .ok b) :
    b = (v, fs) ∧
      ((∀ e ∈ (run refer owner n (.footer v fs) lines).events,
          e.level = .warn → e.owner? ≠ some owner) →
        ∃ (blanks : List String) (last : String) (rest : List Line),
          lines = blanks.map Line.text ++ .text last :: rest ∧
            (∀ l ∈ blanks, trim l.toList = []) ∧ isEndType (trim last.toList) = true) := by
  induction lines generalizing n with
  | nil =>
      refine ⟨(Except.ok.inj h).symm, ?_⟩
      intro hquiet
      exact absurd rfl (hquiet (.endMissing owner) List.mem_cons_self rfl)
  | cons line rest ih =>
      cases line with
      | unreadable fault => exact nomatch h
      | text s =>
          obtain ⟨p, hp, hrest⟩ := Traced.outcome_bind_eq_ok.mp h
          cases leadsTo_of_step hp with
          | blank hblank =>
              rw [run_of_step_more hp] at h ⊢
              obtain ⟨hb, hfooter⟩ := ih h
              refine ⟨hb, ?_⟩
              intro hquiet
              obtain ⟨blanks, last, rest', rfl, hblanks, hlast⟩ :=
                hfooter fun e he => hquiet e (List.mem_append_right _ he)
              exact ⟨s :: blanks, last, rest', rfl,
                List.forall_mem_cons.mpr ⟨hblank, hblanks⟩, hlast⟩
          | last _ hend =>
              exact ⟨(Except.ok.inj hrest).symm, fun _ => ⟨[], s, rest, rfl, nofun, hend⟩⟩
          | ignored hblank hend =>
              have hevents : (step refer owner (n + 1) (trim s.toList) (.footer v fs)).events
                  = [.ignored owner (n + 1) (String.ofList (trim s.toList))] := by
                rw [step, if_neg (List.isEmpty_iff.not.mpr hblank),
                  if_neg (Bool.eq_false_iff.mp hend)]
                rfl
              rw [run_of_step_more hp, hevents] at h ⊢
              refine ⟨(ih h).1, ?_⟩
              intro hquiet
              -- the line is warned of
              exact absurd rfl (hquiet _ List.mem_cons_self rfl)

end Frame

end Stage

/-! ## The whole source -/

/-- A heading has its name and its members from the lines after it. -/
theorem Heading.of_conclude_eq_ok {h : Heading} (hname : IsNameText h.name)
    {v : String} {fs : List Field} {t : TypeDefinition}
    (ht : h.conclude h.name (.ok (v, fs)) = .ok t) : t.name = h.name ∧ t.members = fs := by
  rw [conclude] at ht
  cases hcreate : TypeDefinition.create h.name v fs with
  | error e =>
      rw [hcreate] at ht
      cases ht
  | ok u =>
      rw [hcreate] at ht
      obtain rfl := Except.ok.inj ht
      obtain ⟨stored, hstored, -, rfl⟩ := TypeDefinition.create_eq_ok.mp hcreate
      rw [hname.nameOf_eq] at hstored
      exact ⟨(Except.ok.inj hstored).symm, rfl⟩

namespace FileSystem

variable {fs : FileSystem} {dir : Path} {lines : List Line} {t : TypeDefinition}

/-- Lines that are read have an outline, and if there is no warning of them
    nothing but blank lines stands between the members and the end. -/
theorem outline_of_readLines (h : (fs.readLines dir lines).outcome = .ok t) :
    ∃ o : Outline, lines = o.lines ∧ o.Declares (fs.referFor [t.name] dir) t.members ∧
      ((∀ e ∈ (fs.readLines dir lines).events, e.level = .warn → e.owner? ≠ some t.name) →
        ∃ (blanks : List String) (last : String) (rest : List Line),
          o.after = blanks.map Line.text ++ .text last :: rest ∧
            (∀ l ∈ blanks, trim l.toList = []) ∧ isEndType (trim last.toList) = true) := by
  cases hfound : Heading.find 0 lines with
  | error e =>
      rw [readLines_of_no_heading hfound] at h
      exact nomatch h
  | ok head =>
      obtain ⟨before, heading, hlines, -, hbefore, hheading, -⟩ :=
        Heading.exists_front_of_find hfound
      rw [readLines_of_found hfound] at h ⊢
      dsimp only at h ⊢
      cases hrun : (Stage.run (fs.referFor [head.name] dir) head.name head.line .metadata
          head.rest).outcome with
      | error e =>
          rw [hrun] at h
          exact nomatch h
      | ok b =>
          rw [hrun] at h
          -- heading, version, opening line, body and footer, one after the other
          obtain ⟨metadata, version, rest, m, v, hrest, hmetadata, hversion, hrun', hevents⟩ :=
            Stage.exists_version hrun
          obtain ⟨gap, opening, inner, m', hinner, hgap, hopening, hrun'', hevents'⟩ :=
            Stage.exists_opening hrun'
          obtain ⟨body, closing, after, fields, hbody⟩ := Stage.exists_body hrun''
          obtain ⟨m'', hfooter, hevents''⟩ := hbody.reads
          rw [Stage.close_empty] at hfooter hevents''
          obtain ⟨rfl, hafter⟩ := Stage.of_run_footer (hfooter.trans hrun'')
          have hname := (Heading.exists_line_of_find hfound).1
          obtain ⟨ht, rfl⟩ := Heading.of_conclude_eq_ok hname h
          rw [ht]
          refine ⟨⟨before, heading, metadata, version, gap, opening, body, closing, after⟩,
            ?_, ⟨hbefore, hheading, hmetadata, hversion, hgap, hopening, hbody.declares,
              hbody.closes⟩, ?_⟩
          · rw [hlines, hrest, hinner, hbody.lines_eq, Outline.lines, Outline.front]
            simp
          · intro hquiet
            refine hafter fun e he => hquiet e (List.mem_cons_of_mem _ ?_)
            exact (hevents''.trans (hevents'.trans hevents)).subset he

end FileSystem

namespace Request

/-- **NOTHING IS LOST**: a source that is read has an outline whose body
    declares the members of the definition.  Each line of the body is exactly
    one of blank, remark, closing line and declaration.  The declarations are
    one by one the nodes of the tree, with the names that are declared.  The
    closing lines, the last included, are one more than the structures that are
    opened, and fewer before it.  Unless the reader warns of the source, the
    first line after the body that is not blank ends the definition. -/
theorem exists_outline {fs : FileSystem} {r : Request} {t : TypeDefinition}
    (h : (r.answer fs).outcome = .ok t) :
    ∃ o : Outline, r.lines? fs = some o.lines ∧
      o.Declares (fs.referFor [t.name] r.dir) t.members ∧
      (∀ s ∈ o.body, [(trim s.toList).isEmpty, atComment (trim s.toList),
        isEndStruct (trim s.toList), (declaration? (trim s.toList)).isSome].count true = 1) ∧
      (∃ pairs : List (Declaration × Field),
        pairs.map Prod.fst = o.body.filterMap declared? ∧
          (∀ p ∈ pairs, p.2.name = p.1.name) ∧
            t.nodes = pairs.flatMap fun p => nodesFor p.1 p.2) ∧
      ((o.body ++ [o.closing]).countP closesStruct
          = (o.body ++ [o.closing]).countP opensStruct + 1 ∧
        ∀ k ≤ o.body.length, ((o.body ++ [o.closing]).take k).countP closesStruct
          ≤ ((o.body ++ [o.closing]).take k).countP opensStruct) ∧
      ((∀ e ∈ (r.answer fs).events, e.level = .warn → e.owner? ≠ some t.name) →
        ∃ (blanks : List String) (last : String) (rest : List Line),
          o.after = blanks.map Line.text ++ .text last :: rest ∧
            (∀ l ∈ blanks, trim l.toList = []) ∧ isEndType (trim last.toList) = true) := by
  obtain ⟨lines, hlines⟩ := lines?_of_answer h
  rw [answer_eq hlines] at h ⊢
  obtain ⟨o, rfl, hdeclares, hafter⟩ := FileSystem.outline_of_readLines h
  have hbalanced := hdeclares.body.balanced
  have hclosing : opensStruct o.closing = false :=
    opensStruct_of_declared? (declared?_of_closesStruct hdeclares.closing)
  refine ⟨o, hlines, hdeclares, ?_, hdeclares.body.exists_nodes, ⟨?_, ?_⟩, hafter⟩
  · intro s hs
    exact BodyLine.count_kinds (hdeclares.body.ofText_ne s hs)
  · simp [hdeclares.closing, hclosing, hbalanced.whole]
  · intro k hk
    rw [List.take_append_of_le_length hk]
    exact hbalanced.front k

/-- A file with a blank line, a remark, a nested structure with a reference in
    it, and a blank line before its end; and the file that it refers to, which
    has no such end. -/
def doorFiles : FileSystem where
  home := []
  entries :=
    [(["Door.udt"], .file (Utf8.encode
      ("TYPE \"Door\"\nVERSION : 0.1\nSTRUCT\n\n// inputs\nleaf : STRUCT // left\nx : \"Axis\";\n"
        ++ "END_STRUCT;\nopen : Bool;\nEND_STRUCT; // of Door\n\nEND_TYPE\nmore\n").toList)),
     (["Axis.udt"], .file (Utf8.encode
      "TYPE \"Axis\"\nVERSION : 0.1\nSTRUCT\npos : Real;\nEND_STRUCT;\nskipped\n".toList))]

/-- The definition in the first of these files. -/
def door : TypeDefinition where
  name := "Door"
  version := "0.1"
  comment := ""
  members :=
    [.struct "leaf" "left" [.struct "x" "" [.scalar ⟨"pos", "", .real, none⟩]],
     .scalar ⟨"open", "", .bool, none⟩]

theorem exists_outline_door :
    ((Request.path ⟨"Door.udt"⟩).answer doorFiles).outcome = .ok door ∧
      ∃ o : Outline, (Request.path ⟨"Door.udt"⟩).lines? doorFiles = some o.lines ∧
        o.Declares (doorFiles.referFor ["Door"] ⟨""⟩) door.members ∧
        ∃ (blanks : List String) (last : String) (rest : List Line),
          o.after = blanks.map Line.text ++ .text last :: rest ∧
            isEndType (trim last.toList) = true := by
  -- the other file is warned of, this one is not
  have hgiven : ((Request.path ⟨"Door.udt"⟩).answer doorFiles).outcome = .ok door ∧
      ∀ e ∈ ((Request.path ⟨"Door.udt"⟩).answer doorFiles).events,
        e.level = .warn → e.owner? ≠ some door.name := by
    decide +kernel
  obtain ⟨hread, hquiet⟩ := hgiven
  have hdir : (Request.path ⟨"Door.udt"⟩).dir = ⟨""⟩ := by
    decide +kernel
  obtain ⟨o, hlines, hdeclares, -, -, -, hafter⟩ := exists_outline hread
  obtain ⟨blanks, last, rest, hrest, -, hlast⟩ := hafter hquiet
  rw [hdir] at hdeclares
  exact ⟨hread, o, hlines, hdeclares, blanks, last, rest, hrest, hlast⟩

end Request

end PlcTypes
