import PlcTypes.Proofs.Loading.Entrances
import PlcTypes.Proofs.RoundTrip.Definition
import PlcTypes.Proofs.RoundTrip.Spelling
import PlcTypes.Proofs.Source.Alike
import PlcTypes.Proofs.Source.Heading
import PlcTypes.Proofs.Source.Line
import PlcTypes.Proofs.Source.WellFormed

/-! # A reference is the same as the type written in its place

    Each line that refers to a definition is replaced by the line that opens a
    structure with the same name, the lines of the members of the definition,
    and a closing line.  All other lines are kept, whatever they are.  What
    results is read without any file, and the definition in it differs from the
    one before in comments of structures at most.

    The two sources are read side by side.  On lines that are kept both readers
    take the same step, from stages that are alike; where a reference has been
    replaced, one asks for a definition and grafts it, and the other reads its
    members from the lines that were written for them. -/

namespace PlcTypes

open Text Grammar Render

/-! ## Replacing references -/

/-- The lines that stand for a definition in the place of the line `cs`, which
    refers to it with a comment. -/
def TypeDefinition.writtenFor (u : TypeDefinition) (depth : Nat) (cs : List Char)
    (comment : String) : List String :=
  lineAt depth (structHead cs (if comment.isEmpty then u.comment else comment))
    :: (Field.linesAll (depth + 1) u.members ++ [lineAt depth "END_STRUCT;".toList])

namespace Stage

/-- A line, or what is written in its place if it makes a reference. -/
def writtenAt (refer : String → String → Traced TypeDefinition) (depth : Nat) (stage : Stage)
    (s : String) : List Line :=
  match stage.reference? (trim s.toList) with
  | none => [.text s]
  | some (_, _, r) =>
      match (refer r.field r.target).outcome with
      | .error _ => [.text s]
      | .ok u => (u.writtenFor depth (trim s.toList) r.comment).map Line.text

/-- The lines after line `n` with their references replaced, as far as they are
    read. -/
def inlined (refer : String → String → Traced TypeDefinition) (owner : String) (depth n : Nat)
    (stage : Stage) : List Line → List Line
  | [] => []
  | .unreadable fault :: rest => .unreadable fault :: rest
  | .text s :: rest =>
      stage.writtenAt refer depth s ++
        match (stage.step refer owner (n + 1) (trim s.toList)).outcome with
        | .ok (.more next) => inlined refer owner depth (n + 1) next rest
        | _ => rest

end Stage

/-- The lines of a source with its references replaced. -/
def FileSystem.inlined (fs : FileSystem) (dir : Path) (depth : Nat) (lines : List Line) :
    List Line :=
  match Heading.find 0 lines with
  | .error _ => lines
  | .ok h =>
      lines.take h.line
        ++ Stage.inlined (fs.referFor [h.name] dir) h.name depth h.line .metadata h.rest

/-! ## What is written in the place of a reference -/

section Written

variable {u : TypeDefinition} {cs : List Char} {d : Declaration} {name : String}

/-- The comment of what stands for a definition. -/
theorem TypeDefinition.IsRead.isRemark_comment (hu : u.IsRead) (hcomment : IsRemark d.comment) :
    IsRemark (if d.comment.isEmpty then u.comment else d.comment) := by
  split
  · exact hu.wellFormed.comment.isRemark
  · exact hcomment

/-- From what is written for a definition in the place of a reference, the
    reader adds the field that it adds for the reference, with its comments on
    one line. -/
theorem run_writtenFor (hu : u.IsRead) (htrim : IsTrimmed cs) (hcs : declaration? cs = some d)
    (hname : nameOf d.name = .ok name) (hcomment : IsRemark d.comment)
    (refer : String → String → Traced TypeDefinition) (owner version : String)
    (depth n : Nat) (ms : Members) (rest : List Line) :
    Stage.run refer owner n (.members version ms)
        ((u.writtenFor depth cs d.comment).map Line.text ++ rest)
      = Stage.run refer owner (n + (u.writtenFor depth cs d.comment).length)
          (.members version (ms.add (u.graft name d.comment).settled)) rest := by
  obtain rfl : name = d.name := eq_of_nameOf (name_of_declaration? hcs) hname
  have hremark := hu.isRemark_comment hcomment
  have hmembers : ∀ f ∈ u.members, AddsField refer owner version f := fun f hf =>
    addsField fun g hg =>
      have hread := hu.areRead g (Field.mem_nodesAll.mpr ⟨f, hf, hg⟩)
      ⟨hread.wellFormed, hread.last⟩
  refine run_struct (fun m ms => ?_) hmembers depth n ms rest
  rw [trim_lineAt (isTrimmed_structHead htrim hcs _)]
  refine Stage.step_members_declaration (declaration?_structHead hcs _) ?_
  rw [hremark.trimmed.trim_eq, String.ofList_toList]
  exact declare_struct (isNameText_of_nameOf hname) m ms

/-- What is written is text. -/
theorem areText_writtenFor (hu : u.IsRead) (hcs : '\n' ∉ cs) (hcomment : IsRemark d.comment)
    (depth : Nat) : AreText ((u.writtenFor depth cs d.comment).map Line.text) := by
  intro l hl
  obtain ⟨s, hs, rfl⟩ := List.mem_map.mp hl
  refine ⟨s, rfl, ?_⟩
  rcases List.mem_cons.mp hs with rfl | hs
  · exact not_mem_lineAt (not_mem_structHead hcs (hu.isRemark_comment hcomment)) depth
  · rcases List.mem_append.mp hs with hs | hs
    · rw [Field.linesAll_eq_flatMap] at hs
      obtain ⟨f, hf, hs⟩ := List.mem_flatMap.mp hs
      refine (Field.isLine_of_mem_lines (fun g hg => ?_) s hs).unbroken
      exact (hu.areRead g (Field.mem_nodesAll.mpr ⟨f, hf, hg⟩)).wellFormed
    · rw [List.mem_singleton.mp hs]
      exact not_mem_lineAt (by decide) depth

end Written

namespace Stage

section Inlined

variable {refer : String → String → Traced TypeDefinition} {owner : String}
  {b : String × List Field}

/-- A source that is read without asking for a reference is read in the same way
    whatever references mean. -/
theorem run_of_unasked {n : Nat} {stage : Stage} {lines : List Line}
    (h : (run Machine.unasked owner n stage lines).outcome = .ok b) :
    run refer owner n stage lines = run Machine.unasked owner n stage lines := by
  induction lines generalizing n stage with
  | nil => rfl
  | cons line rest ih =>
      cases line with
      | unreadable fault => rfl
      | text s =>
          obtain ⟨p, hp, hrest⟩ := Traced.outcome_bind_eq_ok.mp h
          have hnone : stage.reference? (trim s.toList) = none := by
            cases href : stage.reference? (trim s.toList) with
            | none => rfl
            | some found =>
                obtain ⟨v, ms, r⟩ := found
                rw [step_of_reference? href] at hp
                exact nomatch hp
          have hstep : step refer owner (n + 1) (trim s.toList) stage
              = step Machine.unasked owner (n + 1) (trim s.toList) stage :=
            step_of_no_reference hnone _ _
          rw [run, run, hstep, Traced.bind_of_ok hp, Traced.bind_of_ok hp]
          cases p with
          | done v fs => rfl
          | more next =>
              dsimp only at hrest ⊢
              rw [ih hrest]

/-- A line that makes a reference, taken apart. -/
theorem writtenAt_of_reference {depth : Nat} {stage : Stage} {s v : String} {ms : Members}
    {r : Reference} {u : TypeDefinition} (href : stage.reference? (trim s.toList) = some (v, ms, r))
    (hu : (refer r.field r.target).outcome = .ok u) :
    stage.writtenAt refer depth s
      = (u.writtenFor depth (trim s.toList) r.comment).map Line.text := by
  rw [writtenAt, href]
  dsimp only
  rw [hu]

/-- Where nothing may be asked for, nothing differs. -/
theorem carriesOver_unasked (field target : String) :
    Traced.CarriesOver TypeDefinition.Alike (Machine.unasked field target)
      (Machine.unasked field target) :=
  Traced.carriesOver_fail _ _

/-- **SIDE BY SIDE**: what is read with references is read without them from
    the lines in which they have been replaced, if the definitions that they
    mean can be read. -/
theorem exists_run_inlined (hrefer : ∀ field target u, (refer field target).outcome = .ok u →
      u.IsRead) {depth n m : Nat} {stage stage' : Stage} (halike : stage.Alike stage')
    {lines : List Line} (hlines : Unbroken lines)
    (h : (run refer owner n stage lines).outcome = .ok b) :
    ∃ b', (run Machine.unasked owner m stage'
        (inlined refer owner depth n stage lines)).outcome = .ok b' ∧ BodyAlike b b' := by
  induction lines generalizing n m stage stage' with
  | nil => exact carriesOver_finish halike b h
  | cons line rest ih =>
      cases line with
      | unreadable fault => exact nomatch h
      | text s =>
          have hrest : Unbroken rest := fun l hl => hlines l (List.mem_cons_of_mem _ hl)
          have hs : '\n' ∉ (trim s.toList) := fun hn =>
            hlines s List.mem_cons_self (mem_of_mem_trim hn)
          obtain ⟨p, hp, hnext⟩ := Traced.outcome_bind_eq_ok.mp h
          rw [inlined, hp]
          cases href : stage.reference? (trim s.toList) with
          | none =>
              -- the line is kept, and both take the same step
              have hkept : stage.writtenAt refer depth s = [.text s] := by
                rw [writtenAt, href]
              have hp' := (leadsTo_of_step hp).step_ok owner (m + 1)
              rw [step_of_no_reference href refer Machine.unasked] at hp'
              obtain ⟨p', hstep, hp'⟩ :=
                carriesOver_step carriesOver_unasked (m + 1) (trim s.toList) halike p hp'
              rw [hkept]
              cases hp' with
              | done v hfs =>
                  refine ⟨_, congrArg Traced.outcome (Traced.bind_of_ok hstep _), ?_⟩
                  obtain rfl := Except.ok.inj hnext
                  exact ⟨rfl, hfs⟩
              | more halike' =>
                  obtain ⟨b', hb', hbody⟩ := ih halike' hrest hnext
                  refine ⟨b', ?_, hbody⟩
                  show (run Machine.unasked owner m stage' (.text s :: _)).outcome = _
                  rw [run_of_step_more hstep]
                  exact hb'
          | some found =>
              -- the definition that is meant is grafted, or read from its lines
              obtain ⟨v, ms, r⟩ := found
              obtain ⟨rfl, d, hline, hname, -, hr⟩ := of_reference? href
              rw [step_of_reference? href] at hp
              obtain ⟨u, hu, hp⟩ := Traced.outcome_bind_eq_ok.mp hp
              obtain rfl := Except.ok.inj hp
              have hcs := BodyLine.declaration?_of_ofText hline
              obtain ⟨htrimmed, hpart⟩ := comment_of_declaration? hcs
              have hcomment : IsRemark d.comment := ⟨htrimmed, fun hn => hs (hpart.subset hn)⟩
              dsimp only at hnext ⊢
              rw [Members.graft, hr] at hnext ⊢
              rw [writtenAt_of_reference href hu, hr]
              cases halike with
              | @members _ _ ms' hms =>
                  have hgraft := hms.add (u.graft r.field d.comment).settled_settled
                  obtain ⟨b', hb', hbody⟩ :=
                    ih (m := m + (u.writtenFor depth (trim s.toList) d.comment).length)
                      (Stage.Alike.members v hgraft) hrest hnext
                  refine ⟨b', ?_, hbody⟩
                  rw [run_writtenFor (hrefer _ _ u hu) (isTrimmed_trim _) hcs hname hcomment]
                  exact hb'

/-- What is written for a line is text. -/
theorem areText_writtenAt (hrefer : ∀ field target u, (refer field target).outcome = .ok u →
      u.IsRead) (depth : Nat) (stage : Stage) {s : String} (hs : '\n' ∉ s.toList) :
    AreText (stage.writtenAt refer depth s) := by
  have hkept : AreText [.text s] := List.forall_mem_singleton.mpr ⟨s, rfl, hs⟩
  have htrim : '\n' ∉ trim s.toList := fun hn => hs (mem_of_mem_trim hn)
  rw [writtenAt]
  cases href : stage.reference? (trim s.toList) with
  | none => exact hkept
  | some found =>
      obtain ⟨v, ms, r⟩ := found
      obtain ⟨-, d, hline, -, -, hr⟩ := of_reference? href
      dsimp only
      cases hu : (refer r.field r.target).outcome with
      | error e => exact hkept
      | ok u =>
          obtain ⟨htrimmed, hpart⟩ :=
            comment_of_declaration? (BodyLine.declaration?_of_ofText hline)
          rw [hr]
          exact areText_writtenFor (hrefer _ _ u hu) htrim
            ⟨htrimmed, fun hn => htrim (hpart.subset hn)⟩ depth

theorem areText_inlined (hrefer : ∀ field target u, (refer field target).outcome = .ok u →
      u.IsRead) {depth n : Nat} {stage : Stage} {lines : List Line} (hlines : AreText lines) :
    AreText (inlined refer owner depth n stage lines) := by
  induction lines generalizing n stage with
  | nil => exact hlines
  | cons line rest ih =>
      obtain ⟨hline, hrest⟩ := List.forall_mem_cons.mp hlines
      obtain ⟨s, rfl, hs⟩ := hline
      rw [inlined]
      refine List.forall_mem_append.mpr ⟨areText_writtenAt hrefer depth stage hs, ?_⟩
      split
      · exact ih hrest
      · exact hrest

end Inlined

end Stage

/-! ## The whole source -/

/-- Bodies that are alike make definitions that are alike. -/
theorem Heading.conclude_of_alike {h : Heading} {name : String} {b b' : String × List Field}
    (hbody : BodyAlike b b') {t : TypeDefinition} (ht : h.conclude name (.ok b) = .ok t) :
    ∃ t', h.conclude name (.ok b') = .ok t' ∧ t.Alike t' := by
  obtain ⟨v, fs⟩ := b
  obtain ⟨v', fs'⟩ := b'
  obtain ⟨rfl, hfs⟩ := hbody
  rw [conclude] at ht ⊢
  cases hcreate : TypeDefinition.create name v' fs with
  | error e =>
      rw [hcreate] at ht
      cases ht
  | ok u =>
      rw [hcreate] at ht
      obtain rfl := Except.ok.inj ht
      obtain ⟨u', hu', halike⟩ := TypeDefinition.carriesOver_create name v' hfs u hcreate
      rw [Traced.outcome_lift] at hu'
      rw [hu']
      exact ⟨u'.withComment h.comment, rfl, halike.withComment h.comment⟩

namespace FileSystem

variable {fs : FileSystem} {dir : Path} {lines : List Line} {t : TypeDefinition}

theorem isRead_referFor {chain : List String} (field target : String) (u : TypeDefinition)
    (hu : (fs.referFor chain dir field target).outcome = .ok u) : u.IsRead :=
  isRead_refer (fun _ _ ht => isRead_load ht) hu

/-- The lines of a text with its references replaced are text. -/
theorem areText_inlined (hlines : AreText lines) (depth : Nat) :
    AreText (fs.inlined dir depth lines) := by
  rw [inlined]
  cases hfound : Heading.find 0 lines with
  | error e => exact hlines
  | ok h =>
      have hrest : AreText h.rest := fun l hl =>
        hlines l ((Heading.rest_suffix hfound).subset hl)
      have hfront : AreText (lines.take h.line) := fun l hl =>
        hlines l ((List.take_subset _ _) hl)
      exact List.forall_mem_append.mpr
        ⟨hfront, Stage.areText_inlined isRead_referFor hrest⟩

/-- With its references replaced a source is read as before but for comments of
    structures, whatever references mean. -/
theorem exists_ofLines_inlined (hlines : Unbroken lines)
    (h : (fs.readLines dir lines).outcome = .ok t) (depth : Nat) :
    ∃ events t', t.Alike t' ∧ ∀ refer : Heading → String → String → Traced TypeDefinition,
      TypeDefinition.ofLines [] (fs.inlined dir depth lines) (fun h _ _ => refer h)
        = ⟨events, .ok t'⟩ := by
  rw [inlined]
  cases hfound : Heading.find 0 lines with
  | error e =>
      rw [readLines_of_no_heading hfound] at h
      exact nomatch h
  | ok head =>
      obtain ⟨blanks, s, hsplit, hline, -, -, hagain⟩ := Heading.exists_front_of_find hfound
      have hfront : lines.take head.line = (blanks ++ [s]).map Line.text := by
        rw [hsplit, hline, List.take_left' (by simp)]
      have hrest : Unbroken head.rest := fun l hl =>
        hlines l ((Heading.rest_suffix hfound).subset hl)
      rw [readLines_of_found hfound] at h
      dsimp only at h ⊢
      cases hrun : (Stage.run (fs.referFor [head.name] dir) head.name head.line .metadata
          head.rest).outcome with
      | error e =>
          rw [hrun] at h
          exact nomatch h
      | ok b =>
          rw [hrun] at h
          obtain ⟨b', hb', hbody⟩ : ∃ b', (Stage.run Machine.unasked head.name head.line .metadata
              (Stage.inlined (fs.referFor [head.name] dir) head.name depth head.line .metadata
                head.rest)).outcome = .ok b' ∧ BodyAlike b b' :=
            Stage.exists_run_inlined isRead_referFor .metadata hrest hrun
          obtain ⟨t', ht', halike⟩ := Heading.conclude_of_alike hbody h
          refine ⟨.begun head.name [] :: (Stage.run Machine.unasked head.name head.line .metadata
            (Stage.inlined (fs.referFor [head.name] dir) head.name depth head.line .metadata
              head.rest)).events, t', halike, ?_⟩
          intro refer
          rw [hfront, TypeDefinition.ofLines_eq_of_found (hagain _) rfl]
          dsimp only
          rw [Stage.run_of_unasked hb', hb', ← ht']
          rfl

/-- **A REFERENCE IS THE SAME AS THE TYPE WRITTEN IN ITS PLACE**: when a text is
    read as a definition, each reference in it can be replaced by a structure
    with the members of the definition that it refers to, at any indentation.
    There is a text with these lines, and any such text is read in every
    directory and with any files as one and the same definition, which differs
    from the first in comments of structures at most.  No file is opened:
    whatever references may mean, reading is the same. -/
theorem readText_inlined {source : String} (h : (fs.readText source dir).outcome = .ok t)
    (depth : Nat) :
    (∃ new, linesOfText new = fs.inlined dir depth (linesOfText source)) ∧
      ∀ new, linesOfText new = fs.inlined dir depth (linesOfText source) →
        ∃ t', t'.settled = t.settled ∧ ∀ (fs' : FileSystem) (dir' : Path),
          (fs'.readText new dir').outcome = .ok t' ∧
            ∀ refer : Heading → String → String → Traced TypeDefinition,
              TypeDefinition.ofLines [] (linesOfText new) (fun h _ _ => refer h)
                = fs'.readText new dir' := by
  refine ⟨(areText_inlined (areText_linesOfText source) depth).exists_text, ?_⟩
  intro new hnew
  obtain ⟨events, t', halike, hread⟩ :=
    exists_ofLines_inlined (unbroken_linesOfText source) h depth
  rw [← hnew] at hread
  refine ⟨t', halike, ?_⟩
  intro fs' dir'
  have hread' : fs'.readText new dir' = ⟨events, .ok t'⟩ :=
    hread fun head => fs'.referFor [head.name] dir'
  refine ⟨?_, ?_⟩
  · rw [hread']
  · intro refer
    rw [hread', hread]

/-- A text with a reference inside a structure, with a name in quotes and with
    settings, but without a comment. -/
def liftSource : String :=
  "TYPE \"Lift\"\nVERSION : 0.1\nSTRUCT\ncab : STRUCT\n\"door\" \x7b S7 \x7d : \"Drive\";\n"
    ++ "END_STRUCT;\nEND_STRUCT;\n"

/-- The same text with the members of the definition in place of the
    reference. -/
def liftInlined : String :=
  "TYPE \"Lift\"\nVERSION : 0.1\nSTRUCT\ncab : STRUCT\n    \"door\" : STRUCT   // a motor\n"
    ++ "        speed : INT := 5;\n    END_STRUCT;\nEND_STRUCT;\nEND_STRUCT;\n"

/-- The file that is referred to. -/
def liftFiles : FileSystem where
  home := []
  entries :=
    [(["Drive.udt"], .file (Utf8.encode
      "TYPE \"Drive\" // a motor\nVERSION : 0.1\nSTRUCT\nspeed : Int := 5;\nEND_STRUCT;\n".toList))]

/-- The definition in the text. -/
def lift : TypeDefinition where
  name := "Lift"
  version := "0.1"
  comment := ""
  members :=
    [.struct "cab" "" [.struct "door" "a motor" [.scalar ⟨"speed", "", .int, some "5"⟩]]]

theorem readText_inlined_lift :
    (liftFiles.readText liftSource ⟨"."⟩).outcome = .ok lift ∧
      linesOfText liftInlined = liftFiles.inlined ⟨"."⟩ 1 (linesOfText liftSource) ∧
      ∃ t', t'.settled = lift.settled ∧ ∀ fs dir,
        (FileSystem.readText fs liftInlined dir).outcome = .ok t' := by
  have hgiven : (liftFiles.readText liftSource ⟨"."⟩).outcome = .ok lift ∧
      linesOfText liftInlined = liftFiles.inlined ⟨"."⟩ 1 (linesOfText liftSource) := by
    decide +kernel
  obtain ⟨hread, hlines⟩ := hgiven
  obtain ⟨t', hsettled, hagain⟩ := (readText_inlined hread 1).2 liftInlined hlines
  exact ⟨hread, hlines, t', hsettled, fun fs dir => (hagain fs dir).1⟩

end FileSystem

end PlcTypes
