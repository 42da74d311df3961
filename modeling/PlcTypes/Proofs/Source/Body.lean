import PlcTypes.Proofs.Field.Named
import PlcTypes.Proofs.Grammar.Declaration
import PlcTypes.Proofs.RoundTrip.Definition
import PlcTypes.Proofs.Source.Line

/-! # The lines between `STRUCT` and `END_STRUCT;`

    A body is a sequence of lines that declares a sequence of fields.  Blank
    lines and remarks declare nothing; a declaration that opens a structure
    declares it together with the lines up to the closing line that belongs to
    it, which are a body again; any other declaration declares one field.
    `Declares` says so, by recursion on nested bodies and with no account of
    what is open.

    The reader knows no recursion and keeps the open structures on a stack.
    The two meet in one statement: reading among the members comes to a closing
    line behind a body, with the fields of the body added to the innermost
    structure.  What a body is, how its lines balance and how they correspond
    to the nodes of the tree, is then shown by induction on `Declares`. -/

namespace PlcTypes

open Text Grammar

/-! ## What a declaration makes -/

/-- The field that a declaration makes by itself, which opens no structure. -/
def Grammar.Declaration.Makes (refer : String → String → Traced TypeDefinition)
    (d : Declaration) (f : Field) : Prop :=
  match d.spec with
  | .struct => False
  | .reference target =>
      ∃ t, (refer d.name target).outcome = .ok t ∧ f = t.graft d.name d.comment
  | .plain spec => spec.field d.name d.comment = .ok f

/-! ## Bodies -/

/-- The declaration on a line, if it is one. -/
def declared? (s : String) : Option Declaration :=
  declaration? (trim s.toList)

/-- Whether a line is a declaration that opens a structure. -/
def opensStruct (s : String) : Bool :=
  (declared? s).any fun d => d.spec == .struct

/-- Whether a line closes a structure. -/
def closesStruct (s : String) : Bool :=
  isEndStruct (trim s.toList)

/-- Lines that declare some fields, in order. -/
inductive Declares (refer : String → String → Traced TypeDefinition) :
    List String → List Field → Prop where
  | nil : Declares refer [] []
  /-- A blank line or a remark. -/
  | skip {s : String} {lines : List String} {fs : List Field}
      (hline : BodyLine.ofText (trim s.toList) = .blank ∨
        BodyLine.ofText (trim s.toList) = .remark)
      (hrest : Declares refer lines fs) : Declares refer (s :: lines) fs
  | field {s : String} {d : Declaration} {f : Field} {lines : List String} {fs : List Field}
      (hline : declared? s = some d) (hname : nameOf d.name = .ok d.name)
      (hmakes : d.Makes refer f) (hrest : Declares refer lines fs) :
      Declares refer (s :: lines) (f :: fs)
  /-- A structure, up to its closing line, and what follows. -/
  | struct {s closing : String} {d : Declaration} {inner lines : List String}
      {members fs : List Field} (hline : declared? s = some d) (hspec : d.spec = .struct)
      (hname : nameOf d.name = .ok d.name) (hinner : Declares refer inner members)
      (hclosing : closesStruct closing = true) (hrest : Declares refer lines fs) :
      Declares refer (s :: (inner ++ closing :: lines))
        (.struct d.name (oneLine d.comment) members :: fs)

/-! ## The reader comes to the closing line of a body -/

section Reading

variable {refer : String → String → Traced TypeDefinition} {owner : String}

/-- With no structure open, a closing line ends the members. -/
theorem Stage.close_empty (v : String) (fs : List Field) :
    close v (fs.foldl Members.add .empty) = .footer v fs := by
  rw [Members.empty, foldl_add_empty, close]
  simp

/-- What a line among the members can be, and the stage that it leads to. -/
inductive Stage.MemberLine (refer : String → String → Traced TypeDefinition) (v : String)
    (ms : Members) (s : String) : Stage → Prop where
  | skip (hline : BodyLine.ofText (trim s.toList) = .blank ∨
      BodyLine.ofText (trim s.toList) = .remark) : MemberLine refer v ms s (.members v ms)
  | closing (hline : closesStruct s = true) : MemberLine refer v ms s (close v ms)
  | opening {d : Declaration} (hline : declared? s = some d) (hspec : d.spec = .struct)
      (hname : nameOf d.name = .ok d.name) :
      MemberLine refer v ms s (.members v (ms.openStruct d.name d.comment))
  | field {d : Declaration} {f : Field} (hline : declared? s = some d)
      (hname : nameOf d.name = .ok d.name) (hmakes : d.Makes refer f) :
      MemberLine refer v ms s (.members v (ms.add f))

/-- A line among the members that does not fail leads on. -/
theorem Stage.memberLine_of_step {n : Nat} {v : String} {ms : Members} {s : String}
    {p : Progress} (h : (step refer owner n (trim s.toList) (.members v ms)).outcome = .ok p) :
    ∃ next, p = .more next ∧ MemberLine refer v ms s next := by
  cases leadsTo_of_step h with
  | skip hline => exact ⟨_, rfl, .skip hline⟩
  | closing hline => exact ⟨_, rfl, .closing (BodyLine.isEndStruct_of_ofText hline)⟩
  | @declaration _ _ _ d hline hms =>
      have hd : declared? s = some d := BodyLine.declaration?_of_ofText hline
      refine ⟨_, rfl, ?_⟩
      cases hms with
      | struct hname hspec =>
          obtain rfl := eq_of_nameOf (name_of_declaration? hd) hname
          exact .opening hd hspec hname
      | reference hname hspec ht =>
          obtain rfl := eq_of_nameOf (name_of_declaration? hd) hname
          refine .field hd hname ?_
          rw [Declaration.Makes, hspec]
          exact ⟨_, ht, rfl⟩
      | plain hname hspec hf =>
          obtain rfl := eq_of_nameOf (name_of_declaration? hd) hname
          refine .field hd hname ?_
          rw [Declaration.Makes, hspec]
          exact hf

/-- A body with its closing line at the start of some lines, and the rest of
    the lines, which is read from where they lead and to the same result. -/
structure Stage.BodyRead (refer : String → String → Traced TypeDefinition) (owner v : String)
    (ms : Members) (lines : List Line) (result : Traced (String × List Field))
    (body : List String) (closing : String) (rest : List Line) (fs : List Field) : Prop where
  lines_eq : lines = body.map Line.text ++ .text closing :: rest
  declares : Declares refer body fs
  closes : closesStruct closing = true
  reads : ∃ n, (run refer owner n (close v (fs.foldl Members.add ms)) rest).outcome
      = result.outcome ∧
    (run refer owner n (close v (fs.foldl Members.add ms)) rest).events <:+ result.events

/-- A line before a body that adds what the body is read from. -/
theorem Stage.BodyRead.cons {v : String} {ms ms' : Members} {rest after : List Line}
    {result result' : Traced (String × List Field)} {body : List String} {closing s : String}
    {fs fs' : List Field} (h : BodyRead refer owner v ms' rest result' body closing after fs)
    (houtcome : result'.outcome = result.outcome) (hevents : result'.events <:+ result.events)
    (hdeclares : Declares refer body fs → Declares refer (s :: body) fs')
    (hadd : fs'.foldl Members.add ms = fs.foldl Members.add ms') :
    BodyRead refer owner v ms (.text s :: rest) result (s :: body) closing after fs' where
  lines_eq := congrArg (Line.text s :: ·) h.lines_eq
  declares := hdeclares h.declares
  closes := h.closes
  reads := by
    obtain ⟨n, hn, hsuffix⟩ := h.reads
    rw [hadd]
    exact ⟨n, hn.trans houtcome, hsuffix.trans hevents⟩

/-- A structure before a body: its first line, its own body, and its closing
    line. -/
theorem Stage.BodyRead.struct {v : String} {ms : Members} {rest after after' : List Line}
    {result result' result'' : Traced (String × List Field)} {inner body : List String}
    {s closing closing' : String} {d : Declaration} {members fs : List Field}
    (hinner : BodyRead refer owner v (ms.openStruct d.name d.comment) rest result''
      inner closing after members)
    (hbody : BodyRead refer owner v (ms.add (.struct d.name (oneLine d.comment) members)) after
      result' body closing' after' fs)
    (houtcome : result'.outcome = result.outcome) (hevents : result'.events <:+ result.events)
    (hline : declared? s = some d) (hspec : d.spec = .struct)
    (hname : nameOf d.name = .ok d.name) :
    BodyRead refer owner v ms (.text s :: rest) result (s :: (inner ++ closing :: body)) closing'
      after' (.struct d.name (oneLine d.comment) members :: fs) where
  lines_eq := by
    rw [hinner.lines_eq, hbody.lines_eq]
    simp
  declares := .struct hline hspec hname hinner.declares hinner.closes hbody.declares
  closes := hbody.closes
  reads := by
    obtain ⟨n, hn, hsuffix⟩ := hbody.reads
    exact ⟨n, hn.trans houtcome, hsuffix.trans hevents⟩

/-- **A BODY AND ITS CLOSING LINE** stand where the reader is among the
    members, if it reads to the end, and their fields are what it adds. -/
theorem Stage.exists_body {n : Nat} {v : String} {ms : Members} {lines : List Line}
    {b : String × List Field} (h : (run refer owner n (.members v ms) lines).outcome = .ok b) :
    ∃ body closing rest fs,
      BodyRead refer owner v ms lines (run refer owner n (.members v ms) lines)
        body closing rest fs := by
  -- nested bodies are read one after the other, so the induction is on how much is left
  induction hlength : lines.length using Nat.strong_induction_on generalizing n ms lines with
  | _ k ih =>
      cases lines with
      | nil => exact nomatch h
      | cons line rest =>
          cases line with
          | unreadable fault => exact nomatch h
          | text s =>
              obtain ⟨p, hp, -⟩ := Traced.outcome_bind_eq_ok.mp h
              obtain ⟨next, rfl, hline⟩ := memberLine_of_step hp
              have hshorter : rest.length < k := by
                rw [← hlength]
                exact Nat.lt_succ_self _
              rw [run_of_step_more hp] at h ⊢
              dsimp only at h
              have hsuffix : (run refer owner (n + 1) next rest).events
                  <:+ (step refer owner (n + 1) (trim s.toList) (.members v ms)).events
                    ++ (run refer owner (n + 1) next rest).events := List.suffix_append _ _
              cases hline with
              | skip hline =>
                  obtain ⟨body, closing, after, fs, hbody⟩ := ih _ hshorter h rfl
                  exact ⟨s :: body, closing, after, fs,
                    hbody.cons rfl hsuffix (.skip hline) rfl⟩
              | closing hline =>
                  exact ⟨[], s, rest, [], rfl, .nil, hline, n + 1, rfl, hsuffix⟩
              | field hline hname hmakes =>
                  obtain ⟨body, closing, after, fs, hbody⟩ := ih _ hshorter h rfl
                  exact ⟨s :: body, closing, after, _ :: fs,
                    hbody.cons rfl hsuffix (.field hline hname hmakes) rfl⟩
              | @opening d hline hspec hname =>
                  obtain ⟨inner, closing, after, members, hinner⟩ := ih _ hshorter h rfl
                  obtain ⟨m, hm, hevents⟩ := hinner.reads
                  rw [close_openStruct] at hm hevents
                  have hafter : after.length < k := by
                    have hlines := congrArg List.length hinner.lines_eq
                    rw [List.length_append, List.length_cons] at hlines
                    omega
                  obtain ⟨body, closing', after', fs, hbody⟩ := ih _ hafter (hm.trans h) rfl
                  exact ⟨_, closing', after', _,
                    hinner.struct hbody hm (hevents.trans hsuffix) hline hspec hname⟩

end Reading

/-! ## Each line of a body is one thing -/

section Lines

variable {refer : String → String → Traced TypeDefinition} {lines : List String}
  {fs : List Field}

/-- A line that declares something is a declaration and nothing else. -/
theorem ofText_of_declared? {s : String} {d : Declaration} (h : declared? s = some d) :
    BodyLine.ofText (trim s.toList) = .declaration d :=
  BodyLine.ofText_of_declaration? h

/-- A closing line declares nothing. -/
theorem declared?_of_closesStruct {s : String} (h : closesStruct s = true) :
    declared? s = none :=
  declaration?_of_isEndStruct h

/-- No line of a body is malformed. -/
theorem Declares.ofText_ne (h : Declares refer lines fs) :
    ∀ s ∈ lines, BodyLine.ofText (trim s.toList) ≠ .malformed := by
  induction h with
  | nil => exact nofun
  | skip hline hrest ih =>
      refine List.forall_mem_cons.mpr ⟨?_, ih⟩
      rcases hline with hline | hline
      · rw [hline]
        exact nofun
      · rw [hline]
        exact nofun
  | field hline hname hmakes hrest ih =>
      refine List.forall_mem_cons.mpr ⟨?_, ih⟩
      rw [ofText_of_declared? hline]
      exact nofun
  | @struct s closing d inner lines members fs hline hspec hname hinner hclosing hrest ihinner
      ihrest =>
      have hlast : BodyLine.ofText (trim closing.toList) ≠ .malformed := by
        intro hmalformed
        rw [BodyLine.ofText_of_isEndStruct hclosing] at hmalformed
        exact nomatch hmalformed
      refine List.forall_mem_cons.mpr ⟨?_, ?_⟩
      · rw [ofText_of_declared? hline]
        exact nofun
      · exact List.forall_mem_append.mpr ⟨ihinner, List.forall_mem_cons.mpr ⟨hlast, ihrest⟩⟩

end Lines

/-! ## The lines of a body balance -/

/-- Lines in which every structure that is opened is closed, and none that is
    not open. -/
structure Balanced (lines : List String) : Prop where
  whole : lines.countP closesStruct = lines.countP opensStruct
  front : ∀ k, (lines.take k).countP closesStruct ≤ (lines.take k).countP opensStruct

namespace Balanced

variable {as bs : List String} {s closing : String}

theorem nil : Balanced [] := by
  refine ⟨rfl, ?_⟩
  intro k
  rw [List.take_nil]
  exact Nat.le_refl _

/-- Balanced lines behind balanced lines balance. -/
theorem append (ha : Balanced as) (hb : Balanced bs) : Balanced (as ++ bs) := by
  refine ⟨?_, ?_⟩
  · rw [List.countP_append, List.countP_append, ha.whole, hb.whole]
  · intro k
    rw [List.take_append, List.countP_append, List.countP_append]
    exact Nat.add_le_add (ha.front k) (hb.front (k - as.length))

/-- A line that opens and closes nothing makes no difference. -/
theorem cons (h : Balanced as) (hopens : opensStruct s = false)
    (hcloses : closesStruct s = false) : Balanced (s :: as) := by
  have hopens' := Bool.eq_false_iff.mp hopens
  have hcloses' := Bool.eq_false_iff.mp hcloses
  refine ⟨?_, ?_⟩
  · rw [List.countP_cons_of_neg hcloses', List.countP_cons_of_neg hopens', h.whole]
  · intro k
    cases k with
    | zero => exact Nat.le_refl _
    | succ k =>
        rw [List.take_succ_cons, List.countP_cons_of_neg hcloses',
          List.countP_cons_of_neg hopens']
        exact h.front k

/-- The line that opens a structure and the line that closes it, around lines
    that balance. -/
theorem wrap (h : Balanced as) (hs : opensStruct s = true) (hs' : closesStruct s = false)
    (hclosing : closesStruct closing = true) (hclosing' : opensStruct closing = false) :
    Balanced (s :: (as ++ [closing])) := by
  refine ⟨?_, ?_⟩
  · simp [hs, hs', hclosing, hclosing', h.whole]
  · intro k
    cases k with
    | zero => exact Nat.le_refl _
    | succ k =>
        -- the closing line is met by the line that opens the structure
        have hlast : ([closing].take (k - as.length)).countP closesStruct ≤ 1 :=
          List.countP_le_length.trans (List.length_take_le' _ _)
        have hfront := h.front k
        rw [List.take_succ_cons, List.take_append, List.countP_cons_of_pos hs,
          List.countP_cons_of_neg (Bool.eq_false_iff.mp hs'), List.countP_append,
          List.countP_append]
        omega

end Balanced

section Lines

variable {refer : String → String → Traced TypeDefinition} {lines : List String}
  {fs : List Field}

/-- A line that closes nothing, since it is something else. -/
theorem closesStruct_of_ofText {s : String} {line : BodyLine}
    (h : BodyLine.ofText (trim s.toList) = line) (hline : line ≠ .closing) :
    closesStruct s = false := by
  cases hc : closesStruct s with
  | false => rfl
  | true =>
      rw [BodyLine.ofText_of_isEndStruct hc] at h
      exact absurd h.symm hline

/-- A line that declares nothing, since it is something else. -/
theorem declared?_of_ofText {s : String} {line : BodyLine}
    (h : BodyLine.ofText (trim s.toList) = line) (hline : ∀ d, line ≠ .declaration d) :
    declared? s = none := by
  cases hd : declared? s with
  | none => rfl
  | some d =>
      rw [ofText_of_declared? hd] at h
      exact absurd h.symm (hline d)

/-- A blank line and a remark declare nothing. -/
theorem declared?_of_skip {s : String} (h : BodyLine.ofText (trim s.toList) = .blank ∨
    BodyLine.ofText (trim s.toList) = .remark) : declared? s = none := by
  rcases h with h | h
  · exact declared?_of_ofText h nofun
  · exact declared?_of_ofText h nofun

/-- A blank line and a remark close no structure. -/
theorem closesStruct_of_skip {s : String} (h : BodyLine.ofText (trim s.toList) = .blank ∨
    BodyLine.ofText (trim s.toList) = .remark) : closesStruct s = false := by
  rcases h with h | h
  · exact closesStruct_of_ofText h nofun
  · exact closesStruct_of_ofText h nofun

theorem opensStruct_of_declared? {s : String} (h : declared? s = none) :
    opensStruct s = false := by
  rw [opensStruct, h]
  rfl

/-- A line that declares something closes no structure. -/
theorem closesStruct_of_declared? {s : String} {d : Declaration} (h : declared? s = some d) :
    closesStruct s = false :=
  closesStruct_of_ofText (ofText_of_declared? h) nofun

/-- What makes a field by itself opens no structure. -/
theorem opensStruct_of_makes {s : String} {d : Declaration} {f : Field}
    (h : declared? s = some d) (hmakes : d.Makes refer f) : opensStruct s = false := by
  rw [opensStruct, h]
  cases hspec : d.spec with
  | struct =>
      rw [Declaration.Makes, hspec] at hmakes
      exact absurd hmakes id
  | reference target =>
      show (d.spec == .struct) = false
      rw [hspec]
      rfl
  | plain spec =>
      show (d.spec == .struct) = false
      rw [hspec]
      rfl

theorem opensStruct_of_spec {s : String} {d : Declaration} (h : declared? s = some d)
    (hspec : d.spec = .struct) : opensStruct s = true := by
  rw [opensStruct, h]
  show (d.spec == .struct) = true
  rw [hspec]
  rfl

/-- **THE LINES OF A BODY BALANCE**. -/
theorem Declares.balanced (h : Declares refer lines fs) : Balanced lines := by
  induction h with
  | nil => exact .nil
  | skip hline hrest ih =>
      exact ih.cons (opensStruct_of_declared? (declared?_of_skip hline))
        (closesStruct_of_skip hline)
  | field hline hname hmakes hrest ih =>
      exact ih.cons (opensStruct_of_makes hline hmakes) (closesStruct_of_declared? hline)
  | struct hline hspec hname hinner hclosing hrest ihinner ihrest =>
      rw [List.append_cons, ← List.cons_append]
      exact (ihinner.wrap (opensStruct_of_spec hline hspec) (closesStruct_of_declared? hline)
        hclosing (opensStruct_of_declared? (declared?_of_closesStruct hclosing))).append ihrest

/-! ## The declarations of a body are the nodes of its tree -/

/-- The nodes that a field has for a declaration: only itself, or all of it if
    the declaration refers to another definition. -/
def nodesFor (d : Declaration) (f : Field) : List Field :=
  match d.spec with
  | .reference _ => f.nodes
  | _ => [f]

/-- What makes a field by itself has all its nodes. -/
theorem nodesFor_of_makes {d : Declaration} {f : Field} (h : d.Makes refer f) :
    nodesFor d f = f.nodes := by
  rw [nodesFor]
  cases hspec : d.spec with
  | struct =>
      rw [Declaration.Makes, hspec] at h
      exact absurd h id
  | reference target => rfl
  | plain spec =>
      rw [Declaration.Makes, hspec] at h
      exact (Field.nodes_plain (PlainSpec.name_of_field h).2).symm

/-- A field has the name that it is declared with. -/
theorem name_of_makes {d : Declaration} {f : Field} (hname : nameOf d.name = .ok d.name)
    (h : d.Makes refer f) : f.name = d.name := by
  rw [Declaration.Makes] at h
  cases hspec : d.spec with
  | struct =>
      rw [hspec] at h
      exact absurd h id
  | reference target =>
      rw [hspec] at h
      obtain ⟨t, -, rfl⟩ := h
      rfl
  | plain spec =>
      rw [hspec] at h
      have hstored := (PlainSpec.name_of_field h).1
      rw [hname] at hstored
      exact (Except.ok.inj hstored).symm

/-- **EACH DECLARATION IS A NODE**: the declarations of a body, in the order of
    its lines, are one by one the nodes of its fields in preorder, with the
    name that is declared; the nodes inside a definition that is referred to
    follow the node of the reference. -/
theorem Declares.exists_nodes (h : Declares refer lines fs) :
    ∃ pairs : List (Declaration × Field),
      pairs.map Prod.fst = lines.filterMap declared? ∧
        (∀ p ∈ pairs, p.2.name = p.1.name) ∧
          Field.nodesAll fs = pairs.flatMap fun p => nodesFor p.1 p.2 := by
  induction h with
  | nil => exact ⟨[], rfl, nofun, rfl⟩
  | skip hline hrest ih =>
      rw [List.filterMap_cons_none (declared?_of_skip hline)]
      exact ih
  | @field s d f lines fs hline hname hmakes hrest ih =>
      obtain ⟨pairs, hlines, hnames, hnodes⟩ := ih
      refine ⟨(d, f) :: pairs, ?_, ?_, ?_⟩
      · rw [List.map_cons, hlines, List.filterMap_cons_some hline]
      · exact List.forall_mem_cons.mpr ⟨name_of_makes hname hmakes, hnames⟩
      · rw [Field.nodesAll, hnodes, List.flatMap_cons, nodesFor_of_makes hmakes]
  | @struct s closing d inner lines members fs hline hspec hname hinner hclosing hrest ihinner
      ihrest =>
      obtain ⟨within, hlines, hnames, hnodes⟩ := ihinner
      obtain ⟨pairs, hlines', hnames', hnodes'⟩ := ihrest
      refine ⟨(d, .struct d.name (oneLine d.comment) members) :: (within ++ pairs), ?_, ?_, ?_⟩
      · rw [List.map_cons, List.map_append, hlines, hlines', List.filterMap_cons_some hline,
          List.filterMap_append, List.filterMap_cons_none (declared?_of_closesStruct hclosing)]
      · exact List.forall_mem_cons.mpr ⟨rfl, List.forall_mem_append.mpr ⟨hnames, hnames'⟩⟩
      · have hself : nodesFor d (.struct d.name (oneLine d.comment) members)
            = [.struct d.name (oneLine d.comment) members] := by
          rw [nodesFor, hspec]
        rw [Field.nodesAll, Field.nodes, hnodes, hnodes', List.flatMap_cons, List.flatMap_append,
          hself]
        rfl

end Lines

end PlcTypes
