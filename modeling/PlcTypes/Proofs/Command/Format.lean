import PlcTypes.Command.Run
import PlcTypes.Proofs.Files.Making
import PlcTypes.Proofs.Loading.Rewriting

/-! # Formatting in place changes no meaning

    Files are formatted one after another, and each is read from the tree as
    the files before it have left it: their references are gone, and they hold
    their definitions settled.  One file that is rewritten leaves every
    definition alike that can be read from the tree, whether it was in that file
    or refers to it; so all files of a list do, in any order and with any
    repetitions.

    The system has its part in it: it must let the files be written, and must
    keep none of them under another name.  References in a file are resolved
    beside it, so through a link from another directory a file would get a
    definition that it never had.  A file that is refused ends the run and harms
    nothing. -/

namespace PlcTypes

open Text Traced

namespace FileSystem

/-- Whether some files of a tree can be written, each of them under no other
    name: whatever the files of the tree hold by then, a write to one of these
    succeeds and changes nothing but what this one holds. -/
def IsWritable (fs : FileSystem) (write : Writing) (files : List Path) : Prop :=
  ∀ p ∈ files, ∀ now, SameShape fs now → ∀ bytes, write now p bytes = ⟨now.overwrite p bytes, none⟩

/-- Whether a write to some files of a tree changes nothing but what they hold:
    a file gets its new contents, or it is refused and nothing changes. -/
def IsContained (fs : FileSystem) (write : Writing) (files : List Path) : Prop :=
  ∀ p ∈ files, ∀ now, SameShape fs now → ∀ bytes,
    write now p bytes = ⟨now.overwrite p bytes, none⟩ ∨
      ∃ fault, write now p bytes = ⟨now, some fault⟩

/-- What holds of the tree `after` some files of a tree have been formatted in
    place. -/
structure IsFormatted (fs : FileSystem) (files : List Path) (after : FileSystem) : Prop where
  shape : SameShape fs after
  outside : ∀ location, (∀ p ∈ files, fs.locate p ≠ some location) →
    after.entry? location = fs.entry? location
  written : ∀ p ∈ files, ∃ t, after.at? p = some (.file (Utf8.encode t.render.toList)) ∧
    ∀ u, (fs.readPath p).outcome = .ok u → u.Alike t
  meanings : ∀ q, CarriesOver TypeDefinition.Alike (fs.readPath q) (after.readPath q)

variable {fs after : FileSystem} {write : Writing} {files : List Path}

/-- A write that always succeeds is contained. -/
theorem IsWritable.isContained (h : fs.IsWritable write files) : fs.IsContained write files :=
  fun p hp now hnow bytes => Or.inl (h p hp now hnow bytes)

/-- A tree in which no file has been formatted. -/
theorem IsFormatted.nil : fs.IsFormatted [] fs where
  shape := .refl fs
  outside := fun _ _ => rfl
  written := nofun
  meanings := fun _ t ht => ⟨t, ht, .refl t⟩

section Cons

variable {p : Path} {t : TypeDefinition} {rest : List Path}

/-- What has been written to the file that is rewritten before the others: what
    the others have, if it is one of them, and otherwise its own text. -/
theorem IsFormatted.written_cons (h : fs.IsTree) (ht : (fs.readPath p).outcome = .ok t)
    (hfiles : ∀ q ∈ rest, ∃ u, (fs.readPath q).outcome = .ok u)
    (hrest : (fs.rewrite p t).IsFormatted rest after) {q : Path} (hq : q ∈ p :: rest) :
    ∃ v, after.at? q = some (.file (Utf8.encode v.render.toList)) ∧
      ∀ u, (fs.readPath q).outcome = .ok u → u.Alike v := by
  have hshape : SameShape fs (fs.rewrite p t) := fs.sameShape_overwrite p _
  by_cases hagain : ∃ r ∈ rest, fs.locate r = fs.locate q
  · -- one of the others is written to the same place
    obtain ⟨r, hr, hplace⟩ := hagain
    obtain ⟨v, hv, halike⟩ := hrest.written r hr
    have hsame : after.locate q = after.locate r := by
      rw [(hshape.trans hrest.shape).locate_eq, (hshape.trans hrest.shape).locate_eq, hplace]
    refine ⟨v, (congrArg (Option.bind · after.entry?) hsame).trans hv, fun u hu => ?_⟩
    obtain ⟨location, -, hlocate, -⟩ := exists_file_of_load hu
    obtain ⟨w, hw⟩ := hfiles r hr
    obtain rfl : w = u := h.load_eq_of_locate hlocate (hplace.trans hlocate) hu hw
    obtain ⟨x, hx, hwx⟩ := h.carriesOver_rewrite ht rfl w hw
    exact hwx.trans (halike x hx)
  · have hqp : q = p := by
      rcases List.mem_cons.mp hq with hqp | hq
      · exact hqp
      · exact absurd ⟨q, hq, rfl⟩ hagain
    subst hqp
    obtain ⟨location, old, hlocate, hfile⟩ := exists_file_of_load ht
    have hlast : ∀ r ∈ rest, (fs.rewrite q t).locate r ≠ some location := by
      intro r hr hplace
      rw [hshape.locate_eq] at hplace
      exact hagain ⟨r, hr, hplace.trans hlocate.symm⟩
    have hafter : after.locate q = some location :=
      ((hshape.trans hrest.shape).locate_eq q).trans hlocate
    refine ⟨t, ?_, fun u hu => ?_⟩
    · show (after.locate q).bind after.entry? = _
      rw [hafter, Option.bind_some, hrest.outside location hlast]
      exact fs.entry?_overwrite_self q _ hlocate hfile
    · rw [ht] at hu
      rw [Except.ok.inj hu]
      exact .refl u

/-- **ONE FILE MORE**: a file is rewritten, and then the files of a list are
    formatted. -/
theorem IsFormatted.cons (h : fs.IsTree) (ht : (fs.readPath p).outcome = .ok t)
    (hfiles : ∀ q ∈ rest, ∃ u, (fs.readPath q).outcome = .ok u)
    (hrest : (fs.rewrite p t).IsFormatted rest after) : fs.IsFormatted (p :: rest) after := by
  have hshape : SameShape fs (fs.rewrite p t) := fs.sameShape_overwrite p _
  refine ⟨hshape.trans hrest.shape, ?_, fun q hq => hrest.written_cons h ht hfiles hq, ?_⟩
  · intro location hlocation
    have hlater : ∀ q ∈ rest, (fs.rewrite p t).locate q ≠ some location := by
      intro q hq
      rw [hshape.locate_eq]
      exact hlocation q (List.mem_cons_of_mem p hq)
    rw [hrest.outside location hlater]
    exact fs.entry?_overwrite_of_ne p _ (hlocation p List.mem_cons_self)
  · intro q u hu
    obtain ⟨v, hv, huv⟩ := h.carriesOver_rewrite ht rfl u hu
    obtain ⟨w, hw, hvw⟩ := hrest.meanings q v hv
    exact ⟨w, hw, huv.trans hvw⟩

end Cons

end FileSystem

namespace Command

open FileSystem

/-- The effect of formatting in place. -/
abbrev replacing : Path → TypeDefinition → Effect :=
  fun _ t => .replace t.render

/-- How a run ends that formats files in place: all of them are formatted, or it
    stops at one that is refused, and those before it are formatted. -/
inductive Ends (fs : FileSystem) (write : Writing) (files : List Path) (report : Report) :
    Prop where
  | formatted (hexit : report.exit = 0) (hfiles : fs.IsFormatted files report.files)
  | refused {done rest : List Path} {p : Path} {bytes : List UInt8} {fault : String}
      (hsplit : files = done ++ p :: rest) (hexit : report.exit = 1)
      (herrors : report.errors = writeFailureText p fault)
      (hwrite : write report.files p bytes = ⟨report.files, some fault⟩)
      (hdone : fs.IsFormatted done report.files)

variable {write : Writing} {fs : FileSystem} {p : Path} {t : TypeDefinition} {files : List Path}

/-- What comes of a run when its first file has been read: it goes on with the
    others where that has been written, and ends where it is refused. -/
theorem exists_each_cons (ht : (fs.readPath p).outcome = .ok t) {now : FileSystem}
    {fault : Option String}
    (hwrite : write fs p (Utf8.encode t.render.toList) = ⟨now, fault⟩) (rest : List Path) :
    ∃ events, each none replacing write fs (p :: rest)
      = match fault with
        | none => { each none replacing write now rest with events }
        | some fault =>
            { exit := 1, output := "", errors := writeFailureText p fault, files := now,
              events } := by
  have hread : (read none fs p).outcome = .ok t := ht
  rw [each]
  dsimp only
  rw [hread]
  dsimp only
  rw [hwrite]
  cases fault with
  | none => exact ⟨_, rfl⟩
  | some fault => exact ⟨_, rfl⟩

/-- **FILE AFTER FILE**: files that can be read are formatted, up to the first
    that is refused. -/
theorem ends_each (h : fs.IsTree) (hwrite : fs.IsContained write files)
    (hfiles : ∀ p ∈ files, ∃ t, (fs.readPath p).outcome = .ok t) :
    Ends fs write files (each none replacing write fs files) := by
  induction files generalizing fs with
  | nil => exact .formatted rfl .nil
  | cons p rest ih =>
      obtain ⟨t, ht⟩ := hfiles p List.mem_cons_self
      rcases hwrite p List.mem_cons_self fs (.refl fs) (Utf8.encode t.render.toList)
        with hwritten | ⟨fault, hrefused⟩
      · have hshape : SameShape fs (fs.rewrite p t) := fs.sameShape_overwrite p _
        have hothers : (fs.rewrite p t).IsContained write rest := fun q hq now hnow =>
          hwrite q (List.mem_cons_of_mem p hq) now (hshape.trans hnow)
        have hrest : ∀ q ∈ rest, ∃ u, (fs.readPath q).outcome = .ok u :=
          fun q hq => hfiles q (List.mem_cons_of_mem p hq)
        have hlater : ∀ q ∈ rest, ∃ u, ((fs.rewrite p t).readPath q).outcome = .ok u := by
          intro q hq
          obtain ⟨u, hu⟩ := hrest q hq
          obtain ⟨v, hv, -⟩ := h.carriesOver_rewrite ht rfl u hu
          exact ⟨v, hv⟩
        obtain ⟨events, hreport⟩ := exists_each_cons ht hwritten rest
        rw [hreport]
        cases ih (h.overwrite p _) hothers hlater with
        | formatted hexit hformatted => exact .formatted hexit (hformatted.cons h ht hrest)
        | @refused done later q bytes fault hsplit hexit herrors hlast hdone =>
            have hbefore : ∀ q ∈ done, ∃ u, (fs.readPath q).outcome = .ok u := fun q hq =>
              hrest q (hsplit ▸ List.mem_append_left _ hq)
            exact .refused (congrArg (p :: ·) hsplit) hexit herrors hlast
              (hdone.cons h ht hbefore)
      · obtain ⟨events, hreport⟩ := exists_each_cons ht hrefused rest
        have hsplit : p :: rest = [] ++ p :: rest := rfl
        rw [hreport]
        exact .refused hsplit rfl rfl hrefused .nil

/-- Files that can be written are all formatted. -/
theorem Ends.of_isWritable {report : Report} (h : Ends fs write files report)
    (hwrite : fs.IsWritable write files) :
    report.exit = 0 ∧ fs.IsFormatted files report.files := by
  cases h with
  | formatted hexit hfiles => exact ⟨hexit, hfiles⟩
  | @refused done rest p bytes fault hsplit hexit herrors hrefused hdone =>
      have hp : p ∈ files := hsplit ▸ List.mem_append_right done List.mem_cons_self
      rw [hwrite p hp report.files hdone.shape bytes] at hrefused
      exact nomatch (Written.mk.inj hrefused).2

/-- **FORMATTING IN PLACE CHANGES NO MEANING**: let any files of a tree be
    formatted in place, without a reference directory, all of which can be read
    and written, each under no other name.  The run succeeds, and nothing
    changes but what the files hold.  Each of them is left with the text of a
    definition that is the one it had, with comments of structures brought to
    one line.  Whatever file could be read, listed or not, is read again, and
    gives the same definition but for carriage returns in the comments of
    structures. -/
theorem run_format {fs : FileSystem} (hfs : fs.IsTree) {write : Writing} {files : List Path}
    (hwrite : fs.IsWritable write files)
    (hfiles : ∀ p ∈ files, ∃ t, (fs.readPath p).outcome = .ok t) (verbose : Bool) :
    let report := Invocation.run ⟨none, verbose, .format files true⟩ fs write
    report.exit = 0 ∧
      (∀ location, (∀ p ∈ files, fs.locate p ≠ some location) →
        FileSystem.entry? report.files location = fs.entry? location) ∧
      (∀ p ∈ files, ∃ t : TypeDefinition,
        report.files.at? p = some (.file (Utf8.encode t.render.toList)) ∧
          ∀ u, (fs.readPath p).outcome = .ok u → t.settled = u.settled) ∧
      ∀ q t, (fs.readPath q).outcome = .ok t →
        ∃ t', (report.files.readPath q).outcome = .ok t' ∧ t'.settled = t.settled := by
  intro report
  obtain ⟨hexit, hformatted⟩ := (ends_each hfs hwrite.isContained hfiles).of_isWritable hwrite
  exact ⟨hexit, hformatted.outside, hformatted.written, hformatted.meanings⟩

/-- A directory with two files, one of which refers to the other. -/
def plantFiles : FileSystem where
  home := ["plant"]
  entries :=
    [(["plant"], .directory),
     (["plant", "Pump.udt"], .file (Utf8.encode
      "TYPE \"Pump\"\nVERSION : 1\nSTRUCT\nm : \"Motor\"; // main\nEND_STRUCT;\nEND_TYPE\n".toList)),
     (["plant", "Motor.udt"], .file (Utf8.encode
      "TYPE \"Motor\"\nVERSION : 0.1\nSTRUCT\nEND_STRUCT;\nEND_TYPE\n".toList))]

/-- The definition in the file that refers to the other. -/
def pump : TypeDefinition where
  name := "Pump"
  version := "1"
  comment := ""
  members := [.struct "m" "main" []]

/-- The other file is formatted before and after it, and all can be written. -/
theorem run_format_plant :
    let files : List Path := [⟨"Motor.udt"⟩, ⟨"Pump.udt"⟩, ⟨"Motor.udt"⟩]
    let report := Invocation.run ⟨none, false, .format files true⟩ plantFiles FileSystem.write
    plantFiles.IsTree ∧ plantFiles.IsWritable FileSystem.write files ∧
      (∀ p ∈ files, ∃ t, (plantFiles.readPath p).outcome = .ok t) ∧
      (plantFiles.readPath ⟨"Pump.udt"⟩).outcome = .ok pump ∧ report.exit = 0 ∧
        ∃ t, (report.files.readPath ⟨"Pump.udt"⟩).outcome = .ok t ∧
          t.settled = pump.settled := by
  intro files report
  have htree : plantFiles.IsTree := ⟨by decide, by decide⟩
  have hwrite : plantFiles.IsWritable FileSystem.write files := fun _ _ _ _ _ => rfl
  have hmotor : (plantFiles.readPath ⟨"Motor.udt"⟩).outcome = .ok ⟨"Motor", "0.1", "", []⟩ := by
    decide +kernel
  have hpump : (plantFiles.readPath ⟨"Pump.udt"⟩).outcome = .ok pump := by decide +kernel
  have hfiles : ∀ p ∈ files, ∃ t, (plantFiles.readPath p).outcome = .ok t := by
    intro p hp
    simp only [files, List.mem_cons, List.not_mem_nil, or_false] at hp
    rcases hp with rfl | rfl | rfl
    · exact ⟨_, hmotor⟩
    · exact ⟨_, hpump⟩
    · exact ⟨_, hmotor⟩
  obtain ⟨hexit, -, -, hmeanings⟩ := run_format htree hwrite hfiles false
  exact ⟨htree, hwrite, hfiles, hpump, hexit, hmeanings ⟨"Pump.udt"⟩ pump hpump⟩

/-- **A REFUSAL CHANGES NO MEANING EITHER**: if some of the files cannot be
    written, the run fails at the first of them, and whatever could be read
    gives the same definition as before. -/
theorem run_format_of_isContained (hfs : fs.IsTree) (hwrite : fs.IsContained write files)
    (hfiles : ∀ p ∈ files, ∃ t, (fs.readPath p).outcome = .ok t) (verbose : Bool) :
    let report := Invocation.run ⟨none, verbose, .format files true⟩ fs write
    (report.exit = 0 ∨
        ∃ p ∈ files, ∃ fault, report.exit = 1 ∧ report.errors = writeFailureText p fault) ∧
      (∀ location, (∀ p ∈ files, fs.locate p ≠ some location) →
        FileSystem.entry? report.files location = fs.entry? location) ∧
      ∀ q t, (fs.readPath q).outcome = .ok t →
        ∃ t', (report.files.readPath q).outcome = .ok t' ∧ t'.settled = t.settled := by
  intro report
  have hends : Ends fs write files report := ends_each hfs hwrite hfiles
  cases hends with
  | formatted hexit hformatted =>
      exact ⟨Or.inl hexit, hformatted.outside, hformatted.meanings⟩
  | @refused done rest p bytes fault hsplit hexit herrors hlast hdone =>
      have hp : p ∈ files := hsplit ▸ List.mem_append_right done List.mem_cons_self
      refine ⟨Or.inr ⟨p, hp, fault, hexit, herrors⟩, fun location hlocation => ?_, hdone.meanings⟩
      refine hdone.outside location fun q hq => ?_
      exact hlocation q (hsplit ▸ List.mem_append_left _ hq)

/-- The first of two files is refused. -/
example :
    let refusing : Writing := fun fs _ _ => ⟨fs, some "Permission denied (os error 13)"⟩
    let report := Invocation.run ⟨none, false, .format [⟨"Motor.udt"⟩, ⟨"Pump.udt"⟩] true⟩
      plantFiles refusing
    report.exit = 1 ∧ report.errors
      = "Error: Motor.udt: write failed\n\nCaused by:\n    Permission denied (os error 13)\n" := by
  decide +kernel

/-! ## The command line -/

/-- Operands are taken one after another. -/
theorem readCommand_trailing {verb : Verb} (hverb : verb.takesOneFile = false) (s : Settings)
    (files : List Path) {names : List String} (hnames : ∀ name ∈ names, name ≠ "") :
    readCommand verb s files (names.map .trailing)
      = .ok (s, (names.map Path.mk).reverse ++ files) := by
  induction names generalizing files with
  | nil => rfl
  | cons name names ih =>
      have hname : pathOf name = .ok ⟨name⟩ := by
        unfold pathOf
        rw [if_neg (by simpa using hnames name List.mem_cons_self)]
      rw [List.map_cons, readCommand, hverb, Bool.false_and, if_neg Bool.false_ne_true, hname]
      show readCommand verb s (⟨name⟩ :: files) (names.map .trailing) = _
      rw [ih (⟨name⟩ :: files) fun n hn => hnames n (List.mem_cons_of_mem name hn)]
      simp

/-- Any files can be asked for. -/
theorem ofArgs_format {names : List String} (hnames : ∀ name ∈ names, name ≠ "") :
    Invocation.ofArgs ("fmt" :: "--write" :: "--" :: names) = .ok {
      references := none, verbose := false, task := .format (names.map Path.mk) true } := by
  have hitems : items Verb.format.options ("--write" :: "--" :: names)
      = .option .write "" :: names.map .trailing := by
    rfl
  have hread : readCommand .format {} [] (.option .write "" :: names.map .trailing)
      = .ok ({ write := true }, (names.map Path.mk).reverse ++ []) :=
    readCommand_trailing rfl { write := true } [] hnames
  rw [List.append_nil] at hread
  show invoke {} .format ("--write" :: "--" :: names) = _
  unfold invoke
  rw [hitems, hread]
  show Except.ok (Invocation.mk none false (.format (names.map Path.mk).reverse.reverse true)) = _
  rw [List.reverse_reverse]

/-- **ANY FILES CAN BE NAMED**: in a tree that has been made by putting in
    entries, a command line with the names of files formats them. -/
theorem isFormatted_run_names {fs : FileSystem} (hfs : fs.Grown) {write : Writing}
    {names : List String} (hnames : ∀ name ∈ names, name ≠ "")
    (hwrite : fs.IsWritable write (names.map Path.mk))
    (hfiles : ∀ p ∈ names.map Path.mk, ∃ t, (fs.readPath p).outcome = .ok t) :
    (run ("fmt" :: "--write" :: "--" :: names) fs write).exit = 0 ∧
      fs.IsFormatted (names.map Path.mk)
        (run ("fmt" :: "--write" :: "--" :: names) fs write).files := by
  have hrun : run ("fmt" :: "--write" :: "--" :: names) fs write
      = each none replacing write fs (names.map Path.mk) := by
    rw [run, ofArgs_format hnames]
    rfl
  rw [hrun]
  exact (ends_each hfs.isTree hwrite.isContained hfiles).of_isWritable hwrite

end Command

end PlcTypes
