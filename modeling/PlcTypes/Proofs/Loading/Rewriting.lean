import PlcTypes.Proofs.Loading.Place
import PlcTypes.Proofs.RoundTrip.Definition
import PlcTypes.Proofs.Source.Alike
import PlcTypes.Proofs.Source.WellFormed
import PlcTypes.Proofs.Text.Utf8

/-! # Rewriting one file

    A file gets the text that is written for its own definition.  Every path
    leads where it led before, and in the place of the old file is one that
    refers to nothing and gives the same definition, settled.  So every file
    that was loaded is loaded again and gives a definition that is alike, by
    induction on the references in it. -/

namespace PlcTypes.FileSystem

open Text Traced

variable {fs : FileSystem}

theorem SameShape.carriesOver_refer {after : FileSystem} (h : SameShape fs after) {dir : Path}
    {load load' : Path → Traced TypeDefinition}
    (hload : ∀ p, CarriesOver TypeDefinition.Alike (load p) (load' p)) (field target : String) :
    CarriesOver TypeDefinition.Alike (fs.refer dir load field target)
      (after.refer dir load' field target) := by
  unfold refer
  rw [h.resolve_eq]
  exact CarriesOver.bind_left _ fun p => CarriesOver.bind_left _ fun _ => hload p

/-- The tree after the file at the end of a path has got the text of a
    definition. -/
def rewrite (fs : FileSystem) (path : Path) (t : TypeDefinition) : FileSystem :=
  fs.overwrite path (Utf8.encode t.render.toList)

section Rewrite

variable {path : Path} {t : TypeDefinition} {location : Location} {old : List UInt8}

/-- The lines of the file that has been rewritten. -/
theorem lines?_rewrite (hpath : fs.locate path = some location)
    (hfile : fs.entry? location = some (.file old)) {q : Path} (hq : fs.locate q = some location) :
    (fs.rewrite path t).lines? q = some (linesOfText t.render) := by
  have hlocate : (fs.rewrite path t).locate q = some location :=
    ((fs.sameShape_overwrite path _).locate_eq q).trans hq
  rw [lines?_of_locate hlocate (fs.entry?_overwrite_self path _ hpath hfile),
    linesOfBytes_encode]

/-- A path to another place leads to the same lines as before. -/
theorem lines?_rewrite_of_ne {q : Path} (h : fs.locate q ≠ fs.locate path) :
    (fs.rewrite path t).lines? q = fs.lines? q := by
  have hshape : SameShape fs (fs.rewrite path t) := fs.sameShape_overwrite path _
  cases hq : fs.locate q with
  | none => rw [lines?_of_not_there hq, lines?_of_not_there ((hshape.locate_eq q).trans hq)]
  | some place =>
      rw [hq] at h
      exact congrArg (Option.map Entry.lines)
        (hshape.at?_eq hq (fs.entry?_overwrite_of_ne path _ h.symm))

/-- **REWRITING ONE FILE**: when a file is rewritten with the text of the
    definition in it, every file that was loaded gives a definition that is
    alike. -/
theorem IsTree.carriesOver_rewrite (h : fs.IsTree) (ht : (fs.readPath path).outcome = .ok t)
    {within : List String} {q dir : Path} (hdir : dir = q.parent) :
    CarriesOver TypeDefinition.Alike (fs.load within q dir)
      ((fs.rewrite path t).load within q dir) := by
  obtain ⟨location, old, hpath, hfile⟩ := exists_file_of_load ht
  have hshape : SameShape fs (fs.rewrite path t) := fs.sameShape_overwrite path _
  induction within, q, dir using load.induct fs with
  | case1 within q dir hmissing =>
      rw [load_of_missing hmissing]
      exact carriesOver_fail _ _
  | case2 within q dir lines hthere ih =>
      by_cases hplace : fs.locate q = fs.locate path
      · -- the file that was rewritten: it has been read as `t` here, too
        obtain rfl := hdir
        intro u hu
        have hq : fs.locate q = some location := hplace.trans hpath
        obtain rfl : u = t := h.load_eq_of_locate hpath hq ht hu
        have hread := isRead_load ht
        refine ⟨u.settled, ?_, u.alike_settled⟩
        rw [load_of_lines (lines?_rewrite hpath hfile hq),
          TypeDefinition.ofLines_render hread.wellFormed hread.last]
        rw [load_of_lines hthere] at hu
        exact TypeDefinition.isWithin_of_ofLines hu
      · rw [load_of_lines hthere, load_of_lines ((lines?_rewrite_of_ne hplace).trans hthere)]
        refine TypeDefinition.carriesOver_ofLines fun head hfound hnew => ?_
        exact hshape.carriesOver_refer fun p => ih head hfound hnew p rfl

end Rewrite

end PlcTypes.FileSystem
