import PlcTypes.Text.Basic

/-! # File paths

    A path is a text whose components are separated by slashes.  It is kept
    as it was put together: joining and taking the parent change only what
    they must, because the texts of paths are shown in messages. -/

namespace PlcTypes

/-- A file path, as written. -/
structure Path where
  text : String
deriving DecidableEq, Repr

namespace Path

/-- Whether a text starts at the root of all files. -/
def isAbsolute (cs : List Char) : Bool :=
  cs.head? == some '/'

/-- The path of a name inside a directory.  An absolute name stands for
    itself, and a directory that is empty or ends in a slash needs none. -/
def join (dir : Path) (name : String) : Path :=
  let cs := dir.text.toList
  if isAbsolute name.toList || cs.isEmpty then ⟨name⟩
  else if cs.getLast? == some '/' then ⟨dir.text ++ name⟩
  else ⟨dir.text ++ "/" ++ name⟩

/-- The components between the slashes of a text. -/
def components (cs : List Char) : List (List Char) :=
  cs.splitOn '/'

/-- Whether a component stands for the directory that it is in. -/
def isIdle (component : List Char) : Bool :=
  component.isEmpty || component == ['.']

/-- A path cut after its fixed head: the slash of an absolute path, or the
    single dot that it starts with. -/
def splitHead : List Char → List Char × List Char
  | '/' :: cs => (['/'], cs)
  | ['.'] => (['.'], [])
  | '.' :: '/' :: cs => (['.'], '/' :: cs)
  | cs => ([], cs)

/-- The path of the directory that a path lies in: the path without its last
    component and the idle components and slashes before it.  A path without
    a component that can be dropped lies in the directory with the empty
    path. -/
def parent (p : Path) : Path :=
  let (head, body) := splitHead p.text.toList
  match (components body).reverse.dropWhile isIdle with
  | [] => ⟨""⟩
  | _ :: others =>
      let kept := (others.dropWhile isIdle).reverse
      ⟨String.ofList (head ++ ['/'].intercalate kept)⟩

example : parent ⟨"lib//./X.udt"⟩ = ⟨"lib"⟩ ∧ parent ⟨"./X.udt"⟩ = ⟨"."⟩ ∧
    parent ⟨"sub/../X.udt"⟩ = ⟨"sub/.."⟩ ∧ parent ⟨"X.udt"⟩ = ⟨""⟩ := by decide

end Path

end PlcTypes
