import Kennel.Cli.Path

/-!
# Trees of files

Files and directories by the names that lead to them from one directory, the top of the tree. A
directory is there if it is listed or if something lies in it.
-/

namespace Kennel.Cli

abbrev Place := List String

/-- `q` lies below `p`. -/
def isAbove (p q : Place) : Bool := p.isPrefixOf q && p.length < q.length

structure Tree where
  files : List (Place × ByteArray)
  dirs : List Place

namespace Tree

/-- The place of a path that is written without detours. -/
def place (path : String) : Place := (Path.components path).filter fun c => c != "" && c != "."

def isDir (t : Tree) (p : Place) : Bool :=
  p.isEmpty || t.dirs.any (p.isPrefixOf ·) || t.files.any (isAbove p ·.1)

def file? (t : Tree) (p : Place) : Option ByteArray := t.files.lookup p

/-- Put contents at a place, in place of what was there. -/
def put (p : Place) (contents : ByteArray) :
    List (Place × ByteArray) → List (Place × ByteArray)
  | [] => [(p, contents)]
  | f :: fs => if f.1 = p then (p, contents) :: fs else f :: put p contents fs

/-- The tree inside a directory of a larger tree. -/
def inside (home : Place) (t : Tree) : Tree :=
  ⟨t.files.map fun f => (home ++ f.1, f.2), home :: t.dirs.map (home ++ ·)⟩

/-- The part of a tree below a directory. -/
def below (home : Place) (t : Tree) : Tree :=
  ⟨(t.files.filter (isAbove home ·.1)).map fun f => (f.1.drop home.length, f.2),
    (t.dirs.filter (isAbove home)).map (·.drop home.length)⟩

/-- The files of `new` that `old` does not have with the same contents. -/
def changes (old new : Tree) : List (Place × ByteArray) :=
  new.files.filter fun f => old.file? f.1 != some f.2

end Tree

end Kennel.Cli
