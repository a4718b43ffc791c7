import Kennel.Cli.Tree

/-!
# Disks

A disk is a tree of files below the root `/`, with links in it and a working directory. A path that
begins with a slash is followed from the root, any other from the working directory. What a path
leads to in the end is a place in the tree, `Disk.locate`; two paths name one file if they lead to
one place.

Permissions, devices, names that are no texts and bounds on the length of names are left out: a file
can be created wherever its directory is there and no directory has its name.
-/

namespace Kennel.Cli

/-- What a name stands for that is not the first name of a file or directory. -/
inductive Link
  /-- A further name of the file at a place. -/
  | hard (file : Place)
  /-- A path to go on with in place of the name. -/
  | symbolic (path : String)

structure Disk where
  /-- The files, each at its first name, and the directories. -/
  tree : Tree
  links : List (Place × Link)
  /-- The working directory. -/
  home : Place
  /-- The form in which directories keep names. Names of one form are one name; where the case of a
  letter counts, every name is its own form. -/
  form : String → String
  /-- How many symbolic links one path may lead through. -/
  hops : Nat

namespace Disk

def isDir (d : Disk) (p : Place) : Bool := d.tree.isDir p || d.links.any (isAbove p ·.1)

def file? (d : Disk) (p : Place) : Option ByteArray := d.tree.file? p

/-- Where a path starts that stands in a directory. -/
def origin (here : Place) (path : String) : Place :=
  match path.toList with
  | '/' :: _ => []
  | _ => here

/-- Follow components from a directory to the place of a file, whether or not the file is there.
Every component but the last has to lead to a directory, and the last has to be a name. `jump`
follows the components that remain behind a symbolic link, its own first. Above the root is the
root. -/
def walk (d : Disk) (jump : Place → List String → Option Place) (here : Place) :
    List String → Option Place
  | [] => none
  | c :: rest =>
    if c = "" ∨ c = "." then d.walk jump here rest
    else if c = ".." then d.walk jump here.dropLast rest
    else
      match d.links.lookup (here ++ [d.form c]) with
      | some (.symbolic path) => jump (origin here path) (Path.components path ++ rest)
      | some (.hard file) => if rest.isEmpty then some file else none
      | none =>
        if rest.isEmpty then some (here ++ [d.form c])
        else if d.isDir (here ++ [d.form c]) then d.walk jump (here ++ [d.form c]) rest
        else none

/-- Follow components through as many symbolic links as are allowed. -/
def follow (d : Disk) : Nat → Place → List String → Option Place
  | 0 => d.walk fun _ _ => none
  | hops + 1 => d.walk (d.follow hops)

/-- The place of the file that a path names, whether or not the file is there. -/
def locate (d : Disk) (path : String) : Option Place :=
  d.follow d.hops (origin d.home path) (Path.components path)

/-- The contents of a file. -/
def read? (d : Disk) (path : String) : Option ByteArray := (d.locate path).bind d.file?

/-- Put contents at a place, in place of what was there. -/
def put (d : Disk) (p : Place) (contents : ByteArray) : Disk :=
  { d with tree := { d.tree with files := Tree.put p contents d.tree.files } }

/-- Create a file or overwrite it. There is no result if the path cannot name a file. -/
def write? (d : Disk) (path : String) (contents : ByteArray) : Option Disk :=
  match d.locate path with
  | none => none
  | some p => if d.isDir p then none else some (d.put p contents)

/-- A disk with nothing on it but the files and directories of a tree, which lie in the working
directory. -/
def ofTree (t : Tree) : Disk where
  tree := t.inside ["work"]
  links := []
  home := ["work"]
  form := id
  hops := 40

instance : Coe Tree Disk := ⟨ofTree⟩

end Disk

end Kennel.Cli
