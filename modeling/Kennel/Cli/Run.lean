import Kennel.Cli.Command
import Kennel.Cli.Disk

/-!
# Commands on a disk

A command on a disk with given standard input, worked out step by step: what is read comes from the
disk, and what is put out is kept (`Scene`).
-/

namespace Kennel.Cli

/-- Where a command stands. -/
structure Scene where
  stdin : ByteArray
  stdout : String
  /-- The messages so far; `none` stands for advice on usage, when the arguments make no sense. -/
  stderr : Option String
  disk : Disk

/-- A host that works on a scene. There is no result if an evaluation does not end within the
fuel. -/
def Scene.host (fuel : Nat) : Host (StateT Scene Option) where
  contents path := do return (← get).disk.read? path
  input := do return (← get).stdin
  print text := modify fun s => { s with stdout := s.stdout ++ text }
  save path contents := do
    let s ← get
    match s.disk.write? path contents with
    | some disk =>
      set { s with disk := disk }
      return true
    | none => return false
  report message := modify fun s => { s with stderr := s.stderr.map (· ++ message ++ "\n") }
  advise := modify fun s => { s with stderr := none }
  await result := result fuel

/-- How a command ends. -/
structure Outcome where
  /-- Zero on success, one otherwise. -/
  exit : Nat
  stdout : String
  /-- The message of a failure; `none` stands for advice on usage, when the arguments make no
  sense. -/
  stderr : Option String
  disk : Disk

/-- How a command ends that does this from its start. -/
def endOf (stdin : ByteArray) (disk : Disk) (x : StateT Scene Option Nat) : Option Outcome :=
  (x.run ⟨stdin, "", some "", disk⟩).map fun
    | (exit, s) => ⟨exit, s.stdout, s.stderr, s.disk⟩

namespace Outcome

def failed (disk : Disk) (message : String) : Outcome := ⟨1, "", some (message ++ "\n"), disk⟩

def misused (disk : Disk) : Outcome := ⟨1, "", none, disk⟩

/-- What lies in the working directory. -/
def tree (out : Outcome) : Tree := out.disk.tree.below out.disk.home

end Outcome

/-- Run a command on a disk, with any way to read its arguments. There is no result if an evaluation
does not end within the fuel. -/
def runWith (options : List String → Option Options) (fuel : Nat) (args : List String)
    (stdin : ByteArray) (disk : Disk) : Option Outcome :=
  endOf stdin disk (command (Scene.host fuel) options args)

/-- Run a command on a disk. -/
def run (fuel : Nat) (args : List String) (stdin : ByteArray) (disk : Disk) : Option Outcome :=
  runWith Options.ofArgs fuel args stdin disk

end Kennel.Cli
