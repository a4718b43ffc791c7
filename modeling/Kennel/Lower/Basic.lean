import Kennel.Lower.Cause
import Kennel.Lower.Frame
import Kennel.Lower.Pool

/-!
# Lowering: state and register loans

`Emit` is a computation on the pool and the frame that may fail; a failure keeps the state reached.
-/

namespace Kennel.Lower

open Asm

structure State where
  pool : Pool
  frame : Frame
  deriving DecidableEq

def State.ofLimit (limit : Nat) : State := ⟨.ofLimit limit, .empty⟩

/-- A computation with a result or a fault, and the state it ends in. -/
def Emit (α : Type) : Type := State → Except Fault α × State

namespace Emit

variable {α β : Type}

def bind (x : Emit α) (f : α → Emit β) : Emit β := fun s =>
  match x s with
  | (.ok a, s) => f a s
  | (.error e, s) => (.error e, s)

instance : Monad Emit where
  pure a := fun s => (.ok a, s)
  bind := Emit.bind

theorem pure_apply (a : α) (s : State) : (pure a : Emit α) s = (.ok a, s) := rfl

theorem bind_apply (x : Emit α) (f : α → Emit β) (s : State) :
    (x >>= f) s = match x s with
      | (.ok a, s) => f a s
      | (.error e, s) => (.error e, s) := rfl

def fail (cause : Cause) : Emit α := fun s => (.error (.of cause), s)

/-- Add a context to the faults of a computation. -/
def within (context : String) (x : Emit α) : Emit α := fun s =>
  match x s with
  | (.ok a, s) => (.ok a, s)
  | (.error f, s) => (.error (f.within context), s)

end Emit

open Emit (fail)

def acquire : Emit Register := fun s =>
  match s.pool.acquire? with
  | some (r, pool) => (.ok r, { s with pool := pool })
  | none => fail (.outOfRegisters s.pool.size) s

def release (r : Register) : Emit Unit := fun s =>
  match s.pool.release? r with
  | some pool => (.ok (), { s with pool := pool })
  | none => fail (.strayRelease r) s

/-- Lend a register to a computation and take it back afterwards, also after a fault. -/
def withScratch {α : Type} (body : Register → Emit α) : Emit α := fun s =>
  match acquire s with
  | (.error f, s) => (.error f, s)
  | (.ok r, s) =>
    match body r s with
    | (result, s) =>
      match release r s with
      | (.ok (), s) => (result, s)
      | (.error f, s) => (.error f, s)

/-- Lend `depth` registers, one inside the other, around a computation. Beside its outcome stand
the registers that were lent, the outermost first. -/
def withNested {α : Type} (inner : Emit α) : Nat → Emit (List Register × Except Fault α)
  | 0 => fun s =>
    match inner s with
    | (result, s) => (.ok ([], result), s)
  | depth + 1 => fun s =>
    match withScratch (fun r => (do let p ← withNested inner depth; pure (r :: p.1, p.2))) s with
    | (.ok p, s) => (.ok p, s)
    | (.error f, s) => (.ok ([], .error f), s)

/-- The slot of a variable that is read. -/
def readSlot (x : String) : Emit Operand := fun s =>
  match s.frame.read? x with
  | some m => (.ok m, s)
  | none => fail (.unassigned x) s

/-- The slot of a variable that is written. -/
def assignSlot (x : String) : Emit Operand := fun s =>
  (.ok (s.frame.assign x).1, { s with frame := (s.frame.assign x).2 })

/-- The variables that may be read. -/
def assignedNames : Emit (List String) := fun s => (.ok s.frame.assigned, s)

def modifyFrame (g : Frame → Frame) : Emit Unit := fun s =>
  (.ok (), { s with frame := g s.frame })

end Kennel.Lower
