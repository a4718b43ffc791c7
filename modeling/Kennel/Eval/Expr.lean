import Kennel.Eval.Cause
import Kennel.Eval.Store
import Kennel.Expr.Basic

/-!
# Values of expressions

`Expr.eval` is the value of an expression, operands from left to right. Each value that is found on
the way goes through an accumulator; `Expr.residue` is what a failing evaluation leaves in it.
-/

namespace Kennel

open Eval

def Atom.eval (vars : Store) : Atom → Except Cause Int64
  | .literal n => .ok n
  | .name x =>
    match vars.get? x with
    | some v => .ok v
    | none => .error (.unassigned x)

def Expr.eval (vars : Store) : Expr → Except Cause Int64
  | .atom a => a.eval vars
  | .binary op l r =>
    match l.eval vars with
    | .error c => .error c
    | .ok a =>
      match r.eval vars with
      | .error c => .error c
      | .ok b => .ok (op.apply a b)

/-- The accumulator after an evaluation, whether it found a value or failed. -/
def Expr.residue (vars : Store) (acc : Option Int64) : Expr → Option Int64
  | .atom a =>
    match a.eval vars with
    | .ok v => some v
    | .error _ => acc
  | .binary op l r =>
    match l.eval vars with
    | .error _ => l.residue vars acc
    | .ok a =>
      match r.eval vars with
      | .error _ => r.residue vars (some a)
      | .ok b => some (op.apply a b)

end Kennel
