import Kennel.Expr.Basic

/-!
# Programs

A program is a list of statements. Conditionals and loops carry a number of their own, from which
their labels are named.
-/

namespace Kennel

inductive Stmt
  /-- Store the value of an expression in a variable. -/
  | assign (target : String) (value : Expr)
  /-- Both branches are always there, possibly empty. -/
  | branch (id : Nat) (cond : Expr) (yes no : List Stmt)
  | loop (id : Nat) (cond : Expr) (body : List Stmt)
  /-- A name to which nothing is assigned; it has no effect. -/
  | bare (name : String)

abbrev Program := List Stmt

end Kennel
