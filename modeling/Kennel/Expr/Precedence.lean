import Kennel.Expr.Basic

/-!
# Grouping by priority

A chain `a₀ op₁ a₁ … opₙ aₙ` becomes a tree by putting its operands in front of the tree of the
rest, one by one from the right. `Expr.prepend` descends the left spine of that tree to the place
where the new operator belongs; equal priorities descend too, so operators group to the left.
-/

namespace Kennel.Expr

/-- The tree for `lhs op` in front of `rhs`: `op` takes as its right operand the part of `rhs` on
its left spine that binds tighter than `op`. -/
def prepend (lhs : Expr) (op : Op) : Expr → Expr
  | .atom a => .binary op lhs (.atom a)
  | .binary op' l r =>
    if op.priority ≤ op'.priority then .binary op' (prepend lhs op l) r
    else .binary op lhs (.binary op' l r)

/-- Move the topmost operator of a tree down to where its priority puts it. -/
def regroup : Expr → Expr
  | .atom a => .atom a
  | .binary op l r => prepend l op r

/-- The tree of the chain whose operands but the last, each with the operator after it, are
`front`. -/
def ofChain (front : List (Atom × Op)) (last : Atom) : Expr :=
  front.foldr (fun p rest => prepend (.atom p.1) p.2 rest) (.atom last)

end Kennel.Expr
