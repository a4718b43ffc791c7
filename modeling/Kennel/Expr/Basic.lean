import Kennel.Op
import Kennel.Text.Decimal

/-!
# Expressions

An expression is an atom (a literal or a variable) or an operator between two expressions.
`Expr.text` shows it fully parenthesised.
-/

namespace Kennel

inductive Atom
  | literal (value : Int64)
  | name (text : String)
  deriving DecidableEq

inductive Expr
  | atom (a : Atom)
  | binary (op : Op) (lhs rhs : Expr)
  deriving DecidableEq

def Atom.text : Atom → String
  | .literal n => Text.signed n.toInt
  | .name x => x

/-- Infix text with a pair of parentheses around every operator node. -/
def Expr.text : Expr → String
  | .atom a => a.text
  | .binary op l r => "(" ++ l.text ++ " " ++ op.sign ++ " " ++ r.text ++ ")"

end Kennel
