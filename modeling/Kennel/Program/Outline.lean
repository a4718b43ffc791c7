import Kennel.Program.Basic
import Kennel.Text.Outline
import Kennel.Text.Quoted

/-!
# Outlines of programs
-/

namespace Kennel

open Text

/-- The outline of a name. -/
def outlineName (x : String) : Outline := .group "Identifier" .round [.leaf (quote x)]

/-- The outline of the number of a branch or a loop. -/
def outlineId (id : Nat) : Outline := .group "NodeId" .round [.leaf (numeral id)]

def Atom.outline : Atom → Outline
  | .literal n => .group "Integer" .round [.leaf (signed n.toInt)]
  | .name x => .group "Variable" .round [outlineName x]

def Expr.outline : Expr → Outline
  | .atom a => a.outline
  | .binary op l r =>
    .group "Binary" .curly
      [.field "operator" (.leaf op.name), .field "lhs" l.outline, .field "rhs" r.outline]

mutual

def Stmt.outline : Stmt → Outline
  | .assign x e =>
    .group "Assign" .curly [.field "target" (outlineName x), .field "value" e.outline]
  | .branch id c yes no =>
    .group "If" .curly
      [.field "id" (outlineId id), .field "condition" c.outline,
       .field "then_branch" (.group "Block" .curly (Stmt.outlineAll 0 yes)),
       .field "else_branch" (.group "Block" .curly (Stmt.outlineAll 0 no))]
  | .loop id c body =>
    .group "While" .curly
      [.field "id" (outlineId id), .field "condition" c.outline,
       .field "body" (.group "Block" .curly (Stmt.outlineAll 0 body))]
  | .bare x => .group "Bare" .round [outlineName x]

/-- The statements of a block as fields, numbered from `start`. -/
def Stmt.outlineAll (start : Nat) : List Stmt → List Outline
  | [] => []
  | s :: rest => .field (numeral start) s.outline :: Stmt.outlineAll (start + 1) rest

end

def Program.outline (p : Program) : Outline :=
  .group "Program" .round [.group "Block" .curly (Stmt.outlineAll 0 p)]

end Kennel
