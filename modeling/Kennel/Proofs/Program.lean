import Kennel.Program.Basic

/-!
# Parts of programs

The atoms of an expression, and the expressions and names of a list of statements with all the
blocks in it, each in the order of the text.
-/

namespace Kennel

def Expr.atoms : Expr → List Atom
  | .atom a => [a]
  | .binary _ l r => l.atoms ++ r.atoms

mutual

/-- The expressions of a statement and of the blocks in it. -/
def Stmt.exprs : Stmt → List Expr
  | .assign _ e => [e]
  | .branch _ c yes no => c :: (Stmt.exprsAll yes ++ Stmt.exprsAll no)
  | .loop _ c body => c :: Stmt.exprsAll body
  | .bare _ => []

def Stmt.exprsAll : List Stmt → List Expr
  | [] => []
  | s :: rest => s.exprs ++ Stmt.exprsAll rest

end

section

variable {P : Expr → Prop} {x : String} {id : Nat} {c : Expr} {yes no body rest : List Stmt}

theorem Stmt.forall_exprsAll_bare :
    (∀ e ∈ Stmt.exprsAll (.bare x :: rest), P e) ↔ ∀ e ∈ Stmt.exprsAll rest, P e :=
  Iff.rfl

theorem Stmt.forall_exprsAll_assign :
    (∀ e ∈ Stmt.exprsAll (.assign x c :: rest), P e) ↔ P c ∧ ∀ e ∈ Stmt.exprsAll rest, P e :=
  List.forall_mem_cons

theorem Stmt.forall_exprsAll_branch :
    (∀ e ∈ Stmt.exprsAll (.branch id c yes no :: rest), P e) ↔
      P c ∧ ((∀ e ∈ Stmt.exprsAll yes, P e) ∧ ∀ e ∈ Stmt.exprsAll no, P e) ∧
        ∀ e ∈ Stmt.exprsAll rest, P e := by
  rw [Stmt.exprsAll, Stmt.exprs, List.cons_append, List.forall_mem_cons, List.forall_mem_append,
    List.forall_mem_append]

theorem Stmt.forall_exprsAll_loop :
    (∀ e ∈ Stmt.exprsAll (.loop id c body :: rest), P e) ↔
      P c ∧ (∀ e ∈ Stmt.exprsAll body, P e) ∧ ∀ e ∈ Stmt.exprsAll rest, P e := by
  rw [Stmt.exprsAll, Stmt.exprs, List.cons_append, List.forall_mem_cons, List.forall_mem_append]

end

mutual

/-- The names that stand outside of expressions, assigned or bare. -/
def Stmt.heads : Stmt → List String
  | .assign x _ | .bare x => [x]
  | .branch _ _ yes no => Stmt.headsAll yes ++ Stmt.headsAll no
  | .loop _ _ body => Stmt.headsAll body

def Stmt.headsAll : List Stmt → List String
  | [] => []
  | s :: rest => s.heads ++ Stmt.headsAll rest

end

mutual

/-- The names that a statement and the blocks in it assign, whether they are executed or not. -/
def Stmt.targets : Stmt → List String
  | .assign x _ => [x]
  | .branch _ _ yes no => Stmt.targetsAll yes ++ Stmt.targetsAll no
  | .loop _ _ body => Stmt.targetsAll body
  | .bare _ => []

def Stmt.targetsAll : List Stmt → List String
  | [] => []
  | s :: rest => s.targets ++ Stmt.targetsAll rest

end

/-- The names that a program assigns, each once, in the order of their first assignments. -/
def Program.variables (p : Program) : List String := (Stmt.targetsAll p).eraseDups

/-- The variables that an expression reads. -/
def Expr.names (e : Expr) : List String :=
  e.atoms.filterMap fun
    | .name x => some x
    | .literal _ => none

theorem Expr.names_binary (op : Op) (l r : Expr) :
    (Expr.binary op l r).names = l.names ++ r.names :=
  List.filterMap_append

/-- The names that occur in a program. -/
def Program.names (p : Program) : List String :=
  Stmt.headsAll p ++ (Stmt.exprsAll p).flatMap Expr.names

end Kennel
