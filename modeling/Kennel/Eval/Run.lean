import Kennel.Eval.Expr
import Kennel.Program.Basic

/-!
# Runs of programs

A run works off a list of statements. `step` executes the first of them and says what is to be done
before the rest; a loop whose test holds asks for its body and then for itself. So every executed
statement and every further test of a loop is one step, and steps are what a limit counts.

`run` takes as many steps as its fuel allows, and has no result when the fuel ends first.
-/

namespace Kennel.Eval

structure State where
  vars : Store
  /-- The latest value of any expression. -/
  acc : Option Int64
  /-- The steps so far. The count has no bound: that a machine word runs over after 2⁶⁴ steps is
  left out. -/
  steps : Nat

namespace State

def initial : State := ⟨[], none, 0⟩

/-- Evaluate an expression, leaving its value in the accumulator. -/
def value (st : State) (e : Expr) : Except Cause Int64 × State :=
  match e.eval st.vars with
  | .ok v => (.ok v, { st with acc := some v })
  | .error c => (.error c, { st with acc := e.residue st.vars st.acc })

/-- Count one step, and say whether it is still within the limit. -/
def tick (limit : Option Nat) (st : State) : Except Cause Unit × State :=
  let st := { st with steps := st.steps + 1 }
  match limit with
  | some n => if n < st.steps then (.error (.stepLimit n), st) else (.ok (), st)
  | none => (.ok (), st)

end State

/-- Execute a statement up to the point where other statements take over, and give those. -/
def execute (s : Stmt) (st : State) : Except Cause (List Stmt) × State :=
  match s with
  | .bare _ => (.ok [], st)
  | .assign x e =>
    match st.value e with
    | (.ok v, st) => (.ok [], { st with vars := st.vars.set x v })
    | (.error c, st) => (.error c, st)
  | .branch _ e yes no =>
    match st.value e with
    | (.ok v, st) => (.ok (if v = 0 then no else yes), st)
    | (.error c, st) => (.error c, st)
  | .loop id e body =>
    match st.value e with
    | (.ok v, st) => (.ok (if v = 0 then [] else body ++ [.loop id e body]), st)
    | (.error c, st) => (.error c, st)

/-- Count a step and execute a statement. -/
def step (limit : Option Nat) (s : Stmt) (st : State) : Except Cause (List Stmt) × State :=
  match st.tick limit with
  | (.ok (), st) => execute s st
  | (.error c, st) => (.error c, st)

/-- Work off statements. The result is what the accumulator ends up with. -/
def run (limit : Option Nat) :
    Nat → List Stmt → State → Option (Except Cause (Option Int64) × State)
  | _, [], st => some (.ok st.acc, st)
  | 0, _ :: _, _ => none
  | fuel + 1, s :: rest, st =>
    match step limit s st with
    | (.ok work, st) => run limit fuel (work ++ rest) st
    | (.error c, st) => some (.error c, st)

/-- The value of a program started with no variables. -/
def evaluate (fuel : Nat) (p : Program) : Option (Except Cause (Option Int64)) :=
  (run none fuel p .initial).map (·.1)

/-- An evaluator that keeps variables, accumulator and step count from one program to the next. -/
structure Session where
  limit : Option Nat
  state : State

namespace Session

def ofLimit (limit : Option Nat) : Session := ⟨limit, .initial⟩

def run (fuel : Nat) (s : Session) (p : Program) :
    Option (Except Cause (Option Int64) × Session) :=
  (Eval.run s.limit fuel p s.state).map fun r => (r.1, { s with state := r.2 })

def get? (s : Session) (x : String) : Option Int64 := s.state.vars.get? x

end Session

end Kennel.Eval
