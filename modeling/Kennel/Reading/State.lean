import Kennel.Expr.Precedence
import Kennel.Program.Basic
import Kennel.Reading.Cause

/-!
# Reading words one by one

The state between two words: the constructs that are open, the statements of the innermost block,
and whether an expression is being read. `State.step` takes one word, `State.finish` the end of
the words. An expression ends at the first word that cannot continue it; that word then counts as
the next word of the block.
-/

namespace Kennel.Reading

/-- What the expression being read will be. -/
inductive Purpose
  | value (target : String)
  | branchTest (id : Nat)
  | loopTest (id : Nat)
  deriving DecidableEq

/-- An open construct whose condition has been read, as far as it has been read. -/
inductive Construct
  | thenBlock (id : Nat) (cond : Expr)
  | elseBlock (id : Nat) (cond : Expr) (yes : List Stmt)
  | loopBlock (id : Nat) (cond : Expr)

/-- An open construct and the statements that stand before it in its block, last first. -/
structure Level where
  before : List Stmt
  construct : Construct

/-- Where the next word stands. `front` holds the operands read so far, each with the operator
after it, last first. -/
inductive Phase
  | statement
  /-- An operand is due. -/
  | operand (purpose : Purpose) (front : List (Atom × Op))
  /-- The expression may end with `last` or go on with an operator. -/
  | operator (purpose : Purpose) (front : List (Atom × Op)) (last : Atom)
  deriving DecidableEq

structure State where
  /-- The open constructs, innermost first. -/
  levels : List Level
  /-- The statements of the innermost block, last first. -/
  block : List Stmt
  phase : Phase
  /-- The number of the next branch or loop. It has no bound: that a machine word runs over after
  2⁶⁴ branches and loops is left out. -/
  nextId : Nat

/-- A fault at a word, which is taken or left. -/
structure Halt where
  fault : Fault
  taken : Bool
  deriving DecidableEq

/-- The largest literal, 2⁶³ - 1. -/
def maxLiteral : Nat := 9223372036854775807

def Purpose.context : Purpose → String
  | .value _ => "parsing assigned value"
  | .branchTest _ => "parsing if statement's condition"
  | .loopTest _ => "parsing while loop's condition"

def Purpose.wanted : Purpose → String
  | .value _ => "a value to assign"
  | .branchTest _ | .loopTest _ => "a condition"

def Construct.context : Construct → String
  | .thenBlock .. => "parsing if statement's then branch"
  | .elseBlock .. => "parsing if statement's else branch"
  | .loopBlock .. => "parsing while loop's body"

def Phase.contexts : Phase → List String
  | .statement => []
  | .operand p _ | .operator p _ _ => [p.context]

namespace State

def start (nextId : Nat) : State := ⟨[], [], .statement, nextId⟩

/-- What is being read, innermost first. -/
def contexts (s : State) : List String :=
  s.phase.contexts ++ s.levels.map (·.construct.context) ++ ["parsing program"]

def fault (s : State) (cause : Cause) : Fault := ⟨cause, s.contexts⟩

/-- Fail and take the word. -/
def reject (s : State) (cause : Cause) : Except Halt State := .error ⟨s.fault cause, true⟩

/-- Fail and leave the word. -/
def refuse (s : State) (cause : Cause) : Except Halt State := .error ⟨s.fault cause, false⟩

/-- Put a finished expression to its purpose. -/
def close (s : State) (e : Expr) : Purpose → State
  | .value x => { s with block := .assign x e :: s.block, phase := .statement }
  | .branchTest id =>
    { s with levels := ⟨s.block, .thenBlock id e⟩ :: s.levels, block := [], phase := .statement }
  | .loopTest id =>
    { s with levels := ⟨s.block, .loopBlock id e⟩ :: s.levels, block := [], phase := .statement }

/-- Begin the value of an assignment to the bare name that ends the block. -/
def assign (s : State) : Except Halt State :=
  match s.block with
  | .bare x :: rest => .ok { s with block := rest, phase := .operand (.value x) [] }
  | [] => s.reject (.malformedAssignment "nothing")
  | .assign .. :: _ => s.reject (.malformedAssignment "another assignment")
  | .branch .. :: _ => s.reject (.malformedAssignment "an if statement")
  | .loop .. :: _ => s.reject (.malformedAssignment "a while loop")

/-- Close the innermost block. A branch goes on with its other block, which is read in any case. -/
def terminate (s : State) (k : Keyword) : Except Halt State :=
  match s.levels with
  | [] => s.reject (.unbalanced k)
  | ⟨before, .thenBlock id c⟩ :: outer =>
    .ok { s with levels := ⟨before, .elseBlock id c s.block.reverse⟩ :: outer, block := [] }
  | ⟨before, .elseBlock id c yes⟩ :: outer =>
    .ok { s with levels := outer, block := .branch id c yes s.block.reverse :: before }
  | ⟨before, .loopBlock id c⟩ :: outer =>
    .ok { s with levels := outer, block := .loop id c s.block.reverse :: before }

/-- Take a word where a statement may begin. -/
def inBlock (s : State) (w : String) : Except Halt State :=
  match classify w with
  | .integer | .plain => .ok { s with block := .bare w :: s.block }
  | .keyword .assign => s.assign
  | .keyword .branch =>
    .ok { s with phase := .operand (.branchTest s.nextId) [], nextId := s.nextId + 1 }
  | .keyword .loop =>
    .ok { s with phase := .operand (.loopTest s.nextId) [], nextId := s.nextId + 1 }
  | .keyword .thenMark | .keyword .doMark => .ok s
  | .keyword .otherwise => s.terminate .otherwise
  | .keyword .close => s.terminate .close
  | .keyword (.op _) => s.reject (.unexpectedToken w)

/-- Take a word where an operand is due. -/
def inOperand (s : State) (p : Purpose) (front : List (Atom × Op)) (w : String) :
    Except Halt State :=
  match classify w with
  | .plain => .ok { s with phase := .operator p front (.name w) }
  | .integer =>
    let n := Text.digitsValue w.toList
    if n ≤ maxLiteral then
      .ok { s with phase := .operator p front (.literal (Int64.ofNat n)) }
    else s.reject (.outOfRange w)
  | .keyword (.op _) => s.reject (.missingOperand "a left operand")
  | .keyword _ =>
    s.refuse (.missingOperand (if front.isEmpty then p.wanted else "a right operand"))

/-- Take one word. -/
def step (s : State) (w : String) : Except Halt State :=
  match s.phase with
  | .statement => s.inBlock w
  | .operand p front => s.inOperand p front w
  | .operator p front last =>
    match classify w with
    | .keyword (.op o) => .ok { s with phase := .operand p ((last, o) :: front) }
    | _ => (s.close (.ofChain front.reverse last) p).inBlock w

/-- The program, when the words end between two statements. -/
def program (s : State) : Except Fault Program :=
  match s.phase, s.levels with
  | .statement, [] => .ok s.block.reverse
  | _, _ => .error (s.fault .exhausted)

/-- What has been read when the words end. -/
def finish (s : State) : Except Fault Program :=
  match s.phase with
  | .operator p front last => (s.close (.ofChain front.reverse last) p).program
  | _ => s.program

end State

end Kennel.Reading
