import Kennel.Lower.Expr
import Kennel.Program.Basic

/-!
# Lowering of programs

Labels are named from the number of their branch or loop. After a branch the variables that may be
read are those that both paths assigned; after a loop, those from before it, since its body may not
have run at all. The listing is a routine `main` that hands the accumulator to `print`.
-/

namespace Kennel

open Asm Lower

/-- Jump to `target` if the condition is zero. -/
def Expr.lowerTest (cond : Expr) (target : Label) : Emit Listing := do
  let code ← cond.lower
  pure (code ++ [.instr (.cmp (.imm 0) accumulator), .instr (.jump (some .equal) target)])

mutual

def Stmt.lower : Stmt → Emit Listing
  | .assign x e => do
    let code ← .within "compiling assigned value" e.lower
    let m ← assignSlot x
    pure (code ++ [.instr (.mov (.reg accumulator) m)])
  | .branch id c yes no => do
    let test ← .within "compiling if statement's condition"
      (c.lowerTest (.numbered .otherwise id))
    let before ← assignedNames
    let first ← .within "compiling if statement's then branch" (Stmt.lowerAll yes)
    let after ← assignedNames
    modifyFrame (·.withAssigned before)
    let second ← .within "compiling if statement's else branch" (Stmt.lowerAll no)
    modifyFrame (·.meet after)
    pure (test ++ first ++
      [.instr (.jump none (.numbered .endBranch id)), .label (.numbered .otherwise id)] ++
      second ++ [.label (.numbered .endBranch id)])
  | .loop id c body => do
    let before ← assignedNames
    let test ← .within "compiling while loop's condition" (c.lowerTest (.numbered .endLoop id))
    let code ← .within "compiling while loop's body" (Stmt.lowerAll body)
    modifyFrame (·.withAssigned before)
    pure (.label (.numbered .loop id) :: test ++ code ++
      [.instr (.jump none (.numbered .loop id)), .label (.numbered .endLoop id)])
  | .bare _ => pure []

def Stmt.lowerAll : List Stmt → Emit Listing
  | [] => pure []
  | s :: rest => do
    let first ← s.lower
    let others ← Stmt.lowerAll rest
    pure (first ++ others)

end

namespace Lower

/-- The routine `main` around the code of a program. -/
def routine (frame : Frame) (code : Listing) : Listing :=
  [.text, .global "_main", .global "main", .label (.symbol "_main"), .label (.symbol "main"),
   .instr (.push .rbp), .instr (.mov (.reg .rsp) (.reg .rbp))] ++
  frame.reserve code ++
  [.instr (.mov (.reg accumulator) (.reg .rdi)), .instr (.call "print"),
   .instr (.mov (.reg .rbp) (.reg .rsp)), .instr (.pop .rbp), .instr .ret]

/-- The listing of a program that may use the first `limit` scratch registers. -/
def generate (limit : Nat) (p : Program) : Except Fault Listing :=
  match Stmt.lowerAll p (.ofLimit limit) with
  | (.ok code, s) => .ok (routine s.frame code)
  | (.error f, _) => .error f

end Lower

end Kennel
