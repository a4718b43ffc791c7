import Kennel.Expr.Basic
import Kennel.Lower.Basic

/-!
# Lowering of expressions

The value of every expression ends up in the accumulator. The left operand of an operation waits in
a scratch register while the right one is computed:

    <lhs to %rax>
    movq %rax, r
    <rhs to %rax>
    <r op %rax to %rax>
-/

namespace Kennel

open Asm Lower

namespace Lower

/-- The register in which every value is left. -/
def accumulator : Register := .rax

end Lower

def Atom.lower : Atom → Emit Listing
  | .literal n => pure [.instr (.mov (.imm n.toInt) (.reg accumulator))]
  | .name x => do
    let m ← readSlot x
    pure [.instr (.mov m (.reg accumulator))]

/-- A comparison of `lhs` with the accumulator, as 1 or 0. -/
def Lower.comparison (lhs : Register) (condition : Condition) : Listing :=
  [.instr (.cmp (.reg accumulator) lhs),
   .instr (.set condition .al),
   .instr (.movzb .al accumulator)]

/-- Combine the left operand in `lhs` with the right one in the accumulator. -/
def Op.lower (lhs : Register) : Op → Listing
  | .add => [.instr (.add (.reg lhs) accumulator)]
  | .subtract => [.instr (.xchg accumulator lhs), .instr (.sub (.reg lhs) accumulator)]
  | .multiply => [.instr (.imul (.reg lhs) accumulator)]
  | .less => comparison lhs .less
  | .greater => comparison lhs .greater

def Expr.lower : Expr → Emit Listing
  | .atom a => a.lower
  | .binary op l r => do
    let first ← l.lower
    let rest ← withScratch fun lhs => do
      let second ← r.lower
      pure (.instr (.mov (.reg accumulator) (.reg lhs)) :: second ++ op.lower lhs)
    pure (first ++ rest)

end Kennel
