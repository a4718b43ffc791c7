/-!
# Assembly items

The part of x86-64 assembly that listings use. A listing is a list of items, one for each line.
-/

namespace Kennel.Asm

inductive Register
  | rax
  | al
  | rbp
  | rsp
  | rcx
  | rsi
  | rdi
  | r8
  | r9
  | r10
  | r11
  | r12
  deriving DecidableEq

inductive Operand
  | reg (r : Register)
  | imm (value : Int)
  /-- The word at `offset` bytes from the address in `base`. -/
  | mem (base : Register) (offset : Int)
  deriving DecidableEq

/-- The outcome of a comparison that an instruction depends on. -/
inductive Condition
  | equal
  | less
  | greater
  deriving DecidableEq

/-- What a label of a branch or a loop marks. -/
inductive Mark
  | otherwise
  | endBranch
  | loop
  | endLoop
  deriving DecidableEq

inductive Label
  | symbol (name : String)
  /-- A label of the branch or loop with the number `id`. -/
  | numbered (mark : Mark) (id : Nat)
  deriving DecidableEq

inductive Instr
  | ret
  | push (r : Register)
  | pop (r : Register)
  | mov (source target : Operand)
  | xchg (lhs rhs : Register)
  | add (source : Operand) (target : Register)
  | sub (source : Operand) (target : Register)
  | imul (source : Operand) (target : Register)
  | cmp (source : Operand) (target : Register)
  | set (condition : Condition) (target : Register)
  | movzb (source target : Register)
  | jump (condition : Option Condition) (label : Label)
  | call (symbol : String)
  deriving DecidableEq

inductive Item
  | text
  | global (name : String)
  | label (l : Label)
  | instr (i : Instr)
  deriving DecidableEq

abbrev Listing := List Item

end Kennel.Asm
