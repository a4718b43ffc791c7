import Kennel.Asm.Basic
import Kennel.Text.Decimal

/-!
# The text of listings

In the order source, target; directives and instructions are set off by a tab.
-/

namespace Kennel.Asm

open Text

def Register.name : Register → String
  | .rax => "%rax"
  | .al => "%al"
  | .rbp => "%rbp"
  | .rsp => "%rsp"
  | .rcx => "%rcx"
  | .rsi => "%rsi"
  | .rdi => "%rdi"
  | .r8 => "%r8"
  | .r9 => "%r9"
  | .r10 => "%r10"
  | .r11 => "%r11"
  | .r12 => "%r12"

/-- An offset of zero is left out. -/
def Operand.render : Operand → String
  | .reg r => r.name
  | .imm n => "$" ++ signed n
  | .mem base offset =>
    (if offset = 0 then "" else signed offset) ++ "(" ++ base.name ++ ")"

def Condition.code : Condition → String
  | .equal => "e"
  | .less => "l"
  | .greater => "g"

def Mark.name : Mark → String
  | .otherwise => "else"
  | .endBranch => "endif"
  | .loop => "while"
  | .endLoop => "endwhile"

def Label.render : Label → String
  | .symbol name => name
  | .numbered mark id => ".L" ++ mark.name ++ numeral id

/-- A mnemonic and its two operands. -/
def instruction (mnemonic first second : String) : String :=
  mnemonic ++ " " ++ first ++ ", " ++ second

def Instr.render : Instr → String
  | .ret => "ret"
  | .push r => "pushq " ++ r.name
  | .pop r => "popq " ++ r.name
  | .mov source target => instruction "movq" source.render target.render
  | .xchg lhs rhs => instruction "xchgq" lhs.name rhs.name
  | .add source target => instruction "addq" source.render target.name
  | .sub source target => instruction "subq" source.render target.name
  | .imul source target => instruction "imulq" source.render target.name
  | .cmp source target => instruction "cmpq" source.render target.name
  | .set condition target => "set" ++ condition.code ++ " " ++ target.name
  | .movzb source target => instruction "movzbq" source.name target.name
  | .jump none label => "jmp " ++ label.render
  | .jump (some condition) label => "j" ++ condition.code ++ " " ++ label.render
  | .call symbol => "call " ++ symbol

def Item.render : Item → String
  | .text => "\t.text"
  | .global name => "\t.global " ++ name
  | .label l => l.render ++ ":"
  | .instr i => "\t" ++ i.render

/-- The lines of a listing. -/
def Listing.lines (l : Listing) : List String := l.map Item.render

/-- The lines with a line break between any two of them. -/
def Listing.render (l : Listing) : String := "\n".intercalate l.lines

end Kennel.Asm
