import Kennel.Asm.Render

/-!
# A machine for listings

`Cpu.exec?` executes one instruction that only moves or computes data, and `Setting.step` one item
of a listing. Both refuse (`none`) what no routine may do: to reach outside its frame, to read a
word that nothing was stored in, to jump to a label that does not exist, to call anything but
`print`, or that with a stack pointer that is not aligned or with an argument that is not the
accumulator, and to return with a stack pointer that is not back where it was.
-/

namespace Kennel.Machine

open Asm

structure Cpu where
  /-- The registers of 64 bits; `al` is the low byte of `rax` and has nothing here. -/
  regs : Register → Int64
  /-- The words that have been stored. -/
  mem : Int64 → Option Int64
  /-- Target and source of the latest comparison. -/
  flags : Int64 × Int64

/-- An integer as a word, unless it does not fit. -/
def word? (n : Int) : Option Int64 :=
  if Int64.minValue.toInt ≤ n ∧ n ≤ Int64.maxValue.toInt then some (Int64.ofInt n) else none

namespace Cpu

def get (c : Cpu) : Register → Int64
  | .al => c.regs .rax &&& 255
  | r => c.regs r

/-- Replace a register of 64 bits. -/
def put (c : Cpu) (r : Register) (v : Int64) : Cpu :=
  { c with regs := fun q => if q = r then v else c.regs q }

def set (c : Cpu) : Register → Int64 → Cpu
  | .al, v => c.put .rax ((c.regs .rax &&& ~~~255) ||| (v &&& 255))
  | r, v => c.put r v

/-- Replace the word at an address. -/
def write (c : Cpu) (a : Int64) (w : Option Int64) : Cpu :=
  { c with mem := fun b => if b = a then w else c.mem b }

/-- The address of a memory operand: not below the stack pointer, and below the end of the word
that it pointed to on entry. -/
def address? (entry : Int64) (c : Cpu) (base : Register) (offset : Int) : Option Int64 :=
  (word? ((c.get base).toInt + offset)).filter fun a =>
    (c.get .rsp).toInt ≤ a.toInt ∧ a.toInt < entry.toInt + 8

def load? (entry : Int64) (c : Cpu) : Operand → Option Int64
  | .reg r => some (c.get r)
  | .imm n => some (Int64.ofInt n)
  | .mem base offset => (c.address? entry base offset).bind c.mem

def store? (entry : Int64) (c : Cpu) (v : Int64) : Operand → Option Cpu
  | .reg r => some (c.set r v)
  | .imm _ => none
  | .mem base offset => (c.address? entry base offset).map fun a => c.write a (some v)

/-- Whether the latest comparison, of target with source, came out like this. -/
def holds (c : Cpu) : Condition → Bool
  | .equal => c.flags.1 = c.flags.2
  | .less => c.flags.1 < c.flags.2
  | .greater => c.flags.2 < c.flags.1

/-- Execute an instruction after which the next one follows. -/
def exec? (entry : Int64) (c : Cpu) : Instr → Option Cpu
  | .push r => (word? ((c.get .rsp).toInt - 8)).map fun sp =>
    (c.set .rsp sp).write sp (some (c.get r))
  | .pop r => (word? ((c.get .rsp).toInt + 8)).map fun sp =>
    ((c.set .rsp sp).write (c.get .rsp) none).set r ((c.mem (c.get .rsp)).getD 0)
  | .mov source target => (c.load? entry source).bind fun v => c.store? entry v target
  | .xchg lhs rhs => some ((c.set lhs (c.get rhs)).set rhs (c.get lhs))
  | .add source target => (c.load? entry source).map fun v => c.set target (c.get target + v)
  | .sub source target => (c.load? entry source).map fun v => c.set target (c.get target - v)
  | .imul source target => (c.load? entry source).map fun v => c.set target (c.get target * v)
  | .cmp source target => (c.load? entry source).map fun v => { c with flags := (c.get target, v) }
  | .set condition target => some (c.set target (if c.holds condition then 1 else 0))
  | .movzb source target => some (c.set target (c.get source &&& 255))
  | .ret | .jump .. | .call _ => none

/-- Execute instructions straight through. -/
def through? (entry : Int64) : Listing → Cpu → Option Cpu
  | [], c => some c
  | .instr i :: rest, c => (c.exec? entry i).bind (through? entry rest)
  | _ :: _, _ => none

end Cpu

/-- Whether an item is a label with this text. -/
def carries (name : String) : Item → Bool
  | .label l => l.render = name
  | _ => false

/-- The position of the last label with this text. -/
def labelAt? (name : String) : Listing → Option Nat
  | [] => none
  | item :: rest =>
    match labelAt? name rest with
    | some k => some (k + 1)
    | none => if carries name item then some 0 else none

/-- What stays the same while a listing is executed. -/
structure Setting where
  code : Listing
  /-- What a call of `print` does to the processor. -/
  print : Cpu → Cpu
  /-- The stack pointer on entry. -/
  entry : Int64

structure Config where
  cpu : Cpu
  pc : Nat
  /-- The processor at each call so far. -/
  calls : List Cpu

inductive Outcome
  | running (c : Config)
  | returned (c : Config)

namespace Setting

/-- Execute the item at the program counter. Whatever is not an instruction is passed over. -/
def step (m : Setting) (c : Config) : Option Outcome :=
  match m.code[c.pc]? with
  | none => none
  | some (.instr .ret) =>
    if c.cpu.get .rsp = m.entry then some (.returned { c with pc := c.pc + 1 }) else none
  | some (.instr (.jump condition l)) =>
    if condition.all c.cpu.holds then
      (labelAt? l.render m.code).map fun k => .running { c with pc := k }
    else some (.running { c with pc := c.pc + 1 })
  | some (.instr (.call symbol)) =>
    if symbol = "print" ∧ (c.cpu.get .rsp).toInt % 16 = 0 ∧ c.cpu.get .rdi = c.cpu.get .rax then
      some (.running ⟨m.print c.cpu, c.pc + 1, c.calls ++ [c.cpu]⟩)
    else none
  | some (.instr i) =>
    (c.cpu.exec? m.entry i).map fun cpu => .running ⟨cpu, c.pc + 1, c.calls⟩
  | some _ => some (.running { c with pc := c.pc + 1 })

/-- From the first configuration the machine gets to the second in this many steps. -/
inductive Steps (m : Setting) : Nat → Config → Config → Prop
  | refl (c : Config) : Steps m 0 c c
  | cons {n : Nat} {a b c : Config} : m.step a = some (.running b) → Steps m n b c →
      Steps m (n + 1) a c

/-- The machine gets to a return, which leaves the second configuration. -/
def Returns (m : Setting) (a c : Config) : Prop :=
  ∃ n b, m.Steps n a b ∧ m.step b = some (.returned c)

end Setting

/-! ## Registers and memory -/

theorem toInt_ofInt_of_fits {n : Int} (h : Int64.minValue.toInt ≤ n)
    (h' : n ≤ Int64.maxValue.toInt) : (Int64.ofInt n).toInt = n := by
  rw [Int64.toInt_minValue] at h
  rw [Int64.toInt_maxValue] at h'
  exact Int64.toInt_ofInt_of_le h (by omega)

theorem word?_eq_some {n : Int} {a : Int64} (h : word? n = some a) : a.toInt = n := by
  unfold word? at h
  split at h
  · next hn => cases h; exact toInt_ofInt_of_fits hn.1 hn.2
  · cases h

theorem word?_of_toInt (a : Int64) : word? a.toInt = some a := by
  rw [word?, if_pos ⟨a.minValue_le_toInt, a.toInt_le⟩, Int64.ofInt_toInt]

theorem exists_word? {n : Int} (h : Int64.minValue.toInt ≤ n) (h' : n ≤ Int64.maxValue.toInt) :
    ∃ a, word? n = some a ∧ a.toInt = n := by
  refine ⟨Int64.ofInt n, ?_, toInt_ofInt_of_fits h h'⟩
  rw [word?, if_pos ⟨h, h'⟩]

theorem toInt_sub_ofInt {a : Int64} {n : Int} (h : Int64.minValue.toInt ≤ a.toInt - n)
    (h' : a.toInt - n ≤ Int64.maxValue.toInt) : (a - Int64.ofInt n).toInt = a.toInt - n := by
  have hsub : a - Int64.ofInt n = Int64.ofInt (a.toInt - n) := by
    rw [Int64.ofInt_sub, Int64.ofInt_toInt]
  rw [hsub, toInt_ofInt_of_fits h h']

namespace Cpu

variable {entry : Int64} {c : Cpu} {r q : Register} {v : Int64}

@[simp] theorem mem_set (c : Cpu) (r : Register) (v : Int64) : (c.set r v).mem = c.mem := by
  cases r <;> rfl

@[simp] theorem get_write (c : Cpu) (a : Int64) (w : Option Int64) (r : Register) :
    (c.write a w).get r = c.get r := by
  cases r <;> rfl

theorem get_set_self (hr : r ≠ .al) : (c.set r v).get r = v := by
  cases r <;> first | exact absurd rfl hr | rfl

theorem get_set_ne (hr : r ≠ .al) (hq : q ≠ .al) (h : q ≠ r) :
    (c.set r v).get q = c.get q := by
  cases q <;> first | exact absurd rfl hq | skip
  all_goals cases r <;> first | exact absurd rfl hr | exact absurd rfl h | rfl

/-- Storing a byte and widening it again gives the byte. -/
theorem get_al_set_al (c : Cpu) (v : Int64) : (c.set .al v).get .al = v &&& 255 := by
  show ((c.regs .rax &&& ~~~255) ||| (v &&& 255)) &&& 255 = v &&& 255
  apply Int64.toBitVec_inj.mp
  simp only [Int64.toBitVec_and, Int64.toBitVec_or, Int64.toBitVec_not]
  apply BitVec.eq_of_getElem_eq
  intro i hi
  simp only [BitVec.getElem_and, BitVec.getElem_or, BitVec.getElem_not]
  cases (Int64.toBitVec 255)[i] <;> simp

theorem get_set_al (hq : q ≠ .al) (h : q ≠ .rax) : (c.set .al v).get q = c.get q :=
  get_set_ne (r := .rax) (by decide) hq h

end Cpu

end Kennel.Machine
