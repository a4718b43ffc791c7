import Kennel.Asm.Basic

/-!
# The pool of scratch registers

A scratch register holds the left operand of an operation while the right one is computed. The
registers are handed out in a fixed order, the first free one each time.
-/

namespace Kennel.Lower

open Asm

/-- The registers that may be handed out, in order. -/
def scratchRegisters : List Register := [.rcx, .rsi, .rdi, .r8, .r9, .r10, .r11, .r12]

/-- Each register of the pool, with whether it is in use. -/
structure Pool where
  entries : List (Register × Bool)
  deriving DecidableEq

namespace Pool

/-- The pool of the first `limit` registers, all of them free. -/
def ofLimit (limit : Nat) : Pool := ⟨(scratchRegisters.take limit).map (·, false)⟩

def size (p : Pool) : Nat := p.entries.length

/-- How many registers are free. -/
def available (p : Pool) : Nat := p.entries.countP fun e => !e.2

/-- The first free register, and the entries with it in use. -/
def acquireFrom : List (Register × Bool) → Option (Register × List (Register × Bool))
  | [] => none
  | (r, false) :: es => some (r, (r, true) :: es)
  | (r, true) :: es => (acquireFrom es).map fun (q, es') => (q, (r, true) :: es')

/-- The entries with `r` free again, if it was in use. -/
def releaseFrom (r : Register) : List (Register × Bool) → Option (List (Register × Bool))
  | [] => none
  | (q, used) :: es =>
    if q = r then
      if used then some ((q, false) :: es) else none
    else (releaseFrom r es).map ((q, used) :: ·)

/-- Hand out a register, unless all are in use. -/
def acquire? (p : Pool) : Option (Register × Pool) :=
  (acquireFrom p.entries).map fun (r, es) => (r, ⟨es⟩)

/-- Take a register back, unless it is not in use. -/
def release? (p : Pool) (r : Register) : Option Pool := (releaseFrom r p.entries).map (⟨·⟩)

end Pool

end Kennel.Lower
