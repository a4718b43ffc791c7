import Kennel.Asm.Basic

/-!
# Stack frames

Every variable lives in an eight-byte slot below the frame pointer, from its first assignment to
the end of the program. A frame also knows the names that are assigned on every path to the present
point; only those may be read.
-/

namespace Kennel.Lower

open Asm

structure Frame where
  /-- The variables that have a slot, in the order of the slots. -/
  slots : List String
  /-- The variables that may be read, without repetition. -/
  assigned : List String
  deriving DecidableEq

/-- The slot with the index `i`. -/
def slot (i : Nat) : Operand := .mem .rbp (-(8 * (i + 1)))

namespace Frame

def empty : Frame := ⟨[], []⟩

/-- The slot of a variable that may be read. -/
def read? (f : Frame) (x : String) : Option Operand :=
  if x ∈ f.slots ∧ x ∈ f.assigned then some (slot (f.slots.idxOf x)) else none

/-- The slots with one for `x`. -/
def slotsWith (f : Frame) (x : String) : List String :=
  if x ∈ f.slots then f.slots else f.slots ++ [x]

/-- The slot of a variable that is written, which may be read from now on. -/
def assign (f : Frame) (x : String) : Operand × Frame :=
  (slot ((f.slotsWith x).idxOf x),
    ⟨f.slotsWith x, if x ∈ f.assigned then f.assigned else f.assigned ++ [x]⟩)

/-- Make `names` the variables that may be read. -/
def withAssigned (f : Frame) (names : List String) : Frame := { f with assigned := names }

/-- Keep only the variables that may be read at the end of the other path too. -/
def meet (f : Frame) (names : List String) : Frame :=
  { f with assigned := f.assigned.filter (· ∈ names) }

/-- The bytes of the frame, a multiple of 16. -/
def size (f : Frame) : Nat := (8 * f.slots.length + 15) / 16 * 16

/-- Reserve the frame in front of the code that uses it. -/
def reserve (f : Frame) (code : Listing) : Listing :=
  if f.size = 0 then code
  else .instr (.sub (.imm f.size) .rsp) :: code

end Frame

end Kennel.Lower
