import Kennel.Asm.Render
import Kennel.Fault
import Kennel.Text.Quoted

/-!
# Why a program has no listing
-/

namespace Kennel.Lower

inductive Cause
  /-- A variable is read where some path has not assigned it. -/
  | unassigned (name : String)
  /-- Every register of the pool is in use. -/
  | outOfRegisters (poolSize : Nat)
  /-- A register is returned that the pool has not handed out. -/
  | strayRelease (r : Asm.Register)
  deriving DecidableEq

abbrev Fault := Kennel.Fault Cause

namespace Cause

def name : Cause → String
  | .unassigned _ => "UseBeforeAssign"
  | .outOfRegisters _ => "RegisterExhaustion"
  | .strayRelease _ => "StrayRelease"

def message : Cause → String
  | .unassigned x =>
    "variable " ++ Text.quote x ++ " is read before anything is assigned to it"
  | .outOfRegisters n =>
    "expression needs more than the " ++ Text.numeral n ++ " available scratch registers"
  | .strayRelease r => "released " ++ r.name ++ " which was not handed out"

end Cause

end Kennel.Lower
