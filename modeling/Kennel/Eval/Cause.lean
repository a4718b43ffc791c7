import Kennel.Text.Decimal
import Kennel.Text.Quoted

/-!
# Why a run stops early
-/

namespace Kennel.Eval

inductive Cause
  /-- A variable is read that has no value. -/
  | unassigned (name : String)
  /-- More steps than allowed. -/
  | stepLimit (limit : Nat)
  deriving DecidableEq

namespace Cause

def name : Cause → String
  | .unassigned _ => "UnassignedVariable"
  | .stepLimit _ => "StepLimitExceeded"

def message : Cause → String
  | .unassigned x =>
    "variable " ++ Text.quote x ++ " is read before anything is assigned to it"
  | .stepLimit n => "program did not finish within " ++ Text.numeral n ++ " steps"

end Cause

end Kennel.Eval
