import Kennel.Fault
import Kennel.Keyword
import Kennel.Text.Outline
import Kennel.Text.Quoted

/-!
# Why a word list is not a program
-/

namespace Kennel.Reading

open Text

inductive Cause
  /-- The words end inside a construct. -/
  | exhausted
  /-- An assignment sign without a bare name before it. -/
  | malformedAssignment (found : String)
  /-- An operand was due and none came. -/
  | missingOperand (wanted : String)
  /-- An operator where a statement should begin. -/
  | unexpectedToken (found : String)
  /-- A terminator outside every block. -/
  | unbalanced (keyword : Keyword)
  /-- A literal of more than 63 bits. -/
  | outOfRange (literal : String)
  deriving DecidableEq

abbrev Fault := Kennel.Fault Cause

namespace Cause

def name : Cause → String
  | .exhausted => "ExhaustedInput"
  | .malformedAssignment _ => "MalformedAssignment"
  | .missingOperand _ => "MissingOperand"
  | .unexpectedToken _ => "UnexpectedToken"
  | .unbalanced _ => "UnbalancedTerminator"
  | .outOfRange _ => "IntegerOutOfRange"

def message : Cause → String
  | .exhausted => "unexpected end of input"
  | .malformedAssignment found =>
    "assignment needs a variable name right before it, found " ++ found
  | .missingOperand wanted => "expected " ++ wanted ++ ", but found nothing"
  | .unexpectedToken found => "unexpected " ++ quote found ++ " at the start of a statement"
  | .unbalanced keyword => keyword.describe ++ " without an open block"
  | .outOfRange literal => "integer literal " ++ literal ++ " does not fit in 64 bits"

def outline (c : Cause) : Outline :=
  match c with
  | .exhausted => .leaf c.name
  | .malformedAssignment found | .unexpectedToken found =>
    .group c.name .curly [.field "found" (.leaf (quote found))]
  | .missingOperand wanted => .group c.name .curly [.field "wanted" (.leaf (quote wanted))]
  | .unbalanced keyword => .group c.name .round [.leaf keyword.name]
  | .outOfRange literal => .group c.name .round [.leaf (quote literal)]

end Cause

def Fault.outline (f : Fault) : Outline :=
  .group "Error" .curly
    [.field "kind" f.cause.outline,
     .field "contexts" (.group "" .square (f.contexts.map fun c => .leaf (quote c)))]

end Kennel.Reading
