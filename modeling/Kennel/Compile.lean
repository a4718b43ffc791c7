import Kennel.Lower.Program
import Kennel.Reading.Reader

/-!
# From source text to listing
-/

namespace Kennel

/-- A fault of either stage. -/
inductive CompileFault
  | reading (f : Reading.Fault)
  | lowering (f : Lower.Fault)
  deriving DecidableEq

namespace CompileFault

/-- The causes and contexts, without the stage. -/
def detail : CompileFault → String
  | .reading f => f.message Reading.Cause.message
  | .lowering f => f.message Lower.Cause.message

/-- The detail, behind the name of the stage. -/
def message (f : CompileFault) : String :=
  match f with
  | .reading _ => "parse error: " ++ f.detail
  | .lowering _ => "codegen error: " ++ f.detail

/-- The bare cause. -/
def causeMessage : CompileFault → String
  | .reading f => f.cause.message
  | .lowering f => f.cause.message

/-- Each message with the one it wraps after it. -/
def chain (f : CompileFault) : List String := [f.message, f.detail, f.causeMessage]

end CompileFault

/-- Compile a source text with the first `limit` scratch registers. -/
def compileWith (limit : Nat) (source : String) : Except CompileFault Asm.Listing :=
  match Reading.parse source with
  | .error f => .error (.reading f)
  | .ok p =>
    match Lower.generate limit p with
    | .error f => .error (.lowering f)
    | .ok code => .ok code

/-- Compile a source text with every scratch register. -/
def compile (source : String) : Except CompileFault Asm.Listing :=
  compileWith Lower.scratchRegisters.length source

end Kennel
