/-!
# Faults

A fault is a cause together with what was being done when it arose.
-/

namespace Kennel

structure Fault (κ : Type) where
  cause : κ
  /-- What was being done, innermost first. -/
  contexts : List String
  deriving DecidableEq

namespace Fault

variable {κ μ : Type}

def of (cause : κ) : Fault κ := ⟨cause, []⟩

/-- The same fault, seen from one context further out. -/
def within (f : Fault κ) (context : String) : Fault κ := ⟨f.cause, f.contexts ++ [context]⟩

def map (g : κ → μ) (f : Fault κ) : Fault μ := ⟨g f.cause, f.contexts⟩

/-- The text of the cause, then a line for each context. -/
def message (describe : κ → String) (f : Fault κ) : String :=
  f.contexts.foldl (fun text context => text ++ "\nwhile " ++ context) (describe f.cause)

end Fault

end Kennel
