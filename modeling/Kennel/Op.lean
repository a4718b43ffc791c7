/-!
# Binary operators

Arithmetic is on signed 64-bit words and wraps around; comparisons give 1 or 0.
-/

namespace Kennel

inductive Op
  | add
  | subtract
  | multiply
  | less
  | greater
  deriving DecidableEq

namespace Op

/-- How tightly the operator binds: the lower, the tighter. -/
def priority : Op → Nat
  | .multiply => 1
  | .add | .subtract => 2
  | .less | .greater => 3

/-- The sign that stands between two operands in infix text. -/
def sign : Op → String
  | .add => "+"
  | .subtract => "-"
  | .multiply => "*"
  | .less => "<"
  | .greater => ">"

def name : Op → String
  | .add => "Add"
  | .subtract => "Subtract"
  | .multiply => "Multiply"
  | .less => "Less"
  | .greater => "Greater"

/-- The value of the operator at two words. -/
def apply : Op → Int64 → Int64 → Int64
  | .add, a, b => a + b
  | .subtract, a, b => a - b
  | .multiply, a, b => a * b
  | .less, a, b => if a < b then 1 else 0
  | .greater, a, b => if b < a then 1 else 0

end Op

end Kennel
