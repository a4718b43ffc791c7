import Kennel.Eval.Run
import Kennel.Proofs.Program

/-!
# Exact values of arithmetic

Operators on words wrap around after each operation. For addition, subtraction and multiplication
this comes to the same as to compute with integers of any size (`Expr.exact`) and to wrap around
once at the end: `Int64.ofInt` commutes with the three operators (`Op.apply_ofInt`) and so with
every expression made of them (`Expr.eval_eq_ofInt`). What a step in between loses comes back, if
the final value is small enough.
-/

namespace Kennel

open Eval

def Op.isArithmetic : Op → Bool
  | .add | .subtract | .multiply => true
  | .less | .greater => false

/-- No comparison stands in the expression. -/
def Expr.isArithmetic : Expr → Bool
  | .atom _ => true
  | .binary op l r => op.isArithmetic && l.isArithmetic && r.isArithmetic

/-- The value of the operator at two integers. -/
def Op.exact : Op → Int → Int → Int
  | .add, a, b => a + b
  | .subtract, a, b => a - b
  | .multiply, a, b => a * b
  | .less, a, b => if a < b then 1 else 0
  | .greater, a, b => if b < a then 1 else 0

/-- The value of an expression among all integers. -/
def Expr.exact (env : String → Int64) : Expr → Int
  | .atom (.literal n) => n.toInt
  | .atom (.name x) => (env x).toInt
  | .binary op l r => op.exact (l.exact env) (r.exact env)

theorem Op.apply_ofInt {op : Op} (h : op.isArithmetic) (a b : Int) :
    op.apply (Int64.ofInt a) (Int64.ofInt b) = Int64.ofInt (op.exact a b) := by
  cases op with
  | add => exact (Int64.ofInt_add a b).symm
  | subtract => exact (Int64.ofInt_sub a b).symm
  | multiply => exact (Int64.ofInt_mul a b).symm
  | less | greater => cases h

theorem Expr.eval_eq_ofInt {e : Expr} (he : e.isArithmetic) {env : String → Int64} {vars : Store}
    (hvars : ∀ x ∈ e.names, vars.get? x = some (env x)) :
    e.eval vars = .ok (Int64.ofInt (e.exact env)) := by
  induction e with
  | atom a =>
    cases a with
    | literal n => simp only [Expr.eval, Atom.eval, Expr.exact, Int64.ofInt_toInt]
    | name x =>
      have hx : vars.get? x = some (env x) := hvars x (List.mem_singleton.mpr rfl)
      simp only [Expr.eval, Atom.eval, hx, Expr.exact, Int64.ofInt_toInt]
  | binary op l r ihl ihr =>
    simp only [Expr.isArithmetic, Bool.and_eq_true] at he
    obtain ⟨⟨hop, hl⟩, hr⟩ := he
    rw [Expr.names_binary, List.forall_mem_append] at hvars
    simp only [Expr.eval, ihl hl hvars.1, ihr hr hvars.2, Op.apply_ofInt hop, Expr.exact]

/-- The word of an integer is the one integer of 64 bits that differs from it by a multiple of
2⁶⁴. -/
theorem toInt_ofInt_eq_iff {n z : Int} :
    (Int64.ofInt n).toInt = z ↔ Int64.minValue.toInt ≤ z ∧ z ≤ Int64.maxValue.toInt ∧
      (Int64.size : Int) ∣ z - n := by
  have hmin : Int64.minValue.toInt = -((Int64.size : Int) / 2) := rfl
  have hmax : z ≤ Int64.maxValue.toInt ↔ z < ((Int64.size : Int) + 1) / 2 := by
    show z ≤ 9223372036854775807 ↔ z < 9223372036854775808
    omega
  rw [Int64.toInt_ofInt, Int.bmod_eq_iff (by decide), hmin, hmax]

namespace Eval

/-- An expression without comparisons has the value of its exact one reduced modulo 2⁶⁴ into the
range of signed words, and the exact one itself if that is in this range. -/
theorem value_arithmetic {e : Expr} (he : e.isArithmetic) (env : String → Int64) {st : State}
    (hst : ∀ x ∈ e.names, st.vars.get? x = some (env x)) :
    ∃ v : Int64, st.value e = (.ok v, { st with acc := some v }) ∧
      (∀ z : Int, v.toInt = z ↔ Int64.minValue.toInt ≤ z ∧ z ≤ Int64.maxValue.toInt ∧
        (Int64.size : Int) ∣ z - e.exact env) ∧
      (Int64.minValue.toInt ≤ e.exact env → e.exact env ≤ Int64.maxValue.toInt →
        v.toInt = e.exact env) := by
  refine ⟨Int64.ofInt (e.exact env), ?_, fun z => toInt_ofInt_eq_iff, fun hmin hmax => ?_⟩
  · simp only [State.value, Expr.eval_eq_ofInt he hst]
  · refine toInt_ofInt_eq_iff.mpr ⟨hmin, hmax, ?_⟩
    rw [Int.sub_self]
    exact Int.dvd_zero _

/-- `x * -1 + -1` -/
def backInRange : Expr :=
  .binary .add (.binary .multiply (.atom (.name "x")) (.atom (.literal (-1))))
    (.atom (.literal (-1)))

/-- At the least word the product is 2⁶³, which is no word. -/
theorem value_backInRange :
    (∀ x ∈ backInRange.names, Store.get? x [("x", Int64.minValue)] = some Int64.minValue) ∧
    ∃ v : Int64,
      State.value ⟨[("x", Int64.minValue)], none, 0⟩ backInRange =
        (.ok v, ⟨[("x", Int64.minValue)], some v, 0⟩) ∧
      v.toInt = 9223372036854775807 := by
  have hnames : ∀ x ∈ backInRange.names,
      Store.get? x [("x", Int64.minValue)] = some Int64.minValue := by
    intro x hx
    obtain rfl : x = "x" := List.mem_singleton.mp hx
    rfl
  obtain ⟨v, hv, -, hexact⟩ := @value_arithmetic backInRange rfl (fun _ => Int64.minValue)
    ⟨[("x", Int64.minValue)], none, 0⟩ hnames
  exact ⟨hnames, v, hv, hexact (by decide) (by decide)⟩

end Eval

end Kennel
