import Kennel.Eval.Run
import Kennel.Proofs.Renaming.Basic
import Mathlib.Logic.Function.Basic

/-!
# Runs and renaming

Under an injective renaming a run takes the renamed steps: it has the same value, runs out of fuel
or steps at the same point, or fails for want of the renamed variable (`run_rename`). The one thing
a run does with names is to look them up, and a renamed store gives what the store gives
(`Store.get?_rename`, `Store.set_rename`).
-/

namespace Kennel

open Eval

namespace Eval

def Cause.rename (r : String → String) : Cause → Cause
  | .unassigned x => .unassigned (r x)
  | .stepLimit n => .stepLimit n

/-! ## Stores -/

namespace Store

def rename (r : String → String) (m : Store) : Store := m.map fun p => (r p.1, p.2)

variable {r : String → String} (hr : Function.Injective r)

include hr

theorem get?_rename (m : Store) (x : String) : (m.rename r).get? (r x) = m.get? x := by
  induction m with
  | nil => rfl
  | cons p m ih =>
    obtain ⟨y, v⟩ := p
    change (if r x = r y then some v else (rename r m).get? (r x)) = _
    simp only [ih, get?, hr.eq_iff]

theorem set_rename (m : Store) (x : String) (v : Int64) :
    (m.rename r).set (r x) v = (m.set x v).rename r := by
  induction m with
  | nil => rfl
  | cons p m ih =>
    obtain ⟨y, w⟩ := p
    change (if r x = r y then (r x, v) :: rename r m else (r y, w) :: (rename r m).set (r x) v) = _
    simp only [ih, set, hr.eq_iff]
    split <;> rfl

end Store

end Eval

/-! ## Expressions -/

section

variable {r : String → String} (hr : Function.Injective r)

include hr

theorem Atom.eval_rename (vars : Store) (a : Atom) :
    (a.rename r).eval (vars.rename r) = (a.eval vars).mapError (Cause.rename r) := by
  cases a with
  | literal n => rfl
  | name x =>
    rw [Atom.rename, Atom.eval, Atom.eval, Store.get?_rename hr]
    cases vars.get? x <;> rfl

theorem Expr.eval_rename (vars : Store) (e : Expr) :
    (e.rename r).eval (vars.rename r) = (e.eval vars).mapError (Cause.rename r) := by
  induction e with
  | atom a => exact a.eval_rename hr vars
  | binary op lhs rhs ihl ihr =>
    rw [Expr.rename, Expr.eval, Expr.eval, ihl, ihr]
    cases lhs.eval vars with
    | error c => rfl
    | ok a => cases rhs.eval vars <;> rfl

theorem Expr.residue_rename (vars : Store) (e : Expr) :
    ∀ acc, (e.rename r).residue (vars.rename r) acc = e.residue vars acc := by
  induction e with
  | atom a =>
    intro acc
    rw [Expr.rename, Expr.residue, Expr.residue, a.eval_rename hr]
    cases a.eval vars <;> rfl
  | binary op lhs rhs ihl ihr =>
    intro acc
    rw [Expr.rename, Expr.residue, Expr.residue, lhs.eval_rename hr, rhs.eval_rename hr]
    cases lhs.eval vars with
    | error c => exact ihl acc
    | ok a =>
      cases rhs.eval vars with
      | error c => exact ihr (some a)
      | ok b => rfl

end

namespace Eval

/-! ## Steps -/

def State.rename (r : String → String) (st : State) : State := ⟨st.vars.rename r, st.acc, st.steps⟩

/-- A result and the state it leaves, renamed; `φ` renames what the result holds. -/
def renameResult {α β : Type} (r : String → String) (φ : α → β) :
    Except Cause α × State → Except Cause β × State
  | (.ok a, st) => (.ok (φ a), st.rename r)
  | (.error c, st) => (.error (c.rename r), st.rename r)

theorem State.tick_rename (r : String → String) (limit : Option Nat) (st : State) :
    (st.rename r).tick limit = renameResult r id (st.tick limit) := by
  cases limit with
  | none => rfl
  | some n =>
    by_cases h : n < st.steps + 1
    · simp [tick, rename, renameResult, Cause.rename, h]
    · simp [tick, rename, renameResult, h]

variable {r : String → String} (hr : Function.Injective r)

include hr

theorem State.value_rename (st : State) (e : Expr) :
    (st.rename r).value (e.rename r) = renameResult r id (st.value e) := by
  simp only [State.value, State.rename, e.eval_rename hr, e.residue_rename hr]
  cases e.eval st.vars <;> rfl

theorem execute_rename (s : Stmt) (st : State) :
    execute (s.rename r) (st.rename r) = renameResult r (Stmt.renameAll r) (execute s st) := by
  cases s with
  | bare x => rfl
  | assign x e =>
    rw [Stmt.rename, execute, execute, st.value_rename hr]
    match st.value e with
    | (.ok v, t) =>
      exact congrArg (fun vars => (Except.ok [], (⟨vars, t.acc, t.steps⟩ : State)))
        (Store.set_rename hr t.vars x v)
    | (.error c, t) => rfl
  | branch id e yes no =>
    rw [Stmt.rename, execute, execute, st.value_rename hr]
    match st.value e with
    | (.ok v, t) => by_cases hv : v = 0 <;> simp [renameResult, hv]
    | (.error c, t) => rfl
  | loop id e body =>
    rw [Stmt.rename, execute, execute, st.value_rename hr]
    match st.value e with
    | (.ok v, t) =>
      by_cases hv : v = 0 <;> simp [renameResult, Stmt.renameAll, Stmt.rename, hv]
    | (.error c, t) => rfl

theorem step_rename (limit : Option Nat) (s : Stmt) (st : State) :
    step limit (s.rename r) (st.rename r) =
      renameResult r (Stmt.renameAll r) (step limit s st) := by
  rw [step, step, st.tick_rename]
  match st.tick limit with
  | (.ok (), st') => exact execute_rename hr s st'
  | (.error c, st') => rfl

/-! ## Runs -/

theorem run_rename (limit : Option Nat) (fuel : Nat) (work : List Stmt) (st : State) :
    run limit fuel (Stmt.renameAll r work) (st.rename r) =
      (run limit fuel work st).map (renameResult r id) := by
  fun_induction run limit fuel work st with
  | case1 fuel st => cases fuel <;> rfl
  | case2 s rest st => rfl
  | case3 fuel s rest st work st' hstep ih =>
    simp only [Stmt.renameAll, run, step_rename hr, hstep]
    rw [Stmt.renameAll_append] at ih
    exact ih
  | case4 fuel s rest st c st' hstep =>
    simp only [Stmt.renameAll, run, step_rename hr, hstep]
    rfl

end Eval

end Kennel
