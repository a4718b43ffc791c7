import Kennel.Proofs.Eval.Limit

/-!
# Bare names

A name to which nothing is assigned has no effect, wherever it stands. A program and the one without
its bare names (`Stmt.withoutBareAll`) have the same listing or the same fault, since a bare name is
lowered to nothing. They also run in the same way but for the count of steps, which matters under a
limit only (`step_recount`): a step of the one is a step of the other, or it executes a bare name
(`step_withoutBare`).
-/

namespace Kennel

open Lower (Emit generate)

mutual

/-- The statement without the bare names in its blocks; nothing if it is one itself. -/
def Stmt.withoutBare : Stmt → List Stmt
  | .assign x e => [.assign x e]
  | .branch id c yes no => [.branch id c (Stmt.withoutBareAll yes) (Stmt.withoutBareAll no)]
  | .loop id c body => [.loop id c (Stmt.withoutBareAll body)]
  | .bare _ => []

def Stmt.withoutBareAll : List Stmt → List Stmt
  | [] => []
  | s :: rest => s.withoutBare ++ Stmt.withoutBareAll rest

end

theorem Stmt.withoutBareAll_append (p q : List Stmt) :
    Stmt.withoutBareAll (p ++ q) = Stmt.withoutBareAll p ++ Stmt.withoutBareAll q := by
  induction p with
  | nil => rfl
  | cons s p ih => simp only [List.cons_append, Stmt.withoutBareAll, ih, List.append_assoc]

/-! ## Lowering -/

theorem Stmt.lowerAll_bare (x : String) (rest : List Stmt) :
    Stmt.lowerAll (.bare x :: rest) = Stmt.lowerAll rest := by
  funext s
  show Emit.bind (Stmt.lowerAll rest) (fun code => pure ([] ++ code)) s = Stmt.lowerAll rest s
  unfold Emit.bind
  obtain ⟨result, s'⟩ := Stmt.lowerAll rest s
  cases result <;> rfl

theorem Stmt.lowerAll_withoutBareAll (p : List Stmt) :
    Stmt.lowerAll (Stmt.withoutBareAll p) = Stmt.lowerAll p := by
  match p with
  | [] => rfl
  | .bare x :: rest =>
    rw [Stmt.lowerAll_bare, ← Stmt.lowerAll_withoutBareAll rest]
    rfl
  | .assign x e :: rest =>
    simp only [Stmt.withoutBareAll, Stmt.withoutBare, List.singleton_append, Stmt.lowerAll,
      Stmt.lowerAll_withoutBareAll rest]
  | .branch id c yes no :: rest =>
    simp only [Stmt.withoutBareAll, Stmt.withoutBare, List.singleton_append, Stmt.lowerAll,
      Stmt.lower, Stmt.lowerAll_withoutBareAll yes, Stmt.lowerAll_withoutBareAll no,
      Stmt.lowerAll_withoutBareAll rest]
  | .loop id c body :: rest =>
    simp only [Stmt.withoutBareAll, Stmt.withoutBare, List.singleton_append, Stmt.lowerAll,
      Stmt.lower, Stmt.lowerAll_withoutBareAll body, Stmt.lowerAll_withoutBareAll rest]

theorem Lower.generate_withoutBareAll (limit : Nat) (p : Program) :
    generate limit (Stmt.withoutBareAll p) = generate limit p := by
  unfold generate
  rw [Stmt.lowerAll_withoutBareAll]

/-! ## Steps -/

namespace Eval

/-- The same state with another count of steps. -/
def State.recount (st : State) (n : Nat) : State := { st with steps := n }

theorem State.value_recount (st : State) (n : Nat) (e : Expr) :
    (st.recount n).value e = ((st.value e).1, (st.value e).2.recount n) := by
  simp only [State.value, State.recount]
  cases e.eval st.vars <;> rfl

theorem execute_recount (s : Stmt) (st : State) (n : Nat) :
    execute s (st.recount n) = ((execute s st).1, (execute s st).2.recount n) := by
  cases s with
  | bare x => rfl
  | assign x e | branch id e yes no | loop id e body =>
    simp only [execute, st.value_recount]
    obtain ⟨result, st'⟩ := st.value e
    cases result <;> rfl

/-- Without a limit a step only adds to the count. -/
theorem step_recount (s : Stmt) (st : State) (n : Nat) :
    step none s (st.recount n) = ((step none s st).1, (step none s st).2.recount (n + 1)) := by
  show execute s (st.recount (n + 1)) = ((execute s (st.recount (st.steps + 1))).1,
    (execute s (st.recount (st.steps + 1))).2.recount (n + 1))
  rw [execute_recount s st, execute_recount s st]
  rfl

theorem execute_withoutBare {s s' : Stmt} (h : s.withoutBare = [s']) (st : State) :
    execute s' st = ((execute s st).1.map Stmt.withoutBareAll, (execute s st).2) := by
  cases s with
  | bare x => cases h
  | assign x e =>
    cases h
    simp only [execute]
    obtain ⟨result, st'⟩ := st.value e
    cases result <;> rfl
  | branch id e yes no =>
    cases h
    simp only [execute]
    obtain ⟨result, st'⟩ := st.value e
    cases result with
    | error c => rfl
    | ok v => by_cases hv : v = 0 <;> simp [hv, Except.map]
  | loop id e body =>
    cases h
    simp only [execute]
    obtain ⟨result, st'⟩ := st.value e
    cases result with
    | error c => rfl
    | ok v =>
      by_cases hv : v = 0
      · simp [hv, Except.map, Stmt.withoutBareAll]
      · simp [hv, Except.map, Stmt.withoutBareAll_append, Stmt.withoutBareAll, Stmt.withoutBare]

/-- A statement other than a bare name takes the same step without the bare names in its blocks, and
what is left to be done is without them too. -/
theorem step_withoutBare {s s' : Stmt} (h : s.withoutBare = [s']) (st : State) (n : Nat) :
    step none s' (st.recount n) =
      ((step none s st).1.map Stmt.withoutBareAll, (step none s st).2.recount (n + 1)) := by
  have hstep : step none s' st =
      ((step none s st).1.map Stmt.withoutBareAll, (step none s st).2) :=
    execute_withoutBare h (st.recount (st.steps + 1))
  rw [step_recount, hstep]

theorem withoutBare_cases (s : Stmt) : (∃ x, s = .bare x) ∨ ∃ s', s.withoutBare = [s'] := by
  cases s with
  | bare x => exact .inl ⟨x, rfl⟩
  | assign | branch | loop => exact .inr ⟨_, rfl⟩

/-! ## Runs -/

section

variable {s : Stmt} {rest : List Stmt} {st st₁ st' : State}
  {result : Except Cause (Option Int64)}

theorem Ends.after_step {todo : List Stmt} (hstep : step none s st = (.ok todo, st₁))
    (h : Ends none (todo ++ rest) st₁ result st') : Ends none (s :: rest) st result st' := by
  obtain ⟨fuel, h⟩ := h
  exact ⟨fuel + 1, by simpa only [run, hstep] using h⟩

theorem ends_of_failure {c : Cause} (hstep : step none s st = (.error c, st₁)) :
    Ends none (s :: rest) st (.error c) st₁ :=
  ⟨1, by simp only [run, hstep]⟩

end

theorem ends_withoutBareAll {fuel : Nat} {work : List Stmt} {st st' : State}
    {result : Except Cause (Option Int64)} (h : run none fuel work st = some (result, st'))
    (n : Nat) :
    ∃ m, Ends none (Stmt.withoutBareAll work) (st.recount n) result (st'.recount m) := by
  fun_induction run none fuel work st generalizing n with
  | case1 fuel st =>
    cases h
    exact ⟨n, 0, rfl⟩
  | case2 => cases h
  | case3 fuel s rest st todo st₁ hstep ih =>
    rcases withoutBare_cases s with ⟨x, rfl⟩ | ⟨s', hs'⟩
    · cases hstep
      exact ih h n
    · obtain ⟨m, hends⟩ := ih h (n + 1)
      have hstep' := step_withoutBare hs' st n
      rw [hstep] at hstep'
      rw [Stmt.withoutBareAll_append] at hends
      refine ⟨m, ?_⟩
      rw [Stmt.withoutBareAll, hs']
      exact hends.after_step hstep'
  | case4 fuel s rest st c st₁ hstep =>
    rcases withoutBare_cases s with ⟨x, rfl⟩ | ⟨s', hs'⟩
    · cases hstep
    · cases h
      have hstep' := step_withoutBare hs' st n
      rw [hstep] at hstep'
      refine ⟨n + 1, ?_⟩
      rw [Stmt.withoutBareAll, hs']
      exact ends_of_failure hstep'

/-- The fuel pays for the steps of the run without bare names; the bare names that come before such
a step are executed on the way to it. -/
theorem ends_of_withoutBareAll (fuel : Nat) (work : List Stmt) {st st' : State}
    {result : Except Cause (Option Int64)}
    (h : run none fuel (Stmt.withoutBareAll work) st = some (result, st')) (n : Nat) :
    ∃ m, Ends none work (st.recount n) result (st'.recount m) := by
  match work with
  | [] =>
    cases fuel <;> cases h <;> exact ⟨n, 0, rfl⟩
  | s :: rest =>
    rcases withoutBare_cases s with ⟨x, rfl⟩ | ⟨s', hs'⟩
    · obtain ⟨m, hends⟩ := ends_of_withoutBareAll fuel rest h (n + 1)
      exact ⟨m, hends.after_step rfl⟩
    · rw [Stmt.withoutBareAll, hs'] at h
      cases fuel with
      | zero => cases h
      | succ fuel =>
        have hstep' : step none s' st = ((step none s st).1.map Stmt.withoutBareAll,
            (step none s st).2.recount (st.steps + 1)) := step_withoutBare hs' st st.steps
        have hcount := step_recount s st n
        rw [List.singleton_append, run, hstep'] at h
        obtain ⟨⟨outcome, st₁⟩, hs⟩ : ∃ r, step none s st = r := ⟨_, rfl⟩
        rw [hs] at h hcount
        cases outcome with
        | ok todo =>
          have h : run none fuel (Stmt.withoutBareAll (todo ++ rest)) (st₁.recount (st.steps + 1)) =
              some (result, st') := by
            rw [Stmt.withoutBareAll_append]
            exact h
          obtain ⟨m, hends⟩ := ends_of_withoutBareAll fuel (todo ++ rest) h (n + 1)
          exact ⟨m, hends.after_step hcount⟩
        | error c =>
          cases h
          exact ⟨n + 1, ends_of_failure hcount⟩
termination_by (fuel, work.length)

/-- Bare names have no effect: without them a program has the same listing or fault, and its run
from any state ends with the same result and the same variables, or does not end either. -/
theorem withoutBareAll_irrelevant (p : Program) :
    (∀ limit, generate limit (Stmt.withoutBareAll p) = generate limit p) ∧
    ∀ start : State,
      (∀ result vars,
        (∃ st, Ends none (Stmt.withoutBareAll p) start result st ∧ st.vars = vars) ↔
          ∃ st, Ends none p start result st ∧ st.vars = vars) ∧
      ((¬ ∃ result st, Ends none (Stmt.withoutBareAll p) start result st) ↔
        ¬ ∃ result st, Ends none p start result st) := by
  have hsame : ∀ (start : State) (result : Except Cause (Option Int64)) (vars : Store),
      (∃ st, Ends none (Stmt.withoutBareAll p) start result st ∧ st.vars = vars) ↔
        ∃ st, Ends none p start result st ∧ st.vars = vars := by
    intro start result vars
    constructor
    · rintro ⟨st, ⟨fuel, h⟩, rfl⟩
      obtain ⟨m, hends⟩ := ends_of_withoutBareAll fuel p h start.steps
      exact ⟨st.recount m, hends, rfl⟩
    · rintro ⟨st, ⟨fuel, h⟩, rfl⟩
      obtain ⟨m, hends⟩ := ends_withoutBareAll h start.steps
      exact ⟨st.recount m, hends, rfl⟩
  refine ⟨fun limit => Lower.generate_withoutBareAll limit p, fun start => ⟨hsame start, ?_⟩⟩
  apply not_congr
  constructor
  · rintro ⟨result, st, h⟩
    obtain ⟨st', h', -⟩ := (hsame start result st.vars).mp ⟨st, h, rfl⟩
    exact ⟨result, st', h'⟩
  · rintro ⟨result, st, h⟩
    obtain ⟨st', h', -⟩ := (hsame start result st.vars).mpr ⟨st, h, rfl⟩
    exact ⟨result, st', h'⟩

end Eval

end Kennel
