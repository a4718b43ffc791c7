import Kennel.Proofs.Eval.Paths

/-!
# Limits on the number of steps

A limit cuts a run off where its count of steps exceeds it, and changes nothing before: while the
count is below the limit a step is the same with and without it (`step_of_lt`), and the step after
that fails (`step_of_le`). Every step counts, so a run with a limit always ends
(`limit_truncates`).

`Completes` executes programs from their blocks and counts the statements and the tests of loops
on the way. The steps of a run are what it counts (`completes_of_run`).
-/

namespace Kennel.Eval

/-- A run of the statements ends with this result, however much fuel that takes. -/
def Ends (limit : Option Nat) (work : List Stmt) (st : State)
    (result : Except Cause (Option Int64)) (st' : State) : Prop :=
  ∃ fuel, run limit fuel work st = some (result, st')

/-! ## Fuel -/

theorem run_of_le {limit : Option Nat} {fuel fuel' : Nat} {work : List Stmt} {st : State}
    {result : Except Cause (Option Int64) × State} (h : run limit fuel work st = some result)
    (hle : fuel ≤ fuel') : run limit fuel' work st = some result := by
  induction fuel generalizing fuel' work st with
  | zero =>
    cases work with
    | nil => simpa only [run] using h
    | cons s rest => cases h
  | succ fuel ih =>
    obtain ⟨k, rfl⟩ : ∃ k, fuel' = k + 1 := ⟨fuel' - 1, by omega⟩
    cases work with
    | nil => simpa only [run] using h
    | cons s rest =>
      rw [run] at h ⊢
      split at h
      · exact ih h (by omega)
      · exact h

theorem Ends.unique {limit : Option Nat} {work : List Stmt} {st st₁ st₂ : State}
    {result₁ result₂ : Except Cause (Option Int64)} (h₁ : Ends limit work st result₁ st₁)
    (h₂ : Ends limit work st result₂ st₂) : result₁ = result₂ ∧ st₁ = st₂ := by
  obtain ⟨fuel₁, h₁⟩ := h₁
  obtain ⟨fuel₂, h₂⟩ := h₂
  have h := (run_of_le h₁ (Nat.le_max_left fuel₁ fuel₂)).symm.trans
    (run_of_le h₂ (Nat.le_max_right fuel₁ fuel₂))
  cases h
  exact ⟨rfl, rfl⟩

/-! ## Steps and their count -/

theorem State.steps_of_value {st st' : State} {e : Expr} {result : Except Cause Int64}
    (h : st.value e = (result, st')) : st'.steps = st.steps := by
  unfold State.value at h
  split at h <;> cases h <;> rfl

theorem steps_execute (s : Stmt) (st : State) : (execute s st).2.steps = st.steps := by
  cases s with
  | bare x => rfl
  | assign x e | branch id e yes no | loop id e body =>
    simp only [execute]
    cases hv : st.value e with
    | mk result st' =>
      have hst := State.steps_of_value hv
      cases result <;> exact hst

theorem steps_step (limit : Option Nat) (s : Stmt) (st : State) :
    (step limit s st).2.steps = st.steps + 1 := by
  rcases st.tick_cases limit with ht | ⟨n, -, ht⟩
  · simp only [step, ht, steps_execute]
  · simp only [step, ht]

theorem steps_of_step {limit : Option Nat} {s : Stmt} {st st' : State}
    {result : Except Cause (List Stmt)} (h : step limit s st = (result, st')) :
    st'.steps = st.steps + 1 := by
  rw [← steps_step limit s st, h]

theorem steps_le_of_run {limit : Option Nat} {fuel : Nat} {work : List Stmt} {st st' : State}
    {result : Except Cause (Option Int64)} (h : run limit fuel work st = some (result, st')) :
    st.steps ≤ st'.steps := by
  fun_induction run limit fuel work st with
  | case1 fuel st => cases h; exact Nat.le_refl _
  | case2 => cases h
  | case3 fuel s rest st work st₁ hstep ih =>
    have := ih h
    have := steps_of_step hstep
    omega
  | case4 fuel s rest st c st₁ hstep =>
    cases h
    have := steps_of_step hstep
    omega

/-! ## Steps under a limit -/

section

variable {n : Nat} {st : State}

theorem step_of_lt (h : st.steps < n) (s : Stmt) : step (some n) s st = step none s st := by
  have ht : st.tick (some n) = st.tick none := by
    unfold State.tick
    exact if_neg (by show ¬ n < st.steps + 1; omega)
  simp only [step, ht]

theorem step_of_le (h : n ≤ st.steps) (s : Stmt) :
    step (some n) s st = (.error (.stepLimit n), { st with steps := st.steps + 1 }) := by
  have ht : st.tick (some n) = (.error (.stepLimit n), { st with steps := st.steps + 1 }) := by
    unfold State.tick
    exact if_pos (by show n < st.steps + 1; omega)
  simp only [step, ht]

end

/-- A run that takes no more steps than the limit is not affected by it. -/
theorem run_limit_of_le {n fuel : Nat} {work : List Stmt} {st st' : State}
    {result : Except Cause (Option Int64)} (h : run none fuel work st = some (result, st'))
    (hn : st'.steps ≤ n) : run (some n) fuel work st = some (result, st') := by
  induction fuel generalizing work st with
  | zero =>
    cases work with
    | nil => exact h
    | cons s rest => cases h
  | succ fuel ih =>
    cases work with
    | nil => exact h
    | cons s rest =>
      rw [run] at h
      split at h
      · next todo st₁ hstep =>
        have hcount := steps_of_step hstep
        have hle := steps_le_of_run h
        rw [run, step_of_lt (by omega), hstep]
        exact ih h
      · next c st₁ hstep =>
        have hcount := steps_of_step hstep
        obtain ⟨rfl, rfl⟩ := Prod.mk.inj (Option.some.inj h)
        rw [run, step_of_lt (by omega), hstep]

/-- A run that has not ended when the steps are used up is stopped by the next one. -/
theorem run_limit_of_lt {n fuel : Nat} {work : List Stmt} {st : State} (hst : st.steps ≤ n)
    (hfuel : n < st.steps + fuel)
    (h : ∀ result st', run none fuel work st = some (result, st') → n < st'.steps) :
    ∃ st', run (some n) fuel work st = some (.error (.stepLimit n), st') ∧
      st'.steps = n + 1 := by
  induction fuel generalizing work st with
  | zero => omega
  | succ fuel ih =>
    cases work with
    | nil =>
      have := h (.ok st.acc) st rfl
      omega
    | cons s rest =>
      rcases Nat.lt_or_ge st.steps n with hlt | hge
      · cases hstep : step none s st with
        | mk outcome st₁ =>
          have hcount := steps_of_step hstep
          cases outcome with
          | ok todo =>
            have hmore : ∀ result st', run none fuel (todo ++ rest) st₁ = some (result, st') →
                n < st'.steps :=
              fun result st' hr => h result st' (by simpa only [run, hstep] using hr)
            obtain ⟨st', hrun, hsteps⟩ := ih (by omega) (by omega) hmore
            exact ⟨st', by simpa only [run, step_of_lt hlt, hstep] using hrun, hsteps⟩
          | error c =>
            have := h (.error c) st₁ (by simp only [run, hstep])
            omega
      · refine ⟨{ st with steps := st.steps + 1 }, by simp only [run, step_of_le hge], ?_⟩
        show st.steps + 1 = n + 1
        omega

/-! ## Executed statements and tests -/

/-- Executing a program on variables leaves the second ones, and takes this many statements other
than loops and this many tests of loops. -/
inductive Completes : Store → List Stmt → Store → Nat → Nat → Prop
  | nil (vars : Store) : Completes vars [] vars 0 0
  | bare {vars vars' : Store} {x : String} {rest : List Stmt} {m n : Nat} :
      Completes vars rest vars' m n → Completes vars (.bare x :: rest) vars' (m + 1) n
  | assign {vars vars' : Store} {x : String} {e : Expr} {v : Int64} {rest : List Stmt}
      {m n : Nat} : e.eval vars = .ok v → Completes (vars.set x v) rest vars' m n →
      Completes vars (.assign x e :: rest) vars' (m + 1) n
  | branch {vars vars₁ vars' : Store} {id : Nat} {c : Expr} {v : Int64} {yes no rest : List Stmt}
      {m₁ n₁ m₂ n₂ : Nat} : c.eval vars = .ok v →
      Completes vars (if v = 0 then no else yes) vars₁ m₁ n₁ → Completes vars₁ rest vars' m₂ n₂ →
      Completes vars (.branch id c yes no :: rest) vars' (m₁ + m₂ + 1) (n₁ + n₂)
  | leave {vars vars' : Store} {id : Nat} {c : Expr} {body rest : List Stmt} {m n : Nat} :
      c.eval vars = .ok 0 → Completes vars rest vars' m n →
      Completes vars (.loop id c body :: rest) vars' m (n + 1)
  | again {vars vars₁ vars' : Store} {id : Nat} {c : Expr} {v : Int64} {body rest : List Stmt}
      {m₁ n₁ m₂ n₂ : Nat} : c.eval vars = .ok v → v ≠ 0 → Completes vars body vars₁ m₁ n₁ →
      Completes vars₁ (.loop id c body :: rest) vars' m₂ n₂ →
      Completes vars (.loop id c body :: rest) vars' (m₁ + m₂) (n₁ + n₂ + 1)

theorem Completes.unique {vars vars₁ vars₂ : Store} {p : List Stmt} {m₁ n₁ m₂ n₂ : Nat}
    (h : Completes vars p vars₁ m₁ n₁) (h' : Completes vars p vars₂ m₂ n₂) :
    vars₁ = vars₂ ∧ m₁ = m₂ ∧ n₁ = n₂ := by
  induction h generalizing vars₂ m₂ n₂ with
  | nil vars => cases h'; exact ⟨rfl, rfl, rfl⟩
  | bare _ ih =>
    cases h' with
    | bare h' =>
      obtain ⟨rfl, rfl, rfl⟩ := ih h'
      exact ⟨rfl, rfl, rfl⟩
  | assign he _ ih =>
    cases h' with
    | assign he' h' =>
      cases he.symm.trans he'
      obtain ⟨rfl, rfl, rfl⟩ := ih h'
      exact ⟨rfl, rfl, rfl⟩
  | branch he _ _ ih ihrest =>
    cases h' with
    | branch he' h' hrest' =>
      cases he.symm.trans he'
      obtain ⟨rfl, rfl, rfl⟩ := ih h'
      obtain ⟨rfl, rfl, rfl⟩ := ihrest hrest'
      exact ⟨rfl, rfl, rfl⟩
  | leave he _ ih =>
    cases h' with
    | leave _ h' =>
      obtain ⟨rfl, rfl, rfl⟩ := ih h'
      exact ⟨rfl, rfl, rfl⟩
    | again he' hv' _ _ =>
      cases he.symm.trans he'
      exact absurd rfl hv'
  | again he hv _ _ ih ihrest =>
    cases h' with
    | leave he' _ =>
      cases he.symm.trans he'
      exact absurd rfl hv
    | again he' _ h' hrest' =>
      obtain ⟨rfl, rfl, rfl⟩ := ih h'
      obtain ⟨rfl, rfl, rfl⟩ := ihrest hrest'
      exact ⟨rfl, rfl, rfl⟩

/-- Executing statements in two parts is executing the first part and then the second. -/
theorem Completes.unappend {vars vars' : Store} {p rest : List Stmt} {m n : Nat}
    (h : Completes vars (p ++ rest) vars' m n) :
    ∃ vars₁ m₁ n₁ m₂ n₂, Completes vars p vars₁ m₁ n₁ ∧ Completes vars₁ rest vars' m₂ n₂ ∧
      m = m₁ + m₂ ∧ n = n₁ + n₂ := by
  have hnone : ∀ {vars vars' : Store} {rest : List Stmt} {m n : Nat},
      Completes vars rest vars' m n → ∃ vars₁ m₁ n₁ m₂ n₂, Completes vars [] vars₁ m₁ n₁ ∧
        Completes vars₁ rest vars' m₂ n₂ ∧ m = m₁ + m₂ ∧ n = n₁ + n₂ :=
    fun {vars _ _ m n} h => ⟨vars, 0, 0, m, n, .nil vars, h, by omega, by omega⟩
  generalize hq : p ++ rest = q at h
  induction h generalizing p with
  | nil vars =>
    obtain ⟨rfl, rfl⟩ := List.append_eq_nil_iff.mp hq
    exact hnone (.nil vars)
  | bare h ih =>
    cases p with
    | nil => cases hq; exact hnone (.bare h)
    | cons s p =>
      cases hq
      obtain ⟨vars₁, m₁, n₁, m₂, n₂, h₁, h₂, rfl, rfl⟩ := ih rfl
      exact ⟨vars₁, m₁ + 1, n₁, m₂, n₂, .bare h₁, h₂, by omega, rfl⟩
  | assign he h ih =>
    cases p with
    | nil => cases hq; exact hnone (.assign he h)
    | cons s p =>
      cases hq
      obtain ⟨vars₁, m₁, n₁, m₂, n₂, h₁, h₂, rfl, rfl⟩ := ih rfl
      exact ⟨vars₁, m₁ + 1, n₁, m₂, n₂, .assign he h₁, h₂, by omega, rfl⟩
  | branch he hblock h _ ih =>
    cases p with
    | nil => cases hq; exact hnone (.branch he hblock h)
    | cons s p =>
      cases hq
      obtain ⟨vars₁, m₁, n₁, m₂, n₂, h₁, h₂, rfl, rfl⟩ := ih rfl
      exact ⟨vars₁, _, _, m₂, n₂, .branch he hblock h₁, h₂, by omega, by omega⟩
  | leave he h ih =>
    cases p with
    | nil => cases hq; exact hnone (.leave he h)
    | cons s p =>
      cases hq
      obtain ⟨vars₁, m₁, n₁, m₂, n₂, h₁, h₂, rfl, rfl⟩ := ih rfl
      exact ⟨vars₁, m₁, n₁ + 1, m₂, n₂, .leave he h₁, h₂, rfl, by omega⟩
  | again he hv hbody h _ ih =>
    cases p with
    | nil => cases hq; exact hnone (.again he hv hbody h)
    | cons s p =>
      cases hq
      obtain ⟨vars₁, m₁, n₁, m₂, n₂, h₁, h₂, rfl, rfl⟩ := ih (p := .loop _ _ _ :: p) rfl
      exact ⟨vars₁, _, _, m₂, n₂, .again he hv hbody h₁, h₂, by omega, by omega⟩

/-- A step is one statement other than a loop, or one test of a loop. -/
theorem Advances.completes {st st₁ : State} {s : Stmt} {todo rest : List Stmt} {vars' : Store}
    {m n : Nat} (h : Advances st s todo st₁) (hc : Completes st₁.vars (todo ++ rest) vars' m n) :
    ∃ m' n', Completes st.vars (s :: rest) vars' m' n' ∧ m' + n' = m + n + 1 := by
  cases h with
  | bare x => exact ⟨m + 1, n, .bare hc, by omega⟩
  | assign x he => exact ⟨m + 1, n, .assign he hc, by omega⟩
  | @test _ c v hs he =>
    cases s with
    | bare x => cases hs
    | assign x e => cases hs
    | branch id c yes no =>
      cases hs
      have hblock : (Stmt.branch id c yes no).followUp (v ≠ 0) = if v = 0 then no else yes := by
        by_cases hz : v = 0 <;> simp [Stmt.followUp, hz]
      rw [hblock] at hc
      obtain ⟨vars₁, m₁, n₁, m₂, n₂, h₁, h₂, rfl, rfl⟩ := hc.unappend
      exact ⟨m₁ + m₂ + 1, n₁ + n₂, .branch he h₁ h₂, by omega⟩
    | loop id c body =>
      cases hs
      by_cases hz : v = 0
      · subst hz
        exact ⟨m, n + 1, .leave he hc, by omega⟩
      · have hagain : (Stmt.loop id c body).followUp (v ≠ 0) = body ++ [.loop id c body] := by
          simp [Stmt.followUp, hz]
        rw [hagain, List.append_assoc] at hc
        obtain ⟨vars₁, m₁, n₁, m₂, n₂, h₁, h₂, rfl, rfl⟩ := hc.unappend
        exact ⟨m₁ + m₂, n₁ + n₂ + 1, .again he hz h₁ h₂, by omega⟩

/-- The steps of a run that completes are the executed statements other than loops and the tests
of loops. -/
theorem completes_of_run {fuel : Nat} {p : List Stmt} {st st' : State} {acc : Option Int64}
    (h : run none fuel p st = some (.ok acc, st')) :
    ∃ m n, Completes st.vars p st'.vars m n ∧ st'.steps = st.steps + (m + n) := by
  fun_induction run none fuel p st with
  | case1 fuel st => cases h; exact ⟨0, 0, .nil _, rfl⟩
  | case2 => cases h
  | case3 fuel s rest st todo st₁ hstep ih =>
    obtain ⟨m, n, hc, hsteps⟩ := ih h
    obtain ⟨m', n', hc', hsum⟩ := (advances_of_step hstep).completes hc
    have := steps_of_step hstep
    exact ⟨m', n', hc', by omega⟩
  | case4 => cases h

/-! ## Truncation -/

/-- A limit truncates the run of a program. With it the run always ends, and counts at most one
step more than it allows. If the run without it ends, it ends in the same way within as many steps
as that takes, and otherwise the limit stops it; it stops every run that does not end without it. A
run that completes has taken one step for each statement other than a loop and one for each test of
a loop. -/
theorem limit_truncates (p : Program) (limit : Nat) :
    (∃ result st, Ends (some limit) p .initial result st ∧ st.steps ≤ limit + 1) ∧
    (∀ result st, Ends none p .initial result st →
      (st.steps ≤ limit → Ends (some limit) p .initial result st) ∧
      (limit < st.steps →
        ∃ st', Ends (some limit) p .initial (.error (.stepLimit limit)) st')) ∧
    ((¬ ∃ result st, Ends none p .initial result st) →
      ∃ st', Ends (some limit) p .initial (.error (.stepLimit limit)) st') ∧
    ∀ acc st, Ends none p .initial (.ok acc) st → ∃ statements tests,
      st.steps = statements + tests ∧ ∀ vars m n,
        Completes [] p vars m n ↔ vars = st.vars ∧ m = statements ∧ n = tests := by
  -- With one step of fuel more than the limit, the run is stopped unless it ends before.
  have hstop : (∀ result st, run none (limit + 1) p .initial = some (result, st) →
      limit < st.steps) → ∃ st', run (some limit) (limit + 1) p .initial =
        some (.error (.stepLimit limit), st') ∧ st'.steps = limit + 1 :=
    run_limit_of_lt (Nat.zero_le limit) (by show limit < 0 + (limit + 1); omega)
  refine ⟨?_, ?_, ?_, ?_⟩
  · by_cases h : ∃ result st, run none (limit + 1) p .initial = some (result, st) ∧
        st.steps ≤ limit
    · obtain ⟨result, st, hrun, hle⟩ := h
      exact ⟨result, st, ⟨limit + 1, run_limit_of_le hrun hle⟩, by omega⟩
    · obtain ⟨st', hrun, hsteps⟩ := hstop fun result st hrun =>
        Nat.lt_of_not_le fun hle => h ⟨result, st, hrun, hle⟩
      exact ⟨_, st', ⟨limit + 1, hrun⟩, by omega⟩
  · intro result st hends
    constructor
    · intro hle
      obtain ⟨fuel, hrun⟩ := hends
      exact ⟨fuel, run_limit_of_le hrun hle⟩
    · intro hlt
      obtain ⟨st', hrun, -⟩ := hstop fun result' st' hrun => by
        obtain ⟨-, rfl⟩ := hends.unique ⟨limit + 1, hrun⟩
        exact hlt
      exact ⟨st', limit + 1, hrun⟩
  · intro hdiverges
    obtain ⟨st', hrun, -⟩ := hstop fun result st hrun =>
      absurd ⟨result, st, limit + 1, hrun⟩ hdiverges
    exact ⟨st', limit + 1, hrun⟩
  · rintro acc st ⟨fuel, hrun⟩
    obtain ⟨statements, tests, hc, hsteps⟩ := completes_of_run hrun
    refine ⟨statements, tests, hsteps.trans (Nat.zero_add _), fun vars m n => ?_⟩
    constructor
    · exact fun hc' => hc'.unique hc
    · rintro ⟨rfl, rfl, rfl⟩
      exact hc

/-- A loop that tests forever and executes nothing else. -/
def emptyLoop : Program := [.loop 0 (.atom (.literal 1)) []]

theorem run_emptyLoop : ∀ fuel st, run none fuel emptyLoop st = none
  | 0, _ => rfl
  | fuel + 1, st => run_emptyLoop fuel ⟨st.vars, some 1, st.steps + 1⟩

/-- A branch, an assignment in it, two in the loop and three tests make seven steps. -/
theorem limit_countdown :
    (∃ st, Ends none countdown .initial (.ok (some 0)) st ∧ st.steps = 7 ∧
      Ends (some 7) countdown .initial (.ok (some 0)) st ∧
      (∃ st', Ends (some 6) countdown .initial (.error (.stepLimit 6)) st') ∧
      ∃ statements tests, st.steps = statements + tests ∧
        Completes [] countdown [("x", 0)] statements tests) ∧
    (¬ ∃ result st, Ends none emptyLoop .initial result st) ∧
    ∃ st, Ends (some 9) emptyLoop .initial (.error (.stepLimit 9)) st := by
  obtain ⟨st, hends, hsteps, hvars⟩ : ∃ st, Ends none countdown .initial (.ok (some 0)) st ∧
      st.steps = 7 ∧ st.vars = [("x", 0)] := ⟨_, ⟨7, rfl⟩, rfl, rfl⟩
  have hforever : ¬ ∃ result st, Ends none emptyLoop .initial result st := by
    rintro ⟨result, st, fuel, h⟩
    cases (run_emptyLoop fuel .initial).symm.trans h
  obtain ⟨-, hseven, -, hcount⟩ := limit_truncates countdown 7
  obtain ⟨statements, tests, hsum, hiff⟩ := hcount _ _ hends
  refine ⟨⟨st, hends, hsteps, (hseven _ _ hends).1 (by omega), ?_, statements, tests, hsum, ?_⟩,
    hforever, (limit_truncates emptyLoop 9).2.2.1 hforever⟩
  · exact ((limit_truncates countdown 6).2.1 _ _ hends).2 (by omega)
  · exact (hiff _ _ _).mpr ⟨hvars.symm, rfl, rfl⟩

end Kennel.Eval
