import Kennel.Eval.Run
import Kennel.Proofs.Lower.Frame

/-!
# Runs of programs that have a listing

A program with a listing never reads a variable without a value. The statements that a run has
still to work off stand in blocks, each with code that starts from variables which the block before
it has assigned (`Ready`). While every variable that this code may read has a value (`Covers`), one
step keeps both (`Ready.execute`).
-/

namespace Kennel

open Asm Lower Eval

namespace Eval

/-- Each of the names has a value. -/
def Covers (vars : Store) (names : List String) : Prop := ∀ x ∈ names, ∃ v, vars.get? x = some v

theorem Covers.mono {vars : Store} {names names' : List String} (h : Covers vars names)
    (hs : names' ⊆ names) : Covers vars names' := fun x hx => h x (hs hx)

theorem Covers.set {vars : Store} {f : Frame} (h : Covers vars f.assigned) (x : String)
    (v : Int64) : Covers (vars.set x v) (f.assign x).2.assigned := by
  intro y hy
  rw [Store.get?_set]
  split
  · exact ⟨v, rfl⟩
  · next hne => exact h y ((Frame.mem_assigned_assign.mp hy).resolve_left hne)

end Eval

/-- An expression with code has a value. -/
theorem Expr.Code.eval_ok {f : Frame} {pool : Pool} {e : Expr} {code : Listing} {vars : Store}
    (h : e.Code f pool code) (hc : Covers vars f.assigned) : ∃ v, e.eval vars = .ok v := by
  induction h with
  | literal pool n => exact ⟨n, rfl⟩
  | @name pool x m hr =>
    obtain ⟨v, hv⟩ := hc x (Frame.read?_eq_some hr).2.1
    exact ⟨v, by simp only [Expr.eval, Atom.eval, hv]⟩
  | @binary pool pool' op l r q first second _ _ _ ihl ihr =>
    obtain ⟨a, ha⟩ := ihl
    obtain ⟨b, hb⟩ := ihr
    exact ⟨op.apply a b, by simp only [Expr.eval, ha, hb]⟩

namespace Eval

theorem State.value_of_eval {st : State} {e : Expr} {v : Int64} (h : e.eval st.vars = .ok v) :
    st.value e = (.ok v, { st with acc := some v }) := by
  simp only [State.value, h]

/-- Blocks of statements that follow one another, where the code of each may read what is assigned
at the end of the one before. -/
inductive Ready (pool : Pool) : Frame → List Stmt → Prop
  | nil (f : Frame) : Ready pool f []
  | block {f g h : Frame} {p rest : List Stmt} {code : Listing} :
      Lowers pool f p code g → h.assigned ⊆ g.assigned → Ready pool h rest →
      Ready pool f (p ++ rest)

theorem Ready.lowers {pool : Pool} {f g : Frame} {p : List Stmt} {code : Listing}
    (h : Lowers pool f p code g) : Ready pool f p := by
  simpa using Ready.block h (fun _ hx => hx) (.nil g)

/-- The first statement is the first of a block. -/
theorem Ready.uncons {pool : Pool} {f : Frame} {s : Stmt} {work : List Stmt}
    (h : Ready pool f (s :: work)) :
    ∃ f' g g' p rest code, f'.assigned ⊆ f.assigned ∧ Lowers pool f' (s :: p) code g ∧
      g'.assigned ⊆ g.assigned ∧ Ready pool g' rest ∧ work = p ++ rest := by
  generalize hw : s :: work = w at h
  induction h with
  | nil f => cases hw
  | @block f g h p rest code hl hs hr ih =>
    cases p with
    | nil =>
      cases hl
      obtain ⟨f', g, g', p, rest, code, hf, h⟩ := ih hw
      exact ⟨f', g, g', p, rest, code, fun x hx => hs (hf hx), h⟩
    | cons s' p =>
      cases hw
      exact ⟨f, g, h, p, rest, code, fun _ hx => hx, hl, hs, hr, rfl⟩

/-- One statement of a run. A branch goes on with one of its blocks; a loop whose test holds comes
back to the frame it started with, since its body forgets nothing. -/
theorem Ready.execute {pool : Pool} {f : Frame} {s : Stmt} {rest : List Stmt}
    (h : Ready pool f (s :: rest)) (st : State) (hc : Covers st.vars f.assigned) :
    ∃ work st' f', Eval.execute s st = (.ok work, st') ∧ Ready pool f' (work ++ rest) ∧
      Covers st'.vars f'.assigned := by
  obtain ⟨f, g, g', p, rest, code, hf, hl, hs, hr, rfl⟩ := h.uncons
  replace hc := hc.mono hf
  have hl' := hl
  cases hl with
  | bare hp =>
    have hafter : Ready pool f (p ++ rest) := .block hp hs hr
    exact ⟨[], st, f, rfl, hafter, hc⟩
  | @assign _ _ x e _ _ _ he hp =>
    obtain ⟨v, hv⟩ := he.eval_ok hc
    have hafter : Ready pool (f.assign x).2 (p ++ rest) := .block hp hs hr
    refine ⟨[], ⟨st.vars.set x v, some v, st.steps⟩, (f.assign x).2, ?_, hafter, hc.set x v⟩
    simp only [Eval.execute, State.value_of_eval hv]
  | @branch _ f₁ f₂ _ id e yes no _ _ _ _ _ he hy hn hp =>
    obtain ⟨v, hv⟩ := he.eval_ok hc
    have hafter : Ready pool (f₂.meet f₁.assigned) (p ++ rest) := .block hp hs hr
    by_cases hz : v = 0
    · refine ⟨no, { st with acc := some v }, f₁.withAssigned f.assigned, ?_,
        .block hn ?_ hafter, hc⟩
      · simp only [Eval.execute, State.value_of_eval hv, if_pos hz]
      · exact fun x hx => (Frame.mem_assigned_meet.mp hx).1
    · refine ⟨yes, { st with acc := some v }, f, ?_, .block hy ?_ hafter, hc⟩
      · simp only [Eval.execute, State.value_of_eval hv, if_neg hz]
      · exact fun x hx => (Frame.mem_assigned_meet.mp hx).2
  | @loop _ f₁ _ id e body _ _ _ _ he hb hp =>
    obtain ⟨v, hv⟩ := he.eval_ok hc
    by_cases hz : v = 0
    · have hafter : Ready pool (f₁.withAssigned f.assigned) (p ++ rest) := .block hp hs hr
      refine ⟨[], { st with acc := some v }, f₁.withAssigned f.assigned, ?_, hafter, hc⟩
      simp only [Eval.execute, State.value_of_eval hv, if_pos hz]
    · refine ⟨body ++ [.loop id e body], { st with acc := some v }, f, ?_, ?_, hc⟩
      · simp only [Eval.execute, State.value_of_eval hv, if_neg hz]
      · simpa using Ready.block hb hb.assigned_subset (.block hl' hs hr)

/-- How a step is counted: it goes on, or the limit is reached. -/
theorem State.tick_cases (limit : Option Nat) (st : State) :
    st.tick limit = (.ok (), { st with steps := st.steps + 1 }) ∨
    ∃ n, limit = some n ∧
      st.tick limit = (.error (.stepLimit n), { st with steps := st.steps + 1 }) := by
  unfold State.tick
  cases limit with
  | none => exact .inl rfl
  | some n =>
    simp only
    split
    · exact .inr ⟨n, rfl, rfl⟩
    · exact .inl rfl

/-- One step goes on with what is ready, or is one too many. -/
theorem Ready.step {pool : Pool} {f : Frame} {s : Stmt} {rest : List Stmt}
    (h : Ready pool f (s :: rest)) (limit : Option Nat) (st : State)
    (hc : Covers st.vars f.assigned) :
    (∃ work st' f', Eval.step limit s st = (.ok work, st') ∧ Ready pool f' (work ++ rest) ∧
      Covers st'.vars f'.assigned) ∨
    ∃ n st', limit = some n ∧ Eval.step limit s st = (.error (.stepLimit n), st') := by
  rcases st.tick_cases limit with ht | ⟨n, hn, ht⟩
  · obtain ⟨work, st', f', he, hr, hc'⟩ := h.execute { st with steps := st.steps + 1 } hc
    refine .inl ⟨work, st', f', ?_, hr, hc'⟩
    simp only [Eval.step, ht, he]
  · refine .inr ⟨n, { st with steps := st.steps + 1 }, hn, ?_⟩
    simp only [Eval.step, ht]

/-- A run is still going on, or it has ended with a value or at the limit. -/
theorem Ready.run {pool : Pool} (limit : Option Nat) (fuel : Nat) {f : Frame}
    {work : List Stmt} {st : State} (h : Ready pool f work) (hc : Covers st.vars f.assigned) :
    Eval.run limit fuel work st = none ∨
    (∃ acc st', Eval.run limit fuel work st = some (.ok acc, st')) ∨
    ∃ n st', limit = some n ∧ Eval.run limit fuel work st = some (.error (.stepLimit n), st') := by
  fun_induction Eval.run limit fuel work st generalizing f with
  | case1 fuel st => exact .inr (.inl ⟨_, _, rfl⟩)
  | case2 => exact .inl rfl
  | case3 fuel s rest st work st₁ hstep ih =>
    rcases h.step limit st hc with ⟨work', st₂, f', hok, hr, hc'⟩ | ⟨n, st₂, -, herr⟩
    · rw [hok] at hstep
      cases hstep
      exact ih hr hc'
    · rw [herr] at hstep
      cases hstep
  | case4 fuel s rest st cause st₁ hstep =>
    rcases h.step limit st hc with ⟨work', st₂, f', hok, -, -⟩ | ⟨n, st₂, hn, herr⟩
    · rw [hok] at hstep
      cases hstep
    · rw [herr] at hstep
      cases hstep
      exact .inr (.inr ⟨n, st₁, hn, rfl⟩)

/-- A program that has a listing never reads a variable without a value, from any variables on: its
run goes on, ends with a value, or is stopped by a limit. -/
theorem run_of_generate {registers : Nat} {p : Program} {code : Listing}
    (h : generate registers p = .ok code) (limit : Option Nat) (fuel : Nat) (st : State) :
    run limit fuel p st = none ∨ (∃ acc st', run limit fuel p st = some (.ok acc, st')) ∨
    ∃ n st', limit = some n ∧ run limit fuel p st = some (.error (.stepLimit n), st') := by
  obtain ⟨body, f, hl, -⟩ := lowers_of_generate h
  exact (Ready.lowers hl).run limit fuel (fun x hx => by cases hx)

/-- Both branches assign the variable that the loop counts down. -/
def countdown : Program :=
  [.branch 0 (.atom (.literal 1)) [.assign "x" (.atom (.literal 2))]
    [.assign "x" (.atom (.literal 3))],
   .loop 1 (.atom (.name "x"))
    [.assign "x" (.binary .subtract (.atom (.name "x")) (.atom (.literal 1)))]]

theorem run_countdown :
    (∃ code, generate 1 countdown = .ok code) ∧ ∀ limit fuel st,
      run limit fuel countdown st = none ∨
      (∃ acc st', run limit fuel countdown st = some (.ok acc, st')) ∨
      ∃ n st', limit = some n ∧
        run limit fuel countdown st = some (.error (.stepLimit n), st') := by
  have h : ∃ code, generate 1 countdown = .ok code := ⟨_, rfl⟩
  obtain ⟨code, hc⟩ := h
  exact ⟨⟨code, hc⟩, run_of_generate hc⟩

end Eval

end Kennel
