import Kennel.Proofs.Eval.Safety
import Kennel.Proofs.Lower.Stops

/-!
# Paths of programs

A `walk` works off statements as a run does, but the outcome of every test is given beforehand
instead of being taken from the value of its condition. Every run is a walk (`exists_walk_of_run`).

A program without a listing, for a variable that may not be read, has a walk that reads this
variable before it has a value (`walk_of_generate`): past statements that have code there is a
walk without an assignment to any given variable that may not be read after them
(`Lowers.misses`), and what has code reads nothing without a value.
-/

namespace Kennel

open Asm Lower Eval

/-- The condition on whose value it depends how a statement goes on. -/
def Stmt.test? : Stmt → Option Expr
  | .branch _ c _ _ | .loop _ c _ => some c
  | .assign .. | .bare _ => none

/-- The statements that take over from one whose test has come out as `outcome`. -/
def Stmt.followUp (outcome : Bool) : Stmt → List Stmt
  | .branch _ _ yes no => if outcome then yes else no
  | .loop id c body => if outcome then body ++ [.loop id c body] else []
  | .assign .. | .bare _ => []

namespace Eval

/-- Work off statements as `run` does without a limit, but let the next of `outcomes` decide each
test. There is no result when the fuel or the outcomes end first. -/
def walk : Nat → List Bool → List Stmt → State → Option (Except Cause (Option Int64) × State)
  | _, _, [], st => some (.ok st.acc, st)
  | 0, _, _ :: _, _ => none
  | fuel + 1, outcomes, s :: rest, st =>
    match step none s st with
    | (.error c, st) => some (.error c, st)
    | (.ok work, st) =>
      match s.test?, outcomes with
      | none, outcomes => walk fuel outcomes (work ++ rest) st
      | some _, [] => none
      | some _, outcome :: outcomes => walk fuel outcomes (s.followUp outcome ++ rest) st

/-! ## Steps -/

section

variable {s : Stmt} {c : Expr} (st : State)

theorem step_test_ok (hs : s.test? = some c) {v : Int64} (hv : c.eval st.vars = .ok v) :
    step none s st = (.ok (s.followUp (v ≠ 0)), ⟨st.vars, some v, st.steps + 1⟩) := by
  cases s with
  | branch id c yes no | loop id c body =>
    cases hs
    by_cases hz : v = 0 <;> simp [step, State.tick, execute, State.value, hv, hz, Stmt.followUp]
  | assign | bare => cases hs

theorem step_test_error (hs : s.test? = some c) {cause : Cause}
    (hc : c.eval st.vars = .error cause) : ∃ st', step none s st = (.error cause, st') := by
  cases s with
  | branch id c yes no | loop id c body =>
    cases hs
    exact ⟨_, by simp only [step, State.tick, execute, State.value, hc]; rfl⟩
  | assign | bare => cases hs

theorem step_assign_ok {x : String} {v : Int64} (hv : c.eval st.vars = .ok v) :
    step none (.assign x c) st = (.ok [], ⟨st.vars.set x v, some v, st.steps + 1⟩) := by
  simp [step, State.tick, execute, State.value, hv]

theorem step_assign_error {x : String} {cause : Cause} (hc : c.eval st.vars = .error cause) :
    ∃ st', step none (.assign x c) st = (.error cause, st') :=
  ⟨_, by simp only [step, State.tick, execute, State.value, hc]; rfl⟩

end

/-- What a step that succeeds can have done. -/
inductive Advances (st : State) : Stmt → List Stmt → State → Prop
  | bare (x : String) : Advances st (.bare x) [] { st with steps := st.steps + 1 }
  | assign (x : String) {e : Expr} {v : Int64} : e.eval st.vars = .ok v →
      Advances st (.assign x e) [] ⟨st.vars.set x v, some v, st.steps + 1⟩
  | test {s : Stmt} {c : Expr} {v : Int64} : s.test? = some c → c.eval st.vars = .ok v →
      Advances st s (s.followUp (v ≠ 0)) ⟨st.vars, some v, st.steps + 1⟩

theorem advances_of_step {s : Stmt} {st st' : State} {todo : List Stmt}
    (h : step none s st = (.ok todo, st')) : Advances st s todo st' := by
  have htest : ∀ {c : Expr}, s.test? = some c → Advances st s todo st' := by
    intro c hs
    cases hc : c.eval st.vars with
    | ok v =>
      rw [step_test_ok st hs hc] at h
      cases h
      exact .test hs hc
    | error cause =>
      obtain ⟨st₁, herr⟩ := step_test_error st hs hc
      rw [herr] at h
      cases h
  cases s with
  | bare x => cases h; exact .bare x
  | branch id c yes no => exact htest rfl
  | loop id c body => exact htest rfl
  | assign x e =>
    cases he : e.eval st.vars with
    | ok v =>
      rw [step_assign_ok st he] at h
      cases h
      exact .assign x he
    | error cause =>
      obtain ⟨st₁, herr⟩ := step_assign_error st he
      rw [herr] at h
      cases h

/-- A run is the walk on which every test comes out as its condition has it. -/
theorem exists_walk_of_run {fuel : Nat} {work : List Stmt} {st : State}
    {result : Except Cause (Option Int64) × State} (h : run none fuel work st = some result) :
    ∃ outcomes, walk fuel outcomes work st = some result := by
  induction fuel generalizing work st with
  | zero =>
    cases work with
    | nil => exact ⟨[], h⟩
    | cons s rest => cases h
  | succ fuel ih =>
    cases work with
    | nil => exact ⟨[], h⟩
    | cons s rest =>
      rw [run] at h
      split at h
      · next todo st' hstep =>
        obtain ⟨outcomes, hw⟩ := ih h
        cases advances_of_step hstep with
        | bare x => exact ⟨outcomes, by simpa only [walk, hstep, Stmt.test?] using hw⟩
        | assign x _ => exact ⟨outcomes, by simpa only [walk, hstep, Stmt.test?] using hw⟩
        | test hs _ => exact ⟨_ :: outcomes, by simpa only [walk, hstep, hs] using hw⟩
      · next cause st' hstep =>
        exact ⟨[], by simpa only [walk, hstep] using h⟩

/-! ## Walks to a variable without a value -/

/-- From these variables on, some walk ends where it reads the variable `x`, which has no value. -/
def Misses (x : String) (work : List Stmt) (vars : Store) : Prop :=
  ∀ acc steps, ∃ fuel outcomes st,
    walk fuel outcomes work ⟨vars, acc, steps⟩ = some (.error (.unassigned x), st)

section

variable {x y : String} {s : Stmt} {c : Expr} {rest : List Stmt} {vars : Store} {v : Int64}

theorem Misses.in_value (hc : c.eval vars = .error (.unassigned x)) :
    Misses x (.assign y c :: rest) vars := by
  intro acc steps
  obtain ⟨st, hstep⟩ := step_assign_error ⟨vars, acc, steps⟩ (x := y) hc
  exact ⟨1, [], st, by simp only [walk, hstep]⟩

theorem Misses.in_test (hs : s.test? = some c) (hc : c.eval vars = .error (.unassigned x)) :
    Misses x (s :: rest) vars := by
  intro acc steps
  obtain ⟨st, hstep⟩ := step_test_error ⟨vars, acc, steps⟩ hs hc
  exact ⟨1, [], st, by simp only [walk, hstep]⟩

theorem Misses.after_bare (h : Misses x rest vars) : Misses x (.bare y :: rest) vars := by
  intro acc steps
  obtain ⟨fuel, outcomes, st, hw⟩ := h acc (steps + 1)
  exact ⟨fuel + 1, outcomes, st, hw⟩

theorem Misses.after_assign (hv : c.eval vars = .ok v) (h : Misses x rest (vars.set y v)) :
    Misses x (.assign y c :: rest) vars := by
  intro acc steps
  have hstep := step_assign_ok ⟨vars, acc, steps⟩ (x := y) hv
  obtain ⟨fuel, outcomes, st, hw⟩ := h (some v) (steps + 1)
  exact ⟨fuel + 1, outcomes, st, by simpa [walk, hstep, Stmt.test?] using hw⟩

/-- A test may come out either way. -/
theorem Misses.after_test (hs : s.test? = some c) (hv : c.eval vars = .ok v) (outcome : Bool)
    (h : Misses x (s.followUp outcome ++ rest) vars) : Misses x (s :: rest) vars := by
  intro acc steps
  have hstep := step_test_ok ⟨vars, acc, steps⟩ hs hv
  obtain ⟨fuel, outcomes, st, hw⟩ := h (some v) (steps + 1)
  exact ⟨fuel + 1, outcome :: outcomes, st, by simpa only [walk, hstep, hs] using hw⟩

end

/-- Every variable that may be read has a value, but `x` has none. -/
structure Without (x : String) (f : Frame) (vars : Store) : Prop where
  covers : Covers vars f.assigned
  lacks : vars.get? x = none

theorem Without.mono {x : String} {f g : Frame} {vars : Store} (h : Without x f vars)
    (hs : g.assigned ⊆ f.assigned) : Without x g vars :=
  ⟨h.covers.mono hs, h.lacks⟩

theorem Without.assign {x y : String} {f : Frame} {vars : Store} (h : Without x f vars)
    (hy : x ≠ y) (v : Int64) : Without x (f.assign y).2 (vars.set y v) :=
  ⟨h.covers.set y v, by rw [Store.get?_set, if_neg hy, h.lacks]⟩

end Eval

theorem Expr.Stops.eval {f : Frame} {x : String} {pool : Pool} {e : Expr} (h : e.Stops f x pool)
    {vars : Store} (hw : Without x f vars) : e.eval vars = .error (.unassigned x) := by
  induction h with
  | name pool _ => simp only [Expr.eval, Atom.eval, hw.lacks]
  | left _ ih => simp only [Expr.eval, ih]
  | right hl _ _ ih =>
    obtain ⟨a, ha⟩ := hl.eval_ok hw.covers
    simp only [Expr.eval, ha, ih]

namespace Lower

/-- A walk may get past statements that have code without an assignment to `x`, if `x` may not be
read after them. On a branch it takes a block that does not assign `x`, and it never enters a
loop. -/
theorem Lowers.misses {pool : Pool} {f g : Frame} {p : List Stmt} {code : Listing}
    (h : Lowers pool f p code g) {x : String} (hx : x ∉ g.assigned) {vars : Store}
    (hw : Without x f vars) {rest : List Stmt}
    (hrest : ∀ vars', Without x g vars' → Misses x rest vars') : Misses x (p ++ rest) vars := by
  induction h generalizing vars rest with
  | nil f => exact hrest vars hw
  | bare _ ih => exact .after_bare (ih hx hw hrest)
  | @assign f g y e others value code he hl ih =>
    obtain ⟨v, hv⟩ := he.eval_ok hw.covers
    have hne : x ≠ y := by
      rintro rfl
      exact hx (hl.assigned_subset (Frame.mem_assigned_assign.mpr (.inl rfl)))
    exact .after_assign hv (ih hx (hw.assign hne v) hrest)
  | @branch f f₁ f₂ g id c yes no others test first second code hc hy hn hl ihy ihn ih =>
    obtain ⟨v, hv⟩ := hc.eval_ok hw.covers
    have hmeet : x ∉ (f₂.meet f₁.assigned).assigned := fun hmem => hx (hl.assigned_subset hmem)
    rw [Frame.mem_assigned_meet] at hmeet
    by_cases hyes : x ∈ f₁.assigned
    · have hno : x ∉ f₂.assigned := fun hmem => hmeet ⟨hmem, hyes⟩
      refine .after_test rfl hv false (ihn hno ⟨hw.covers, hw.lacks⟩ fun vars' hw' => ?_)
      exact ih hx (hw'.mono fun y hmem => (Frame.mem_assigned_meet.mp hmem).1) hrest
    · refine .after_test rfl hv true (ihy hyes hw fun vars' hw' => ?_)
      exact ih hx (hw'.mono fun y hmem => (Frame.mem_assigned_meet.mp hmem).2) hrest
  | loop hc _ _ _ ih =>
    obtain ⟨v, hv⟩ := hc.eval_ok hw.covers
    exact .after_test rfl hv false (ih hx ⟨hw.covers, hw.lacks⟩ hrest)

/-- Where the lowering stops at `x`, a walk gets there without an assignment to `x`. -/
theorem Stops.misses {pool : Pool} {x : String} {f : Frame} {p : List Stmt}
    (h : Stops pool x f p) (hf : f.Housed) {vars : Store} (hw : Without x f vars)
    (rest : List Stmt) : Misses x (p ++ rest) vars := by
  induction h generalizing vars rest with
  | assign he => exact .in_value (he.eval hw)
  | branchTest hc => exact .in_test rfl (hc.eval hw)
  | loopTest hc => exact .in_test rfl (hc.eval hw)
  | thenBlock hc _ ih =>
    obtain ⟨v, hv⟩ := hc.eval_ok hw.covers
    exact .after_test rfl hv true (ih hf hw _)
  | elseBlock hc hy _ ih =>
    obtain ⟨v, hv⟩ := hc.eval_ok hw.covers
    exact .after_test rfl hv false (ih (hy.housed_withAssigned hf) ⟨hw.covers, hw.lacks⟩ _)
  | loopBlock hc _ ih =>
    obtain ⟨v, hv⟩ := hc.eval_ok hw.covers
    refine .after_test rfl hv true ?_
    rw [Stmt.followUp, if_pos rfl, List.append_assoc]
    exact ih hf hw _
  | after hl hs ih =>
    have hx := hs.not_mem_assigned (hl.housed hf)
    exact hl.misses hx hw fun vars' hw' => ih (hl.housed hf) hw' rest

end Lower

namespace Eval

/-- A program that has no listing because of a variable has a path on which this variable is read
without a value, from no variables on. -/
theorem walk_of_generate {limit : Nat} {p : Program} {f : Lower.Fault} {x : String}
    (h : generate limit p = .error f) (hx : f.cause = .unassigned x) :
    ∃ fuel outcomes st, walk fuel outcomes p .initial = some (.error (.unassigned x), st) := by
  have hstop := stops_of_generate h hx
  have hempty : Without x .empty [] := ⟨fun y hy => (List.not_mem_nil hy).elim, rfl⟩
  have hm := hstop.misses (fun y hy => (List.not_mem_nil hy).elim) hempty []
  rw [List.append_nil] at hm
  exact hm none 0

/-- One block of the branch in the loop assigns `x`, and the loop may not run at all. -/
def oneSided : Program :=
  [.assign "n" (.atom (.literal 1)),
   .loop 0 (.atom (.name "n"))
    [.branch 1 (.atom (.name "n")) [.assign "x" (.atom (.name "n"))] [],
     .assign "n" (.atom (.literal 0))],
   .assign "y" (.binary .add (.atom (.name "n")) (.atom (.name "x")))]

/-- Its run has a value, since every test comes out as it should; another path has none. -/
theorem walk_oneSided :
    evaluate 9 oneSided = some (.ok (some 1)) ∧
    (∃ f, generate 1 oneSided = .error f ∧ f.cause = .unassigned "x") ∧
    ∃ fuel outcomes st,
      walk fuel outcomes oneSided .initial = some (.error (.unassigned "x"), st) := by
  obtain ⟨f, hf, hx⟩ : ∃ f, generate 1 oneSided = .error f ∧ f.cause = .unassigned "x" :=
    ⟨_, rfl, rfl⟩
  exact ⟨rfl, ⟨f, hf, hx⟩, walk_of_generate hf hx⟩

end Eval

end Kennel
