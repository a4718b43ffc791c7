import Kennel.Proofs.Lower.Registers

/-!
# Requests to a lowering state

One state may serve any sequence of requests: lowerings, which may fail, and registers taken and
given back by hand. Whatever has been asked before, a lowering leaves the pool as it finds it, and
no register is given back that is not lent (`restores_after`). All that is needed of the pool is
that no register stands in it twice, which every request keeps (`Pool.Distinct.after`).
-/

namespace Kennel.Lower

open Asm Emit

/-- What a state may be asked for. A register that is not lent is not taken back. -/
inductive Request
  | expr (e : Expr)
  | stmt (st : Stmt)
  | block (p : List Stmt)
  | acquire
  | release (r : Register)

namespace State

/-- The state after a request, met or not. -/
def after (s : State) : Request → State
  | .expr e => (e.lower s).2
  | .stmt st => (st.lower s).2
  | .block p => (Stmt.lowerAll p s).2
  | .acquire => (acquire s).2
  | .release r => (release r s).2

def afterAll (s : State) (requests : List Request) : State := requests.foldl after s

end State

/-- The causes for which a lowering may fail where the pool has `size` registers. -/
def Cause.Foreseen (size : Nat) : Cause → Prop
  | .unassigned _ => True
  | .outOfRegisters n => n = size
  | .strayRelease _ => False

theorem Cause.foreseen_unassigned (size : Nat) (x : String) :
    (Cause.unassigned x).Foreseen size :=
  trivial

theorem Cause.foreseen_outOfRegisters (size : Nat) : (Cause.outOfRegisters size).Foreseen size :=
  rfl

section

variable {s : State} (hp : s.pool.Distinct)
include hp

theorem restores_expr (e : Expr) : Restores e.lower s (Cause.Foreseen s.pool.size) :=
  e.restores_lower (Cause.foreseen_unassigned _) hp (fun _ => Cause.foreseen_outOfRegisters _) rfl

theorem restores_stmt (st : Stmt) : Restores st.lower s (Cause.Foreseen s.pool.size) :=
  Stmt.restores_lower (Cause.foreseen_unassigned _) hp st
    (fun _ _ _ => Cause.foreseen_outOfRegisters _) s rfl

theorem restores_block (p : List Stmt) :
    Restores (Stmt.lowerAll p) s (Cause.Foreseen s.pool.size) :=
  Stmt.restores_lowerAll (Cause.foreseen_unassigned _) hp p
    (fun _ _ _ => Cause.foreseen_outOfRegisters _) s rfl

theorem Pool.Distinct.after (request : Request) : (s.after request).pool.Distinct := by
  cases request with
  | expr e =>
    show (e.lower s).2.pool.Distinct
    rwa [(restores_expr hp e).pool]
  | stmt st =>
    show (st.lower s).2.pool.Distinct
    rwa [(restores_stmt hp st).pool]
  | block p =>
    show (Stmt.lowerAll p s).2.pool.Distinct
    rwa [(restores_block hp p).pool]
  | acquire =>
    show (acquire s).2.pool.Distinct
    unfold acquire
    cases hacq : s.pool.acquire? with
    | none => exact hp
    | some lent => exact hp.of_acquire? hacq
  | release r =>
    show (release r s).2.pool.Distinct
    unfold release
    cases hrel : s.pool.release? r with
    | none => exact hp
    | some pool => exact hp.of_release? hrel

theorem Pool.Distinct.afterAll (requests : List Request) :
    (s.afterAll requests).pool.Distinct := by
  induction requests generalizing s with
  | nil => exact hp
  | cons request requests ih => exact ih (hp.after request)

end

/-- A register that is handed out can be given back, and the state is then the one before. -/
theorem release_of_acquire {s t : State} {r : Register} (hp : s.pool.Distinct)
    (h : acquire s = (.ok r, t)) : release r t = (.ok (), s) := by
  unfold acquire at h
  cases hacq : s.pool.acquire? with
  | none =>
    rw [hacq] at h
    cases h
  | some lent =>
    rw [hacq] at h
    cases h
    unfold release
    simp only [hp.release?_of_acquire? hacq]

/-- After any requests, the lowering of an expression, a statement or a block gives back all that it
borrows, whether it succeeds or fails, and no stray release is its fault. An expression leaves the
frame alone too; so where it is lowered under a loan, the register of the loan is still lent when it
is given back. -/
theorem restores_after (limit : Nat) (requests : List Request) :
    let s := (State.ofLimit limit).afterAll requests
    (∀ e : Expr, Restores e.lower s (Cause.Foreseen s.pool.size) ∧
      (e.lower s).2.frame = s.frame) ∧
    (∀ st : Stmt, Restores st.lower s (Cause.Foreseen s.pool.size)) ∧
    (∀ p : List Stmt, Restores (Stmt.lowerAll p) s (Cause.Foreseen s.pool.size)) ∧
    ∀ (e : Expr) (r : Register) (t : State), acquire s = (.ok r, t) →
      release r (e.lower t).2 = (.ok (), s) := by
  intro s
  have hp : s.pool.Distinct := (Pool.distinct_ofLimit limit).afterAll requests
  refine ⟨fun e => ⟨restores_expr hp e, ?_⟩, restores_stmt hp, restores_block hp, ?_⟩
  · rw [e.lower_snd hp]
  · intro e r t hacq
    -- The state under the loan is the one after one more request.
    have ht : t = s.after .acquire := (congrArg Prod.snd hacq).symm
    have hpt : t.pool.Distinct := ht ▸ hp.after .acquire
    rw [e.lower_snd hpt]
    exact release_of_acquire hp hacq

/-- A lowering that fails inside a loan, and a register taken by hand. -/
def failedThenLent : List Request :=
  [.expr (.binary .add (.atom (.literal 1)) (.atom (.name "x"))), .acquire]

/-- `1 < 2 * 3`, which needs two registers at once. -/
def needsTwo : Expr :=
  .binary .less (.atom (.literal 1))
    (.binary .multiply (.atom (.literal 2)) (.atom (.literal 3)))

theorem restores_after_failure :
    (State.ofLimit 2).afterAll failedThenLent =
      ⟨⟨[(.rcx, true), (.rsi, false)]⟩, .empty⟩ ∧
    (needsTwo.lower ((State.ofLimit 2).afterAll failedThenLent)).1 =
      .error ⟨.outOfRegisters 2, []⟩ ∧
    (needsTwo.lower ((State.ofLimit 2).afterAll failedThenLent)).2.pool =
      ⟨[(.rcx, true), (.rsi, false)]⟩ ∧
    (needsTwo.lower ((State.ofLimit 2).afterAll failedThenLent)).2.frame = .empty ∧
    release .rsi (needsTwo.lower ⟨⟨[(.rcx, true), (.rsi, true)]⟩, .empty⟩).2 =
      (.ok (), ⟨⟨[(.rcx, true), (.rsi, false)]⟩, .empty⟩) := by
  obtain ⟨hexpr, -, -, hloan⟩ := restores_after 2 failedThenLent
  obtain ⟨hrestores, hframe⟩ := hexpr needsTwo
  exact ⟨rfl, rfl, hrestores.pool, hframe, hloan needsTwo .rsi _ rfl⟩

end Kennel.Lower
