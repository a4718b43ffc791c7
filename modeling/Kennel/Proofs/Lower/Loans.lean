import Kennel.Proofs.Lower.Requests

/-!
# Registers on loan

The registers on loan are known in two ways: from the answers to the requests so far
(`State.onLoan`), and from the marks in the pool (`Pool.lentRegisters`). The two lists hold the same
registers after any requests (`Pool.Books.after`), also where a request could not be met and where a
register came back that was not lent. So the answers decide what the next request gets
(`onLoan_afterAll`).
-/

namespace Kennel.Lower

open Asm Emit

namespace Pool

/-- The registers that are marked as in use, in the order of the pool. -/
def lentRegisters (p : Pool) : List Register := (p.entries.filter (·.2)).map (·.1)

theorem mem_lentRegisters {p : Pool} {r : Register} :
    r ∈ p.lentRegisters ↔ (r, true) ∈ p.entries := by
  simp [lentRegisters]

theorem Distinct.nodup_lentRegisters {p : Pool} (hp : p.Distinct) : p.lentRegisters.Nodup :=
  hp.sublist (List.filter_sublist.map _)

theorem available_add_length (p : Pool) :
    p.available + p.lentRegisters.length = p.size := by
  have hmarks := List.length_eq_countP_add_countP (fun e : Register × Bool => e.2) (l := p.entries)
  simp only [Bool.not_eq_true, Bool.decide_eq_false] at hmarks
  simp only [available, lentRegisters, size, List.length_map, ← List.countP_eq_length_filter]
  omega

theorem lentRegisters_of_acquire? {p p' : Pool} {r : Register} (h : p.acquire? = some (r, p')) :
    p'.lentRegisters.Perm (r :: p.lentRegisters) := by
  obtain ⟨before, after, he, -, he'⟩ := acquire?_eq_some h
  simp only [lentRegisters, he, he', List.filter_append, List.map_append]
  exact List.perm_middle

theorem lentRegisters_of_release? {p p' : Pool} {r : Register} (h : p.release? r = some p') :
    p.lentRegisters.Perm (r :: p'.lentRegisters) := by
  simp only [release?, Option.map_eq_some_iff] at h
  obtain ⟨es, h', rfl⟩ := h
  obtain ⟨before, after, he, -, rfl⟩ := releaseFrom_eq_some h'
  simp only [lentRegisters, he, List.filter_append, List.map_append]
  exact List.perm_middle

/-- A register that is marked as in use can come back. -/
theorem Distinct.exists_release? {p : Pool} (hp : p.Distinct) {r : Register}
    (h : (r, true) ∈ p.entries) : ∃ p', p.release? r = some p' := by
  obtain ⟨before, after, he⟩ := List.append_of_mem h
  refine ⟨⟨before ++ (r, false) :: after⟩, ?_⟩
  simp only [release?, he, releaseFrom_append (hp.not_mem he).1, Option.map_some]

/-- `lent` are the registers of the pool that are in use, each of them once. -/
def Books (p : Pool) (lent : List Register) : Prop := lent.Perm p.lentRegisters

namespace Books

variable {p : Pool} {lent : List Register} (h : p.Books lent)
include h

theorem mem_iff (r : Register) : r ∈ lent ↔ (r, true) ∈ p.entries := by
  rw [List.Perm.mem_iff h, mem_lentRegisters]

theorem available_add_length : p.available + lent.length = p.size := by
  rw [h.length_eq, Pool.available_add_length]

theorem filter_registers (hp : p.Distinct) :
    (p.registers.filter fun r => r ∉ lent) = p.freeRegisters := by
  simp only [registers, freeRegisters, List.filter_map]
  congr 1
  refine List.filter_congr fun e he => ?_
  obtain ⟨r, used⟩ := e
  simp only [Function.comp_apply, Books.mem_iff h]
  cases used with
  | true => simp [he]
  | false =>
    have hfree : (r, true) ∉ p.entries := fun hlent => hp.not_free hlent he
    simp [hfree]

/-- The first register that is free. -/
theorem find?_registers (hp : p.Distinct) :
    (p.registers.find? fun r => r ∉ lent) = p.freeRegisters.head? := by
  rw [← List.head?_filter, filter_registers h hp]

end Books

end Pool

/-! ## Requests -/

namespace State

/-- The registers on loan after a request: its answer may add one or remove one. A lowering keeps
none. -/
def onLoan (s : State) (lent : List Register) : Request → List Register
  | .acquire =>
    match (acquire s).1 with
    | .ok r => r :: lent
    | .error _ => lent
  | .release r =>
    match (release r s).1 with
    | .ok () => lent.erase r
    | .error _ => lent
  | .expr _ | .stmt _ | .block _ => lent

/-- The registers on loan after requests one after the other. -/
def onLoanAll (s : State) (lent : List Register) : List Request → List Register
  | [] => lent
  | request :: requests => (s.after request).onLoanAll (s.onLoan lent request) requests

end State

section

variable {s : State} (hp : s.pool.Distinct)
include hp

theorem registers_after (request : Request) :
    (s.after request).pool.registers = s.pool.registers := by
  cases request with
  | expr e => exact congrArg Pool.registers (restores_expr hp e).pool
  | stmt st => exact congrArg Pool.registers (restores_stmt hp st).pool
  | block p => exact congrArg Pool.registers (restores_block hp p).pool
  | acquire =>
    show (acquire s).2.pool.registers = _
    unfold acquire
    cases hacq : s.pool.acquire? with
    | none => rfl
    | some lent => exact Pool.registers_of_acquire? hacq
  | release r =>
    show (release r s).2.pool.registers = _
    unfold release
    cases hrel : s.pool.release? r with
    | none => rfl
    | some pool => exact Pool.registers_of_release? hrel

theorem registers_afterAll (requests : List Request) :
    (s.afterAll requests).pool.registers = s.pool.registers := by
  induction requests generalizing s with
  | nil => rfl
  | cons request requests ih =>
    exact (ih (hp.after request)).trans (registers_after hp request)

/-- The books stay right, whatever is asked and whether or not it is met. -/
theorem Pool.Books.after {lent : List Register} (h : s.pool.Books lent) (request : Request) :
    (s.after request).pool.Books (s.onLoan lent request) := by
  cases request with
  | expr e =>
    show (e.lower s).2.pool.Books lent
    rwa [(restores_expr hp e).pool]
  | stmt st =>
    show (st.lower s).2.pool.Books lent
    rwa [(restores_stmt hp st).pool]
  | block p =>
    show (Stmt.lowerAll p s).2.pool.Books lent
    rwa [(restores_block hp p).pool]
  | acquire =>
    simp only [State.after, State.onLoan, acquire]
    cases hacq : s.pool.acquire? with
    | none => exact h
    | some answer =>
      exact (List.Perm.cons answer.1 h).trans (lentRegisters_of_acquire? hacq).symm
  | release r =>
    simp only [State.after, State.onLoan, release]
    cases hrel : s.pool.release? r with
    | none => exact h
    | some pool =>
      -- Up to order the list is `r` and what stays lent, and erasing `r` leaves the latter.
      have hperm := (h.trans (lentRegisters_of_release? hrel)).erase r
      rwa [List.erase_cons_head] at hperm

theorem Pool.Books.afterAll {lent : List Register} (h : s.pool.Books lent)
    (requests : List Request) :
    (s.afterAll requests).pool.Books (s.onLoanAll lent requests) := by
  induction requests generalizing s lent with
  | nil => exact h
  | cons request requests ih => exact ih (hp.after request) (h.after hp request)

end

/-- Nothing is on loan at first. -/
theorem Pool.books_ofLimit (limit : Nat) : (ofLimit limit).Books [] := by
  have hnone : (ofLimit limit).lentRegisters = [] := by
    simp only [lentRegisters, ofLimit, List.map_eq_nil_iff, List.filter_eq_nil_iff, List.mem_map]
    rintro e ⟨r, -, rfl⟩
    exact Bool.false_ne_true
  unfold Books
  rw [hnone]

/-! ## Answers -/

section

variable {s : State} {lent : List Register} (hp : s.pool.Distinct) (h : s.pool.Books lent)
include hp h

theorem acquire_of_all (hall : ∀ r ∈ s.pool.registers, r ∈ lent) :
    acquire s = (.error (.of (.outOfRegisters s.pool.size)), s) := by
  have hfree : s.pool.freeRegisters = [] := by
    rw [← h.filter_registers hp, List.filter_eq_nil_iff]
    simpa using hall
  unfold acquire
  cases hacq : s.pool.acquire? with
  | none => rfl
  | some answer =>
    rw [Pool.freeRegisters_of_acquire? hacq] at hfree
    cases hfree

theorem acquire_of_not_all (hsome : ¬ ∀ r ∈ s.pool.registers, r ∈ lent) :
    ∃ r t, acquire s = (.ok r, t) ∧ (s.pool.registers.find? fun q => q ∉ lent) = some r := by
  unfold acquire
  cases hacq : s.pool.acquire? with
  | none =>
    have hfree := h.filter_registers hp
    rw [Pool.freeRegisters_eq_nil hacq, List.filter_eq_nil_iff] at hfree
    exact absurd (by simpa using hfree) hsome
  | some answer =>
    refine ⟨answer.1, { s with pool := answer.2 }, rfl, ?_⟩
    rw [h.find?_registers hp, Pool.freeRegisters_of_acquire? hacq, List.head?_cons]

theorem release_of_mem {r : Register} (hr : r ∈ lent) : ∃ t, release r s = (.ok (), t) := by
  obtain ⟨pool, hrel⟩ := hp.exists_release? ((h.mem_iff r).mp hr)
  unfold release
  rw [hrel]
  exact ⟨{ s with pool := pool }, rfl⟩

omit hp in
theorem release_of_not_mem {r : Register} (hr : r ∉ lent) :
    release r s = (.error (.of (.strayRelease r)), s) := by
  unfold release
  cases hrel : s.pool.release? r with
  | none => rfl
  | some pool =>
    have hmem := (Pool.lentRegisters_of_release? hrel).mem_iff.mpr List.mem_cons_self
    exact absurd ((List.Perm.mem_iff h).mpr hmem) hr

end

/-- After any requests to a state with any limit: the pool has the first registers of the fixed
order; those that were handed out and have not come back are different from each other, are the ones
marked as in use, and make up the pool together with the available ones. A register is refused if
all are out, and otherwise the first that is not out is handed out; the return of a register is
refused if it is not out. A refusal names its cause and changes nothing. -/
theorem onLoan_afterAll (limit : Nat) (requests : List Request) :
    let s := (State.ofLimit limit).afterAll requests
    let lent := (State.ofLimit limit).onLoanAll [] requests
    s.pool.registers = scratchRegisters.take (min limit 8) ∧
    lent.Nodup ∧ (∀ r, r ∈ lent ↔ (r, true) ∈ s.pool.entries) ∧
    s.pool.available + lent.length = s.pool.size ∧
    (if ∀ r ∈ s.pool.registers, r ∈ lent then
      acquire s = (.error ⟨.outOfRegisters s.pool.size, []⟩, s)
    else
      ∃ r t, acquire s = (.ok r, t) ∧ (s.pool.registers.find? fun q => q ∉ lent) = some r) ∧
    ∀ r, if r ∈ lent then ∃ t, release r s = (.ok (), t)
      else release r s = (.error ⟨.strayRelease r, []⟩, s) := by
  intro s lent
  have hfresh : (State.ofLimit limit).pool.Distinct := Pool.distinct_ofLimit limit
  have hp : s.pool.Distinct := hfresh.afterAll requests
  have h : s.pool.Books lent := Pool.Books.afterAll hfresh (Pool.books_ofLimit limit) requests
  have hregisters : s.pool.registers = scratchRegisters.take (min limit 8) :=
    calc s.pool.registers
      _ = (Pool.ofLimit limit).registers := registers_afterAll hfresh requests
      _ = scratchRegisters.take limit := Pool.registers_ofLimit limit
      _ = scratchRegisters.take (min limit 8) := List.take_eq_take_min
  refine ⟨hregisters, (List.Perm.nodup_iff h).mpr hp.nodup_lentRegisters, h.mem_iff,
    h.available_add_length, ?_, fun r => ?_⟩
  · split
    · next hall => exact acquire_of_all hp h hall
    · next hsome => exact acquire_of_not_all hp h hsome
  · split
    · next hr => exact release_of_mem hp h hr
    · next hr => exact release_of_not_mem h hr

end Kennel.Lower
