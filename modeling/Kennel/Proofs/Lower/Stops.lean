import Kennel.Proofs.Lower.Frame

/-!
# Where a lowering stops

What a lowering that fails for a variable without a value has come to, without the computation:
`Expr.Stops` finds the variable in an expression, `Lower.Stops` in a list of statements. All that
stands before the variable has code. The variable is not among those that may be read, neither
where it stands nor at any point before (`Stops.not_mem_assigned`).
-/

namespace Kennel

open Asm Lower

namespace Lower.Emit

variable {α β : Type} {s s' : State} {f : Fault}

theorem bind_error {x : Emit α} {k : α → Emit β} (h : (x >>= k) s = (.error f, s')) :
    x s = (.error f, s') ∨ ∃ a t, x s = (.ok a, t) ∧ k a t = (.error f, s') := by
  rw [bind_apply] at h
  split at h
  · next a t hx => exact .inr ⟨a, t, hx, h⟩
  · next e t hx => cases h; exact .inl hx

theorem within_error {context : String} {x : Emit α}
    (h : within context x s = (.error f, s')) :
    ∃ g, x s = (.error g, s') ∧ f = g.within context := by
  unfold within at h
  split at h
  · cases h
  · next g t hx => cases h; exact ⟨g, hx, rfl⟩

/-- A loan fails for want of a register, or as its body does when that leaves the state alone. -/
theorem withScratch_error {body : Register → Emit α} (hp : s.pool.Distinct)
    (h : withScratch body s = (.error f, s'))
    (hbody : ∀ r pool, s.pool.acquire? = some (r, pool) →
      (body r { s with pool := pool }).2 = { s with pool := pool }) :
    f = .of (.outOfRegisters s.pool.size) ∨
    ∃ r pool t, s.pool.acquire? = some (r, pool) ∧
      body r { s with pool := pool } = (.error f, t) := by
  unfold withScratch acquire at h
  cases hacq : s.pool.acquire? with
  | none =>
    simp only [hacq, fail] at h
    cases h
    exact .inl rfl
  | some p =>
    obtain ⟨r, pool⟩ := p
    have hb := hbody r pool hacq
    cases hrun : body r { s with pool := pool } with
    | mk result t =>
      rw [hrun] at hb
      subst hb
      simp only [hacq, hrun, release, hp.release?_of_acquire? hacq] at h
      cases h
      exact .inr ⟨r, pool, _, rfl, hrun⟩

end Lower.Emit

/-! ## Expressions -/

/-- The lowering of an expression stops at the variable `x`, which may not be read. -/
inductive Expr.Stops (frame : Frame) (x : String) : Pool → Expr → Prop
  | name (pool : Pool) : frame.read? x = none → Stops frame x pool (.atom (.name x))
  | left {pool : Pool} {op : Op} {l r : Expr} : Stops frame x pool l →
      Stops frame x pool (.binary op l r)
  | right {pool pool' : Pool} {op : Op} {l r : Expr} {q : Register} {first : Listing} :
      l.Code frame pool first → pool.acquire? = some (q, pool') → Stops frame x pool' r →
      Stops frame x pool (.binary op l r)

theorem Expr.Stops.read?_eq_none {f : Frame} {x : String} {pool : Pool} {e : Expr}
    (h : e.Stops f x pool) : f.read? x = none := by
  induction h with
  | name _ hr => exact hr
  | left _ ih => exact ih
  | right _ _ _ ih => exact ih

theorem Expr.stops_of_lower {e : Expr} {s s' : State} {f : Lower.Fault} {x : String}
    (hp : s.pool.Distinct) (h : e.lower s = (.error f, s')) (hx : f.cause = .unassigned x) :
    e.Stops s.frame x s.pool := by
  induction e generalizing s s' with
  | atom a =>
    cases a with
    | literal n => cases h
    | name y =>
      rcases Emit.bind_error h with hread | ⟨m, t, -, hpure⟩
      · unfold readSlot at hread
        split at hread
        · cases hread
        · next hnone =>
          cases hread
          cases hx
          exact .name _ hnone
      · cases hpure
  | binary op l r ihl ihr =>
    rcases Emit.bind_error h with hl | ⟨first, t, hl, htail⟩
    · exact .left (ihl hp hl)
    obtain rfl := lower_state hp hl
    rcases Emit.bind_error htail with hloan | ⟨rest, u, -, hpure⟩
    · have hcases := Emit.withScratch_error hp hloan fun q pool hacq =>
        Emit.bind_snd (r.lower_snd (hp.of_acquire? hacq)) fun second => rfl
      rcases hcases with rfl | ⟨q, pool, u, hacq, hbody⟩
      · cases hx
      · rcases Emit.bind_error hbody with hr | ⟨second, v, -, hpure⟩
        · exact .right (code_of_lower hp hl) hacq (ihr (hp.of_acquire? hacq) hr)
        · cases hpure
    · cases hpure

/-! ## Statements -/

namespace Lower

/-- The lowering of statements stops at the variable `x`, which may not be read. -/
inductive Stops (pool : Pool) (x : String) : Frame → List Stmt → Prop
  | assign {f : Frame} {y : String} {e : Expr} {rest : List Stmt} :
      e.Stops f x pool → Stops pool x f (.assign y e :: rest)
  | branchTest {f : Frame} {id : Nat} {c : Expr} {yes no rest : List Stmt} :
      c.Stops f x pool → Stops pool x f (.branch id c yes no :: rest)
  | thenBlock {f : Frame} {id : Nat} {c : Expr} {yes no rest : List Stmt} {test : Listing} :
      c.Code f pool test → Stops pool x f yes → Stops pool x f (.branch id c yes no :: rest)
  | elseBlock {f f₁ : Frame} {id : Nat} {c : Expr} {yes no rest : List Stmt}
      {test first : Listing} :
      c.Code f pool test → Lowers pool f yes first f₁ →
      Stops pool x (f₁.withAssigned f.assigned) no → Stops pool x f (.branch id c yes no :: rest)
  | loopTest {f : Frame} {id : Nat} {c : Expr} {body rest : List Stmt} :
      c.Stops f x pool → Stops pool x f (.loop id c body :: rest)
  | loopBlock {f : Frame} {id : Nat} {c : Expr} {body rest : List Stmt} {test : Listing} :
      c.Code f pool test → Stops pool x f body → Stops pool x f (.loop id c body :: rest)
  | after {f g : Frame} {s : Stmt} {rest : List Stmt} {code : Listing} :
      Lowers pool f [s] code g → Stops pool x g rest → Stops pool x f (s :: rest)

end Lower

theorem Expr.stops_of_lowerTest {c : Expr} {target : Label} {s s' : State} {f : Lower.Fault}
    {x : String} (hp : s.pool.Distinct) (h : c.lowerTest target s = (.error f, s'))
    (hx : f.cause = .unassigned x) : c.Stops s.frame x s.pool := by
  rcases Emit.bind_error h with hc | ⟨code, t, -, hpure⟩
  · exact stops_of_lower hp hc hx
  · cases hpure

mutual

theorem Stmt.stops_of_lower : ∀ (st : Stmt) {s s' : State} {f : Lower.Fault} {x : String},
    s.pool.Distinct → st.lower s = (.error f, s') → f.cause = .unassigned x →
    ∀ rest, Stops s.pool x s.frame (st :: rest)
  | .bare y, s, s', f, x, _, h, _, rest => by cases h
  | .assign y e, s, s', f, x, hp, h, hx, rest => by
    rcases Emit.bind_error h with hv | ⟨value, t, -, hslot⟩
    · obtain ⟨g, hg, rfl⟩ := Emit.within_error hv
      exact .assign (Expr.stops_of_lower hp hg hx)
    · rcases Emit.bind_error hslot with hm | ⟨m, u, -, hpure⟩
      · cases hm
      · cases hpure
  | .branch id c yes no, s, s', f, x, hp, h, hx, rest => by
    rcases Emit.bind_error h with htest | ⟨test, t, htest, h₁⟩
    · obtain ⟨g, hg, rfl⟩ := Emit.within_error htest
      exact .branchTest (Expr.stops_of_lowerTest hp hg hx)
    obtain ⟨rfl, code, hc, -⟩ := Expr.code_of_lowerTest hp (Emit.within_ok htest)
    rcases Emit.bind_error h₁ with hbefore | ⟨before, u, hbefore, h₂⟩
    · cases hbefore
    cases hbefore
    rcases Emit.bind_error h₂ with hyes | ⟨first, u₁, hyes, h₃⟩
    · obtain ⟨g, hg, rfl⟩ := Emit.within_error hyes
      exact .thenBlock hc (Stmt.stops_of_lowerAll yes hp hg hx)
    obtain ⟨hp₁, hyes⟩ := Stmt.lowers_of_lowerAll yes hp (Emit.within_ok hyes)
    rcases Emit.bind_error h₃ with hafter | ⟨after, u₂, hafter, h₄⟩
    · cases hafter
    cases hafter
    rcases Emit.bind_error h₄ with hmod | ⟨_, u₃, hmod, h₅⟩
    · cases hmod
    cases hmod
    rcases Emit.bind_error h₅ with hno | ⟨second, u₄, -, h₆⟩
    · obtain ⟨g, hg, rfl⟩ := Emit.within_error hno
      have hstop := Stmt.stops_of_lowerAll no (by simpa [hp₁] using hp) hg hx
      rw [hp₁] at hstop
      exact .elseBlock hc hyes hstop
    rcases Emit.bind_error h₆ with hmeet | ⟨_, u₅, -, hpure⟩
    · cases hmeet
    · cases hpure
  | .loop id c body, s, s', f, x, hp, h, hx, rest => by
    rcases Emit.bind_error h with hbefore | ⟨before, t, hbefore, h₁⟩
    · cases hbefore
    cases hbefore
    rcases Emit.bind_error h₁ with htest | ⟨test, t', htest, h₂⟩
    · obtain ⟨g, hg, rfl⟩ := Emit.within_error htest
      exact .loopTest (Expr.stops_of_lowerTest hp hg hx)
    obtain ⟨rfl, code, hc, -⟩ := Expr.code_of_lowerTest hp (Emit.within_ok htest)
    rcases Emit.bind_error h₂ with hbody | ⟨inner, u, -, h₃⟩
    · obtain ⟨g, hg, rfl⟩ := Emit.within_error hbody
      exact .loopBlock hc (Stmt.stops_of_lowerAll body hp hg hx)
    rcases Emit.bind_error h₃ with hmod | ⟨_, u₁, -, hpure⟩
    · cases hmod
    · cases hpure

theorem Stmt.stops_of_lowerAll : ∀ (p : List Stmt) {s s' : State} {f : Lower.Fault} {x : String},
    s.pool.Distinct → Stmt.lowerAll p s = (.error f, s') → f.cause = .unassigned x →
    Stops s.pool x s.frame p
  | [], s, s', f, x, _, h, _ => by cases h
  | st :: p, s, s', f, x, hp, h, hx => by
    rcases Emit.bind_error h with hst | ⟨first, t, hst, htail⟩
    · exact Stmt.stops_of_lower st hp hst hx p
    obtain ⟨hpool, hcons⟩ := Stmt.lowers_of_lower st hp hst
    rcases Emit.bind_error htail with hall | ⟨others, u, -, hpure⟩
    · have hstop := Stmt.stops_of_lowerAll p (by rwa [hpool]) hall hx
      rw [hpool] at hstop
      exact .after (hcons (.nil _)) hstop
    · cases hpure

end

namespace Lower

theorem stops_of_generate {limit : Nat} {p : Program} {f : Fault} {x : String}
    (h : generate limit p = .error f) (hx : f.cause = .unassigned x) :
    Stops (.ofLimit limit) x .empty p := by
  unfold generate at h
  split at h
  · cases h
  · next g s hg =>
    cases h
    exact Stmt.stops_of_lowerAll p (Pool.distinct_ofLimit limit) hg hx

/-! ## Slots of assigned variables -/

/-- Every variable that may be read has a slot. -/
def Frame.Housed (f : Frame) : Prop := f.assigned ⊆ f.slots

theorem Frame.Housed.assign {f : Frame} (h : f.Housed) (x : String) : (f.assign x).2.Housed := by
  intro y hy
  rcases Frame.mem_assigned_assign.mp hy with rfl | hy
  · exact Frame.mem_slots_assign f y
  · exact (Frame.slots_prefix_assign f x).subset (h hy)

/-- The variables from before statements still have their slots after them. -/
theorem Lowers.housed_withAssigned {pool : Pool} {f g : Frame} {p : List Stmt} {code : Listing}
    (h : Lowers pool f p code g) (hf : f.Housed) : (g.withAssigned f.assigned).Housed :=
  fun _ hx => h.slots_prefix.subset (hf hx)

theorem Lowers.housed {pool : Pool} {f g : Frame} {p : List Stmt} {code : Listing}
    (h : Lowers pool f p code g) (hf : f.Housed) : g.Housed := by
  induction h with
  | nil f => exact hf
  | bare _ ih => exact ih hf
  | assign _ _ ih => exact ih (hf.assign _)
  | branch _ hy hn _ ihy ihn ih =>
    apply ih
    intro x hx
    exact ihn (hy.housed_withAssigned hf) (Frame.mem_assigned_meet.mp hx).1
  | loop _ hb _ _ ih => exact ih (hb.housed_withAssigned hf)

theorem Frame.Housed.not_mem_assigned {f : Frame} (h : f.Housed) {x : String}
    (hx : f.read? x = none) : x ∉ f.assigned := by
  intro hmem
  rw [Frame.read?, if_pos ⟨h hmem, hmem⟩] at hx
  cases hx

theorem Stops.not_mem_assigned {pool : Pool} {x : String} {f : Frame} {p : List Stmt}
    (h : Stops pool x f p) (hf : f.Housed) : x ∉ f.assigned := by
  induction h with
  | assign he => exact hf.not_mem_assigned he.read?_eq_none
  | branchTest hc => exact hf.not_mem_assigned hc.read?_eq_none
  | thenBlock _ _ ih => exact ih hf
  | elseBlock _ hy _ ih => exact ih (hy.housed_withAssigned hf)
  | loopTest hc => exact hf.not_mem_assigned hc.read?_eq_none
  | loopBlock _ _ ih => exact ih hf
  | after hl _ ih => exact fun hmem => ih (hl.housed hf) (hl.assigned_subset hmem)

end Lower

end Kennel
