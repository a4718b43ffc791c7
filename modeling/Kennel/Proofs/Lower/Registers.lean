import Kennel.Proofs.Lower.Frame
import Kennel.Proofs.Program
import Kennel.Proofs.Reading.Grammar

/-!
# How many registers a program needs

`Expr.need` counts the scratch registers that are lent at the same time while an expression is
lowered. The pool runs out only for an expression that needs more registers than are free
(`Stmt.restores_lowerAll`), and the code names only as many of the free ones as are needed
(`borrowed_of_lowers`). On the right of an operator stands what binds tighter, so a well-shaped tree
needs no more registers than there are priorities. Programs that have been read have only such
trees, hence three registers are enough for each of them (`borrowed_of_parse`).
-/

namespace Kennel

open Asm Lower

/-! ## Need -/

/-- The registers that are lent at once: the left operand is computed before its register is
borrowed, the right one while it is held. -/
def Expr.need : Expr → Nat
  | .atom _ => 0
  | .binary _ l r => max l.need (r.need + 1)

theorem Expr.WellShaped.need_le_rank {e : Expr} (h : e.WellShaped) : e.need ≤ e.rank := by
  induction e with
  | atom a => exact Nat.le_refl 0
  | binary op l r ihl ihr =>
    obtain ⟨hl, hr, wl, wr⟩ := h
    have := ihl wl
    have := ihr wr
    simp only [need, rank]
    omega

theorem Expr.WellShaped.need_le_loosest {e : Expr} (h : e.WellShaped) : e.need ≤ Op.loosest := by
  refine Nat.le_trans h.need_le_rank ?_
  cases e with
  | atom a => exact Nat.zero_le _
  | binary op l r => exact op.priority_le_loosest

theorem Reading.Items.wellShaped {n m : Nat} {ws : List String} {p : List Stmt}
    (h : Items n ws p m) : ∀ e ∈ Stmt.exprsAll p, e.WellShaped := by
  induction h with
  | nil n => intro e he; cases he
  | separator _ _ ih => exact ih
  | name _ _ ih => exact Stmt.forall_exprsAll_bare.mpr ih
  | assign _ _ he _ ih => exact Stmt.forall_exprsAll_assign.mpr ⟨he.1, ih⟩
  | branch hc _ _ _ _ _ ihy ihn ih =>
    exact Stmt.forall_exprsAll_branch.mpr ⟨hc.1, ⟨ihy, ihn⟩, ih⟩
  | loop hc _ _ _ ihb ih => exact Stmt.forall_exprsAll_loop.mpr ⟨hc.1, ihb, ih⟩

/-! ## Faults of a lowering -/

namespace Lower.Emit

variable {α β : Type} {s : State} {P : Cause → Prop}

/-- The computation leaves the pool as it was, and where it fails it has such a cause. -/
structure Restores (x : Emit α) (s : State) (P : Cause → Prop) : Prop where
  pool : (x s).2.pool = s.pool
  cause : ∀ f, (x s).1 = .error f → P f.cause

theorem Restores.ok {x : Emit α} {a : α} {t : State} (h : x s = (.ok a, t))
    (ht : t.pool = s.pool) : Restores x s P :=
  ⟨by rw [h]; exact ht, by rw [h]; intro f hf; cases hf⟩

theorem Restores.bind {x : Emit α} {f : α → Emit β} (hx : Restores x s P)
    (hf : ∀ a t, t.pool = s.pool → Restores (f a) t P) : Restores (x >>= f) s P := by
  obtain ⟨hpool, hcause⟩ := hx
  cases hrun : x s with
  | mk result t =>
    rw [hrun] at hpool hcause
    cases result with
    | ok a =>
      have h : (x >>= f) s = f a t := by rw [bind_apply, hrun]
      obtain ⟨hpool', hcause'⟩ := hf a t hpool
      exact ⟨by rw [h, hpool', hpool], by rw [h]; exact hcause'⟩
    | error e =>
      have h : (x >>= f) s = (.error e, t) := by rw [bind_apply, hrun]
      exact ⟨by rw [h]; exact hpool, by rw [h]; rintro g ⟨⟩; exact hcause e rfl⟩

theorem Restores.within {x : Emit α} (hx : Restores x s P) (context : String) :
    Restores (Emit.within context x) s P := by
  obtain ⟨hpool, hcause⟩ := hx
  cases hrun : x s with
  | mk result t =>
    rw [hrun] at hpool hcause
    cases result with
    | ok a =>
      have h : Emit.within context x s = (.ok a, t) := by simp only [Emit.within, hrun]
      exact .ok h hpool
    | error e =>
      have h : Emit.within context x s = (.error (e.within context), t) := by
        simp only [Emit.within, hrun]
      exact ⟨by rw [h]; exact hpool, by rw [h]; rintro g ⟨⟩; exact hcause e rfl⟩

/-- A loan fails as its body does, or because nothing is free. -/
theorem withScratch_cause {body : Register → Emit α} (hp : s.pool.Distinct)
    (hfree : s.pool.freeRegisters = [] → P (.outOfRegisters s.pool.size))
    (hbody : ∀ r pool, s.pool.acquire? = some (r, pool) →
      Restores (body r) { s with pool := pool } P) :
    ∀ f, (withScratch body s).1 = .error f → P f.cause := by
  intro f hf
  unfold withScratch acquire at hf
  cases hacq : s.pool.acquire? with
  | none =>
    simp only [hacq, fail] at hf
    cases hf
    exact hfree (Pool.freeRegisters_eq_nil hacq)
  | some p =>
    obtain ⟨r, pool⟩ := p
    obtain ⟨hpool, hcause⟩ := hbody r pool hacq
    cases hrun : body r { s with pool := pool } with
    | mk result t =>
      rw [hrun] at hpool hcause
      have hrel : t.pool.release? r = some s.pool := by
        rw [hpool]
        exact hp.release?_of_acquire? hacq
      simp only [hacq, hrun, release, hrel] at hf
      exact hcause f hf

end Lower.Emit

open Lower.Emit (Restores)

section

variable {P : Lower.Cause → Prop} (hu : ∀ x, P (.unassigned x))
include hu

theorem Expr.restores_lower (e : Expr) {pool : Pool} (hp : pool.Distinct)
    (ho : pool.freeRegisters.length < e.need → P (.outOfRegisters pool.size)) {s : State}
    (hs : s.pool = pool) : Restores e.lower s P := by
  refine ⟨by rw [e.lower_snd (by rwa [hs])], ?_⟩
  induction e generalizing pool s with
  | atom a =>
    intro f hf
    cases a with
    | literal n => cases hf
    | name x =>
      simp only [Expr.lower, Atom.lower, Emit.bind_apply, readSlot] at hf
      cases hread : s.frame.read? x with
      | some m => simp only [hread] at hf; cases hf
      | none => simp only [hread, Emit.fail] at hf; cases hf; exact hu x
  | binary op l r ihl ihr =>
    simp only [need] at ho
    have hleft : Restores l.lower s P :=
      ⟨by rw [l.lower_snd (by rwa [hs])], ihl hp (fun h => ho (by omega)) hs⟩
    have hright : ∀ {t : State} {q pool'}, t.pool = pool → t.pool.acquire? = some (q, pool') →
        Restores r.lower { t with pool := pool' } P := by
      intro t q pool' ht hacq
      rw [ht] at hacq
      have hd := hp.of_acquire? hacq
      refine ⟨by rw [r.lower_snd hd], ihr hd (fun h => ?_) rfl⟩
      have hlen := congrArg List.length (Pool.freeRegisters_of_acquire? hacq)
      rw [List.length_cons] at hlen
      rw [Pool.size_of_acquire? hacq]
      exact ho (by omega)
    refine (hleft.bind fun first t ht => ?_).cause
    replace ht := ht.trans hs
    have hpt : t.pool.Distinct := by rwa [ht]
    refine Restores.bind ⟨?_, Emit.withScratch_cause hpt (fun h => ?_) fun q pool' hacq => ?_⟩
      fun rest u _ => .ok rfl rfl
    · rw [Emit.withScratch_snd hpt fun q pool' hacq => ?_]
      exact Emit.bind_snd (r.lower_snd (hpt.of_acquire? hacq)) fun second => rfl
    · rw [ht] at h ⊢
      exact ho (by rw [h, List.length_nil]; omega)
    · exact (hright ht hacq).bind fun second u _ => .ok rfl rfl

theorem Expr.restores_lowerTest (c : Expr) (target : Label) {pool : Pool} (hp : pool.Distinct)
    (ho : pool.freeRegisters.length < c.need → P (.outOfRegisters pool.size)) {s : State}
    (hs : s.pool = pool) : Restores (c.lowerTest target) s P :=
  (c.restores_lower hu hp ho hs).bind fun _ _ _ => .ok rfl rfl

end

mutual

theorem Stmt.restores_lower {P : Lower.Cause → Prop} (hu : ∀ x, P (.unassigned x)) {pool : Pool}
    (hp : pool.Distinct) : ∀ (st : Stmt),
    (∀ e ∈ st.exprs, pool.freeRegisters.length < e.need → P (.outOfRegisters pool.size)) →
    ∀ s : State, s.pool = pool → Restores st.lower s P
  | .bare x, _, s, _ => .ok rfl rfl
  | .assign x e, ho, s, hs => by
    have he := e.restores_lower hu hp (ho e (by simp [Stmt.exprs])) hs
    refine (he.within _).bind fun code t _ => ?_
    exact Restores.bind (.ok rfl rfl) fun m u _ => .ok rfl rfl
  | .branch id c yes no, ho, s, hs => by
    have hc := c.restores_lowerTest hu (.numbered .otherwise id) hp (ho c (by simp [Stmt.exprs])) hs
    have hyes := Stmt.restores_lowerAll hu hp yes fun e he => ho e (by simp [Stmt.exprs, he])
    have hno := Stmt.restores_lowerAll hu hp no fun e he => ho e (by simp [Stmt.exprs, he])
    refine (hc.within _).bind fun test s₁ h₁ => ?_
    refine Restores.bind (.ok rfl rfl) fun before s₂ h₂ => ?_
    refine ((hyes s₂ (h₂.trans (h₁.trans hs))).within _).bind fun first s₃ h₃ => ?_
    refine Restores.bind (.ok rfl rfl) fun after s₄ h₄ => ?_
    refine Restores.bind (.ok rfl rfl) fun _ s₅ h₅ => ?_
    have h := h₅.trans (h₄.trans (h₃.trans (h₂.trans (h₁.trans hs))))
    refine ((hno s₅ h).within _).bind fun second s₆ _ => ?_
    exact Restores.bind (.ok rfl rfl) fun _ s₇ _ => .ok rfl rfl
  | .loop id c body, ho, s, hs => by
    have hbody := Stmt.restores_lowerAll hu hp body fun e he => ho e (by simp [Stmt.exprs, he])
    refine Restores.bind (.ok rfl rfl) fun before s₁ h₁ => ?_
    have hc := c.restores_lowerTest hu (.numbered .endLoop id) hp (ho c (by simp [Stmt.exprs]))
      (h₁.trans hs)
    refine (hc.within _).bind fun test s₂ h₂ => ?_
    refine ((hbody s₂ (h₂.trans (h₁.trans hs))).within _).bind fun code s₃ _ => ?_
    exact Restores.bind (.ok rfl rfl) fun _ s₄ _ => .ok rfl rfl

/-- Lowering fails for a variable that is not assigned, or for want of a register where an
expression needs more than are free. -/
theorem Stmt.restores_lowerAll {P : Lower.Cause → Prop} (hu : ∀ x, P (.unassigned x))
    {pool : Pool} (hp : pool.Distinct) : ∀ (p : List Stmt),
    (∀ e ∈ Stmt.exprsAll p, pool.freeRegisters.length < e.need → P (.outOfRegisters pool.size)) →
    ∀ s : State, s.pool = pool → Restores (Stmt.lowerAll p) s P
  | [], _, s, _ => .ok rfl rfl
  | st :: p, ho, s, hs => by
    have hst := Stmt.restores_lower hu hp st fun e he => ho e (by simp [Stmt.exprsAll, he])
    have hall := Stmt.restores_lowerAll hu hp p fun e he => ho e (by simp [Stmt.exprsAll, he])
    refine (hst s hs).bind fun first t ht => ?_
    exact (hall t (ht.trans hs)).bind fun others u _ => .ok rfl rfl

end

/-! ## Registers in the code -/

namespace Asm

def Operand.registers : Operand → List Register
  | .reg r => [r]
  | .imm _ => []
  | .mem base _ => [base]

def Instr.registers : Instr → List Register
  | .push r | .pop r => [r]
  | .mov source target => source.registers ++ target.registers
  | .xchg lhs rhs => [lhs, rhs]
  | .add source target | .sub source target | .imul source target | .cmp source target =>
    source.registers ++ [target]
  | .set _ target => [target]
  | .movzb source target => [source, target]
  | .ret | .jump .. | .call _ => []

/-- The registers that an item names. -/
def Item.registers : Item → List Register
  | .instr i => i.registers
  | .text | .global _ | .label _ => []

end Asm

namespace Lower

/-- The scratch registers that code names. -/
def borrowed (code : Listing) : List Register :=
  code.flatMap fun item => item.registers.filter (· ∈ scratchRegisters)

@[simp] theorem borrowed_nil : borrowed [] = [] := rfl

@[simp] theorem borrowed_append (s t : Listing) : borrowed (s ++ t) = borrowed s ++ borrowed t :=
  List.flatMap_append

@[simp] theorem borrowed_cons (item : Item) (code : Listing) :
    borrowed (item :: code) = item.registers.filter (· ∈ scratchRegisters) ++ borrowed code :=
  rfl

theorem borrowed_lower (op : Op) (q : Register) : borrowed (op.lower q) ⊆ [q] := by
  intro r hr
  cases op <;>
    simp [Op.lower, comparison, Item.registers, Instr.registers, Operand.registers,
      accumulator, scratchRegisters] at hr ⊢ <;>
    grind

theorem take_subset_take {regs : List Register} {n m : Nat} (h : n ≤ m) :
    regs.take n ⊆ regs.take m :=
  (List.take_prefix_take_left h).subset

/-- An expression borrows the first free registers, as many as it needs. -/
theorem borrowed_of_code {f : Frame} {pool : Pool} {e : Expr} {code : Listing}
    (h : e.Code f pool code) : borrowed code ⊆ pool.freeRegisters.take e.need := by
  induction h with
  | literal pool n => simp [Item.registers, Instr.registers, Operand.registers, accumulator,
      scratchRegisters]
  | @name pool x m hread =>
    obtain ⟨-, -, rfl⟩ := Frame.read?_eq_some hread
    simp [slot, Item.registers, Instr.registers, Operand.registers, accumulator, scratchRegisters]
  | @binary pool pool' op l r q first second hl hacq hr ihl ihr =>
    -- The loan of `q` takes the first free register; what is free meanwhile comes after it.
    have hfree := Pool.freeRegisters_of_acquire? hacq
    have hfirst : borrowed first ⊆ pool.freeRegisters.take (Expr.binary op l r).need :=
      List.Subset.trans ihl (take_subset_take (by simp only [Expr.need]; omega))
    have hinner : pool'.freeRegisters.take r.need ⊆
        pool.freeRegisters.take (Expr.binary op l r).need := by
      rw [hfree]
      refine List.Subset.trans ?_ (take_subset_take (n := r.need + 1)
        (by simp only [Expr.need]; omega))
      simp
    have hq : [q] ⊆ pool.freeRegisters.take (Expr.binary op l r).need := by
      rw [hfree]
      refine List.Subset.trans ?_ (take_subset_take (n := 1) (by simp only [Expr.need]; omega))
      simp
    have hmov : Item.registers (.instr (.mov (.reg accumulator) (.reg q))) = [accumulator, q] := rfl
    simp only [borrowed_append, borrowed_cons, hmov]
    refine List.append_subset.mpr ⟨hfirst, List.append_subset.mpr ⟨List.append_subset.mpr ⟨?_, ?_⟩,
      List.Subset.trans (borrowed_lower op q) hq⟩⟩
    · refine List.Subset.trans ?_ hq
      intro r hr
      simp [accumulator, scratchRegisters] at hr
      grind
    · exact List.Subset.trans ihr hinner

theorem borrowed_store (i : Nat) : borrowed [.instr (.mov (.reg accumulator) (slot i))] = [] :=
  rfl

theorem borrowed_branchCode (id : Nat) (test yes no : Listing) :
    borrowed (branchCode id test yes no) = borrowed test ++ borrowed yes ++ borrowed no := by
  simp [branchCode, testCode, Item.registers, Instr.registers, Operand.registers, accumulator,
    scratchRegisters]

theorem borrowed_loopCode (id : Nat) (test body : Listing) :
    borrowed (loopCode id test body) = borrowed test ++ borrowed body := by
  simp [loopCode, testCode, Item.registers, Instr.registers, Operand.registers, accumulator,
    scratchRegisters]

theorem borrowed_of_lowers {pool : Pool} {f g : Frame} {p : List Stmt} {code : Listing}
    (h : Lowers pool f p code g) {n : Nat} (hn : ∀ e ∈ Stmt.exprsAll p, e.need ≤ n) :
    borrowed code ⊆ pool.freeRegisters.take n := by
  have hexpr : ∀ {f : Frame} {e : Expr} {code : Listing}, e.Code f pool code → e.need ≤ n →
      borrowed code ⊆ pool.freeRegisters.take n :=
    fun hc he => List.Subset.trans (borrowed_of_code hc) (take_subset_take he)
  induction h with
  | nil f => exact List.nil_subset _
  | bare _ ih => exact ih (Stmt.forall_exprsAll_bare.mp hn)
  | @assign f g x e rest value code hc _ ih =>
    obtain ⟨hvalue, hrest⟩ := Stmt.forall_exprsAll_assign.mp hn
    have hstore : borrowed [.instr (.mov (.reg accumulator) (f.assign x).1)] = [] :=
      borrowed_store _
    rw [borrowed_append, borrowed_append, hstore, List.append_nil]
    exact List.append_subset.mpr ⟨hexpr hc hvalue, ih hrest⟩
  | branch hc _ _ _ ihy ihn ih =>
    obtain ⟨htest, ⟨hyes, hno⟩, hrest⟩ := Stmt.forall_exprsAll_branch.mp hn
    rw [borrowed_append, borrowed_branchCode]
    exact List.append_subset.mpr ⟨List.append_subset.mpr ⟨List.append_subset.mpr
      ⟨hexpr hc htest, ihy hyes⟩, ihn hno⟩, ih hrest⟩
  | loop hc _ _ ihb ih =>
    obtain ⟨htest, hbody, hrest⟩ := Stmt.forall_exprsAll_loop.mp hn
    rw [borrowed_append, borrowed_loopCode]
    exact List.append_subset.mpr ⟨List.append_subset.mpr ⟨hexpr hc htest, ihb hbody⟩, ih hrest⟩

theorem borrowed_routine (f : Frame) (body : Listing) :
    borrowed (routine f body) = borrowed body ++ [.rdi] := by
  unfold routine Frame.reserve
  split <;>
    simp [Item.registers, Instr.registers, Operand.registers, accumulator, scratchRegisters]

end Lower

/-! ## Programs that have been read -/

theorem need_le_of_parse {source : String} {p : Program} (h : Reading.parse source = .ok p) :
    ∀ e ∈ Stmt.exprsAll p, e.need ≤ 3 := by
  obtain ⟨m, hi⟩ := Reading.items_of_program h
  exact fun e he => (hi.wellShaped e he).need_le_loosest

theorem cause_of_generate {P : Lower.Cause → Prop} (hu : ∀ x, P (.unassigned x)) {limit : Nat}
    {p : Program} (ho : ∀ e ∈ Stmt.exprsAll p, (scratchRegisters.take limit).length < e.need →
      P (.outOfRegisters (Pool.ofLimit limit).size)) {f : Lower.Fault}
    (h : generate limit p = .error f) : P f.cause := by
  rw [← Pool.freeRegisters_ofLimit] at ho
  have hall := Stmt.restores_lowerAll hu (Pool.distinct_ofLimit limit) p ho (.ofLimit limit) rfl
  unfold generate at h
  split at h
  · cases h
  · next g s hg =>
    cases h
    exact hall.cause f (by rw [hg])

theorem unassigned_of_generate {limit n : Nat} {p : Program} {f : Lower.Fault}
    (hp : ∀ e ∈ Stmt.exprsAll p, e.need ≤ n) (hn : n ≤ (scratchRegisters.take limit).length)
    (h : generate limit p = .error f) : ∃ x, f.cause = .unassigned x := by
  refine cause_of_generate (P := fun c => ∃ x, c = .unassigned x) (fun x => ⟨x, rfl⟩) ?_ h
  intro e he hlt
  have := hp e he
  omega

/-- Three registers are enough for a program that has been read: with them or more of them only an
unassigned variable stands in the way of a listing, and the listing names no other ones. -/
theorem borrowed_of_parse {source : String} {p : Program} (hp : Reading.parse source = .ok p)
    {limit : Nat} (hk : 3 ≤ limit) :
    (∀ f, compileWith limit source = .error f →
      ∃ g x, f = .lowering g ∧ g.cause = .unassigned x) ∧
    ∀ code, compileWith limit source = .ok code → borrowed code ⊆ [.rcx, .rsi, .rdi] := by
  have hneed := need_le_of_parse hp
  constructor
  · intro f hf
    simp only [compileWith, hp] at hf
    split at hf
    · next g hg =>
      cases hf
      obtain ⟨x, hx⟩ := unassigned_of_generate hneed
        (by
          simp only [scratchRegisters, List.length_take, List.length_cons, List.length_nil]
          omega) hg
      exact ⟨g, x, rfl, hx⟩
    · cases hf
  · intro code hc
    obtain ⟨q, hq, hg⟩ := generate_of_compileWith hc
    obtain rfl : p = q := by rw [hp] at hq; cases hq; rfl
    obtain ⟨body, f, hl, rfl⟩ := lowers_of_generate hg
    have hbody := borrowed_of_lowers hl hneed
    rw [Pool.freeRegisters_ofLimit, List.take_take, Nat.min_eq_left hk] at hbody
    rw [borrowed_routine]
    exact List.append_subset.mpr ⟨hbody, by simp⟩

/-- An operator of each priority, the loosest first. -/
def nestedSource : String := "x AWOO 1 YIP 2 WOOF 3 ARF 4"

def nestedProgram : Program :=
  [.assign "x" (.binary .less (.atom (.literal 1)) (.binary .add (.atom (.literal 2))
    (.binary .multiply (.atom (.literal 3)) (.atom (.literal 4)))))]

/-- Three registers are enough for it, and two are not. -/
theorem borrowed_nested :
    Reading.parse nestedSource = .ok nestedProgram ∧
    (∃ code, compileWith 3 nestedSource = .ok code ∧ borrowed code ⊆ [.rcx, .rsi, .rdi]) ∧
    ∃ g, compileWith 2 nestedSource = .error (.lowering g) ∧ g.cause = .outOfRegisters 2 := by
  have hp : Reading.parse nestedSource = .ok nestedProgram := rfl
  obtain ⟨code, hg⟩ : ∃ code, generate 3 nestedProgram = .ok code := ⟨_, rfl⟩
  obtain ⟨g, hg', hcause⟩ : ∃ g, generate 2 nestedProgram = .error g ∧
      g.cause = .outOfRegisters 2 := ⟨_, rfl, rfl⟩
  have hc : compileWith 3 nestedSource = .ok code := by simp only [compileWith, hp, hg]
  have hc' : compileWith 2 nestedSource = .error (.lowering g) := by
    simp only [compileWith, hp, hg']
  exact ⟨hp, ⟨code, hc, (borrowed_of_parse hp (Nat.le_refl 3)).2 code hc⟩, g, hc', hcause⟩

end Kennel
