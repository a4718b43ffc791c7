import Kennel.Proofs.Lower.Registers
import Kennel.Proofs.Lower.Stops

/-!
# The number of registers as a threshold

The code of an expression depends on the pool only through the first free registers, as many as the
expression needs (`Expr.Code.of_free`), and it cannot be had with fewer (`Expr.Code.need_le`). The
frames that a lowering passes through do not depend on the pool at all (`Lowers.frame_unique`), so
neither does the point where a variable may not be read (`Stops.not_lowers`). Hence a program with
a listing has the same one for every limit that covers what it needs, and below that the registers
run out (`generate_threshold`).
-/

namespace Kennel

open Asm Lower

/-- The most registers that any expression of a program needs. -/
def Program.need (p : Program) : Nat := (Stmt.exprsAll p).foldr (fun e n => max e.need n) 0

theorem Program.need_le_iff {p : Program} {n : Nat} :
    p.need ≤ n ↔ ∀ e ∈ Stmt.exprsAll p, e.need ≤ n := by
  unfold need
  induction Stmt.exprsAll p with
  | nil => simp
  | cons e es ih =>
    rw [List.foldr_cons, List.forall_mem_cons, ← ih]
    omega

/-! ## Code and the free registers -/

theorem Lower.Pool.exists_acquire? {pool : Pool} {r : Register} {rest : List Register}
    (h : pool.freeRegisters = r :: rest) :
    ∃ pool', pool.acquire? = some (r, pool') ∧ pool'.freeRegisters = rest := by
  cases hacq : pool.acquire? with
  | none =>
    rw [Pool.freeRegisters_eq_nil hacq] at h
    cases h
  | some loan =>
    obtain ⟨q, pool'⟩ := loan
    rw [Pool.freeRegisters_of_acquire? hacq] at h
    cases h
    exact ⟨pool', rfl, rfl⟩

/-- There is no code without the registers that it needs. -/
theorem Expr.Code.need_le {f : Frame} {pool : Pool} {e : Expr} {code : Listing}
    (h : e.Code f pool code) : e.need ≤ pool.freeRegisters.length := by
  induction h with
  | literal => exact Nat.zero_le _
  | name => exact Nat.zero_le _
  | binary _ hacq _ ihl ihr =>
    rw [Pool.freeRegisters_of_acquire? hacq, List.length_cons] at ihl ⊢
    simp only [Expr.need]
    omega

/-- A pool whose free registers begin with the same ones gives the same code. -/
theorem Expr.Code.of_free {f : Frame} {pool pool' : Pool} {e : Expr} {code : Listing}
    (h : e.Code f pool code) {n : Nat} (hn : e.need ≤ n)
    (hfree : pool'.freeRegisters.take n = pool.freeRegisters.take n) : e.Code f pool' code := by
  induction h generalizing pool' n with
  | literal pool k => exact .literal pool' k
  | name pool hread => exact .name pool' hread
  | @binary pool pool₁ op l r q first second _ hacq _ ihl ihr =>
    simp only [Expr.need] at hn
    obtain ⟨m, rfl⟩ : ∃ m, n = m + 1 := ⟨n - 1, by omega⟩
    have hleft := ihl (by omega) hfree
    -- The loan takes the same register from both pools; the registers after it agree as well.
    rw [Pool.freeRegisters_of_acquire? hacq, List.take_succ_cons] at hfree
    cases hregs : pool'.freeRegisters with
    | nil =>
      rw [hregs] at hfree
      cases hfree
    | cons q' rest =>
      rw [hregs, List.take_succ_cons] at hfree
      obtain ⟨rfl, hrest⟩ := List.cons.inj hfree
      obtain ⟨pool₂, hacq', hfree'⟩ := Pool.exists_acquire? hregs
      rw [← hfree'] at hrest
      exact .binary hleft hacq' (ihr (by omega) hrest)

namespace Lower

variable {pool pool' : Pool} {f g g' : Frame} {p : List Stmt} {code code' : Listing}

theorem Lowers.need_le (h : Lowers pool f p code g) :
    ∀ e ∈ Stmt.exprsAll p, e.need ≤ pool.freeRegisters.length := by
  induction h with
  | nil f => exact fun e he => absurd he List.not_mem_nil
  | bare _ ih => exact Stmt.forall_exprsAll_bare.mpr ih
  | assign he _ ih => exact Stmt.forall_exprsAll_assign.mpr ⟨he.need_le, ih⟩
  | branch hc _ _ _ ihy ihn ih =>
    exact Stmt.forall_exprsAll_branch.mpr ⟨hc.need_le, ⟨ihy, ihn⟩, ih⟩
  | loop hc _ _ ihb ih => exact Stmt.forall_exprsAll_loop.mpr ⟨hc.need_le, ihb, ih⟩

theorem Lowers.of_free (h : Lowers pool f p code g) {n : Nat}
    (hn : ∀ e ∈ Stmt.exprsAll p, e.need ≤ n)
    (hfree : pool'.freeRegisters.take n = pool.freeRegisters.take n) :
    Lowers pool' f p code g := by
  induction h with
  | nil f => exact .nil f
  | bare _ ih => exact .bare (ih (Stmt.forall_exprsAll_bare.mp hn))
  | assign he _ ih =>
    obtain ⟨hvalue, hrest⟩ := Stmt.forall_exprsAll_assign.mp hn
    exact .assign (he.of_free hvalue hfree) (ih hrest)
  | branch hc _ _ _ ihy ihn ih =>
    obtain ⟨htest, ⟨hyes, hno⟩, hrest⟩ := Stmt.forall_exprsAll_branch.mp hn
    exact .branch (hc.of_free htest hfree) (ihy hyes) (ihn hno) (ih hrest)
  | loop hc _ _ ihb ih =>
    obtain ⟨htest, hbody, hrest⟩ := Stmt.forall_exprsAll_loop.mp hn
    exact .loop (hc.of_free htest hfree) (ihb hbody) (ih hrest)

/-! ## Frames and the pool -/

/-- The frame after statements does not depend on the pool. -/
theorem Lowers.frame_unique (h : Lowers pool f p code g) (h' : Lowers pool' f p code' g') :
    g = g' := by
  induction h generalizing code' g' with
  | nil f => cases h'; rfl
  | bare _ ih => cases h' with | bare hrest => exact ih hrest
  | assign _ _ ih => cases h' with | assign _ hrest => exact ih hrest
  | branch _ _ _ _ ihy ihn ih =>
    cases h' with
    | branch _ hy hn hrest =>
      obtain rfl := ihy hy
      obtain rfl := ihn hn
      exact ih hrest
  | loop _ _ _ ihb ih =>
    cases h' with
    | loop _ hb hrest =>
      obtain rfl := ihb hb
      exact ih hrest

/-- The code of statements is that of the first one and then that of the rest. -/
theorem Lowers.uncons {s : Stmt} (h : Lowers pool f (s :: p) code g) :
    ∃ f' first others, Lowers pool f [s] first f' ∧ Lowers pool f' p others g := by
  cases h with
  | bare hrest => exact ⟨_, _, _, .bare (.nil _), hrest⟩
  | assign he hrest => exact ⟨_, _, _, .assign he (.nil _), hrest⟩
  | branch hc hy hn hrest => exact ⟨_, _, _, .branch hc hy hn (.nil _), hrest⟩
  | loop hc hb hrest => exact ⟨_, _, _, .loop hc hb (.nil _), hrest⟩

end Lower

/-- An expression that stops at a variable has no code, from whatever pool. -/
theorem Expr.Stops.not_code {f : Frame} {x : String} {pool pool' : Pool} {e : Expr}
    {code : Listing} (h : e.Stops f x pool) : ¬ e.Code f pool' code := by
  induction h generalizing pool' code with
  | name pool hnone =>
    intro hc
    cases hc with
    | name _ hread => cases hnone.symm.trans hread
  | left _ ih => intro hc; cases hc with | binary hl _ _ => exact ih hl
  | right _ _ _ ih => intro hc; cases hc with | binary _ _ hr => exact ih hr

namespace Lower

theorem Stops.not_lowers {x : String} {pool pool' : Pool} {f g : Frame} {p : List Stmt}
    {code : Listing} (h : Stops pool x f p) : ¬ Lowers pool' f p code g := by
  induction h generalizing code g with
  | assign he => intro hl; cases hl with | assign hc _ => exact he.not_code hc
  | branchTest he => intro hl; cases hl with | branch hc _ _ _ => exact he.not_code hc
  | thenBlock _ _ ih => intro hl; cases hl with | branch _ hy _ _ => exact ih hy
  | elseBlock _ hy _ ih =>
    intro hl
    cases hl with
    | branch _ hy' hn _ =>
      rw [hy'.frame_unique hy] at hn
      exact ih hn
  | loopTest he => intro hl; cases hl with | loop hc _ _ => exact he.not_code hc
  | loopBlock _ _ ih => intro hl; cases hl with | loop _ hb _ => exact ih hb
  | after hs _ ih =>
    intro hl
    obtain ⟨f', first, others, hs', hrest⟩ := hl.uncons
    rw [hs'.frame_unique hs] at hrest
    exact ih hrest

/-! ## Limits -/

theorem length_take_scratchRegisters (k : Nat) : (scratchRegisters.take k).length = min k 8 :=
  List.length_take

theorem Pool.size_ofLimit (k : Nat) : (Pool.ofLimit k).size = min k 8 := by
  rw [← length_take_scratchRegisters, ← Pool.registers_ofLimit, Pool.size, Pool.registers,
    List.length_map]

/-- A program that has a listing under some limit has this one under every limit that covers what
it needs; under any other the registers run out. -/
theorem generate_threshold {limit : Nat} {p : Program} {code : Listing}
    (h : generate limit p = .ok code) (k : Nat) :
    (p.need ≤ min k 8 → generate k p = .ok code) ∧
    (min k 8 < p.need →
      ∃ fault, generate k p = .error fault ∧ fault.cause = .outOfRegisters (min k 8)) := by
  obtain ⟨body, f, hl, rfl⟩ := lowers_of_generate h
  have hneed : p.need ≤ min limit 8 := by
    rw [← length_take_scratchRegisters, ← Pool.freeRegisters_ofLimit]
    exact Program.need_le_iff.mpr hl.need_le
  constructor
  · intro hk
    refine (hl.of_free (Program.need_le_iff.mp (Nat.le_refl p.need)) ?_).generate_eq
    rw [Pool.freeRegisters_ofLimit, Pool.freeRegisters_ofLimit, List.take_take, List.take_take,
      Nat.min_eq_left (by omega), Nat.min_eq_left (by omega)]
  · intro hk
    cases hg : generate k p with
    | ok code' =>
      obtain ⟨body', f', hl', -⟩ := lowers_of_generate hg
      have hle := Program.need_le_iff.mpr hl'.need_le
      rw [Pool.freeRegisters_ofLimit, length_take_scratchRegisters] at hle
      omega
    | error fault =>
      have hcause := cause_of_generate
        (P := fun c => (∃ x, c = .unassigned x) ∨ c = .outOfRegisters (min k 8))
        (fun x => .inl ⟨x, rfl⟩) (fun _ _ _ => .inr (by rw [Pool.size_ofLimit])) hg
      refine ⟨fault, rfl, hcause.resolve_left ?_⟩
      rintro ⟨x, hx⟩
      exact (stops_of_generate hg hx).not_lowers hl

/-- One register is enough for the difference of three numbers that groups to the left, and the
one that groups to the right needs two. -/
def groupedBothWays : Program :=
  [.assign "x" (.binary .subtract (.binary .subtract (.atom (.literal 9)) (.atom (.literal 3)))
    (.atom (.literal 2))),
   .loop 0 (.atom (.name "x"))
    [.assign "x" (.binary .subtract (.atom (.name "x"))
      (.binary .subtract (.atom (.literal 3)) (.atom (.literal 2))))]]

theorem generate_groupedBothWays :
    groupedBothWays.need = 2 ∧
    (∃ code, generate 2 groupedBothWays = .ok code ∧ generate 100 groupedBothWays = .ok code) ∧
    ∃ fault, generate 1 groupedBothWays = .error fault ∧ fault.cause = .outOfRegisters 1 := by
  have hneed : groupedBothWays.need = 2 := rfl
  obtain ⟨code, hc⟩ : ∃ code, generate 2 groupedBothWays = .ok code := ⟨_, rfl⟩
  exact ⟨hneed, ⟨code, hc, (generate_threshold hc 100).1 (by rw [hneed]; decide)⟩,
    (generate_threshold hc 1).2 (by rw [hneed]; decide)⟩

end Lower

end Kennel
