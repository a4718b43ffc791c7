import Kennel.Eval.Expr
import Kennel.Proofs.Lower.Frame
import Kennel.Proofs.Machine.Run
import Mathlib.Data.List.Basic

/-!
# The code of expressions, executed

The code of an expression can be executed straight through. It leaves the value of the expression
in the accumulator, and of memory and the other registers it changes only those that were free
(`Expr.Code.through?`).
-/

namespace Kennel

open Asm Lower Eval Machine

namespace Machine

/-- The second processor differs from the first at most in the accumulator, the flags and the free
registers. -/
structure Kept (free : Register → Prop) (c c' : Cpu) : Prop where
  mem : c'.mem = c.mem
  get : ∀ r, r ≠ .rax → r ≠ .al → ¬ free r → c'.get r = c.get r

namespace Kept

variable {free free' : Register → Prop} {c c' c'' : Cpu}

theorem trans (h : Kept free c c') (h' : Kept free c' c'') : Kept free c c'' :=
  ⟨h'.mem.trans h.mem, fun r ha hl hr => (h'.get r ha hl hr).trans (h.get r ha hl hr)⟩

theorem mono (h : Kept free c c') (hf : ∀ r, free r → free' r) : Kept free' c c' :=
  ⟨h.mem, fun r ha hl hr => h.get r ha hl (mt (hf r) hr)⟩

theorem set_rax (free : Register → Prop) (c : Cpu) (v : Int64) : Kept free c (c.set .rax v) :=
  ⟨Cpu.mem_set .., fun _ ha hl _ => Cpu.get_set_ne (by decide) hl ha⟩

theorem set_free (c : Cpu) {r : Register} (v : Int64) (hr : free r) (hl : r ≠ .al) :
    Kept free c (c.set r v) :=
  ⟨Cpu.mem_set .., fun _ _ hl' hq => Cpu.get_set_ne hl hl' fun e => hq (e ▸ hr)⟩

theorem flags (free : Register → Prop) (c : Cpu) (flags : Int64 × Int64) :
    Kept free c { c with flags := flags } :=
  ⟨rfl, fun r _ _ _ => by cases r <;> rfl⟩

end Kept

/-- The slots of these names hold the values of the variables. -/
def Stored (entry : Int64) (slots names : List String) (vars : Store) (c : Cpu) : Prop :=
  ∀ x ∈ names, x ∈ slots ∧
    ∃ v, vars.get? x = some v ∧ c.load? entry (slot (slots.idxOf x)) = some v

theorem Cpu.address?_congr (entry : Int64) {c c' : Cpu} {base : Register} (offset : Int)
    (hbase : c'.get base = c.get base) (hsp : c'.get .rsp = c.get .rsp) :
    c'.address? entry base offset = c.address? entry base offset := by
  simp only [Cpu.address?, hbase, hsp]

theorem Stored.kept {entry : Int64} {slots names : List String} {vars : Store} {c c' : Cpu}
    {free : Register → Prop} (h : Stored entry slots names vars c) (hk : Kept free c c')
    (hbp : ¬ free .rbp) (hsp : ¬ free .rsp) : Stored entry slots names vars c' := by
  intro x hx
  obtain ⟨hslot, v, hv, hload⟩ := h x hx
  refine ⟨hslot, v, hv, ?_⟩
  have haddr := Cpu.address?_congr entry (-(8 * ((slots.idxOf x : Int) + 1)))
    (hk.get .rbp (by decide) (by decide) hbp) (hk.get .rsp (by decide) (by decide) hsp)
  rw [← hload]
  simp only [slot, Cpu.load?, haddr, hk.mem]

/-- A comparison goes through the low byte of the accumulator, which is then widened. -/
theorem through?_comparison (entry : Int64) (condition : Condition) (c : Cpu) (q : Register) :
    ∃ c', c.through? entry (comparison q condition) = some c' ∧
      c'.get .rax =
        (if { c with flags := (c.get q, c.get .rax) : Cpu }.holds condition then 1 else 0) ∧
      Kept (· = q) c c' := by
  let c₁ : Cpu := { c with flags := (c.get q, c.get .rax) }
  let c₂ := c₁.set .al (if c₁.holds condition then 1 else 0)
  refine ⟨c₂.set .rax (c₂.get .al &&& 255), rfl, ?_, ?_⟩
  · rw [Cpu.get_set_self (by decide), Cpu.get_al_set_al]
    show _ = if c₁.holds condition then 1 else 0
    split <;> decide
  · have hset : Kept (· = q) c₁ c₂ := ⟨Cpu.mem_set .., fun _ ha hl _ => Cpu.get_set_al hl ha⟩
    exact ((Kept.flags ..).trans hset).trans (.set_rax ..)

/-- The operator between a register and the accumulator. -/
theorem through?_lower (entry : Int64) (op : Op) (c : Cpu) {q : Register} (hq : q ≠ .rax)
    (hl : q ≠ .al) :
    ∃ c', c.through? entry (op.lower q) = some c' ∧
      c'.get .rax = op.apply (c.get q) (c.get .rax) ∧ Kept (· = q) c c' := by
  have hrax : Register.rax ≠ .al := by decide
  cases op with
  | add =>
    refine ⟨c.set .rax (c.get .rax + c.get q), rfl, ?_, .set_rax ..⟩
    rw [Cpu.get_set_self hrax, Int64.add_comm]
    rfl
  | multiply =>
    refine ⟨c.set .rax (c.get .rax * c.get q), rfl, ?_, .set_rax ..⟩
    rw [Cpu.get_set_self hrax, Int64.mul_comm]
    rfl
  | subtract =>
    let c₁ := (c.set .rax (c.get q)).set q (c.get .rax)
    refine ⟨c₁.set .rax (c₁.get .rax - c₁.get q), rfl, ?_, ?_⟩
    · have hleft : c₁.get .rax = c.get q := by
        rw [Cpu.get_set_ne hl hrax (Ne.symm hq), Cpu.get_set_self hrax]
      have hright : c₁.get q = c.get .rax := Cpu.get_set_self hl
      rw [Cpu.get_set_self hrax, hleft, hright]
      rfl
    · have hswap : Kept (· = q) c c₁ := (Kept.set_rax ..).trans (.set_free _ _ rfl hl)
      exact hswap.trans (.set_rax ..)
  | less =>
    obtain ⟨c', hc', hv, hk⟩ := through?_comparison entry .less c q
    refine ⟨c', hc', ?_, hk⟩
    rw [hv]
    simp [Cpu.holds, Op.apply]
  | greater =>
    obtain ⟨c', hc', hv, hk⟩ := through?_comparison entry .greater c q
    refine ⟨c', hc', ?_, hk⟩
    rw [hv]
    simp [Cpu.holds, Op.apply]

end Machine

theorem Expr.eval_binary_eq_ok {op : Op} {l r : Expr} {vars : Store} {v : Int64}
    (h : (Expr.binary op l r).eval vars = .ok v) :
    ∃ a b, l.eval vars = .ok a ∧ r.eval vars = .ok b ∧ v = op.apply a b := by
  unfold Expr.eval at h
  split at h
  · cases h
  · next a ha =>
    split at h
    · cases h
    · next b hb => cases h; exact ⟨a, b, ha, hb, rfl⟩

/-- Executing the code of an expression. -/
theorem Expr.Code.through? {f : Frame} {pool : Pool} {e : Expr} {code : Listing}
    (h : e.Code f pool code) (hp : pool.Distinct) (hr : pool.registers ⊆ scratchRegisters)
    {entry : Int64} {slots : List String} (hf : f.slots <+: slots) {vars : Store} {v : Int64}
    {c : Cpu} (hs : Stored entry slots f.assigned vars c) (hv : e.eval vars = .ok v) :
    ∃ c', c.through? entry code = some c' ∧ c'.get .rax = v ∧ Kept pool.Free c c' := by
  induction h generalizing c v with
  | literal pool n =>
    cases hv
    refine ⟨c.set .rax n, ?_, Cpu.get_set_self (by decide), .set_rax ..⟩
    simp [Cpu.through?, Cpu.exec?, Cpu.load?, Cpu.store?, accumulator]
  | @name pool x m hread =>
    obtain ⟨hx, ha, rfl⟩ := Frame.read?_eq_some hread
    obtain ⟨-, w, hw, hload⟩ := hs x ha
    obtain rfl : w = v := by simpa [Expr.eval, Atom.eval, hw] using hv
    rw [← hf.idxOf_eq_of_mem hx] at hload
    refine ⟨c.set .rax w, ?_, Cpu.get_set_self (by decide), .set_rax ..⟩
    simp [Cpu.through?, Cpu.exec?, hload, Cpu.store?, accumulator]
  | @binary pool pool' op l r q first second hl hacq hr' ihl ihr =>
    obtain ⟨a, b, ha, hb, rfl⟩ := Expr.eval_binary_eq_ok hv
    have hq : q ∈ scratchRegisters := hr (Pool.mem_registers_of_acquire? hacq)
    have hqa : q ≠ .rax := by rintro rfl; exact absurd hq (by decide)
    have hql : q ≠ .al := by rintro rfl; exact absurd hq (by decide)
    have hfree : ∀ r, pool.Free r → r ∈ scratchRegisters := fun r h =>
      hr (List.mem_map_of_mem h)
    obtain ⟨c₁, h₁, hv₁, hk₁⟩ := ihl hp hr hs ha
    have hk₂ : Kept pool.Free c₁ (c₁.set q a) :=
      .set_free _ _ (Pool.free_of_acquire? hacq) hql
    have hs₂ := hs.kept (hk₁.trans hk₂) (fun h => absurd (hfree _ h) (by decide))
      (fun h => absurd (hfree _ h) (by decide))
    obtain ⟨c₃, h₃, hv₃, hk₃⟩ := ihr (hp.of_acquire? hacq)
      (by rwa [Pool.registers_of_acquire? hacq]) hs₂ hb
    have hq₃ : c₃.get q = a := by
      rw [hk₃.get q hqa hql fun h => ((hp.free_of_acquire? hacq).mp h).1 rfl,
        Cpu.get_set_self hql]
    obtain ⟨c₄, h₄, hv₄, hk₄⟩ := through?_lower entry op c₃ hqa hql
    refine ⟨c₄, ?_, by rw [hv₄, hq₃, hv₃], ?_⟩
    · simp [Cpu.through?_append, h₁, Cpu.through?, Cpu.exec?, Cpu.load?, Cpu.store?, accumulator,
        hv₁, h₃, h₄]
    · have hk₃' := hk₃.mono fun r h => ((hp.free_of_acquire? hacq).mp h).2
      have hk₄' := hk₄.mono fun r (h : r = q) => h ▸ Pool.free_of_acquire? hacq
      exact ((hk₁.trans hk₂).trans hk₃').trans hk₄'

end Kennel
