import Kennel.Proofs.Machine.Simulation

/-!
# What the code of an expression writes

`Instr.written` and `Instr.writesMemory` say of an instruction what it may change, and executing it
changes nothing else (`Confined.kept`). The code of an expression writes the accumulator and
registers that were free when it was lowered (`Expr.Code.confined`). So an expression may be lowered
while any registers are lent: executing its code gives its value, and memory, stack, frame pointer
and the lent registers stay as they were (`Expr.executes_of_lower`).
-/

namespace Kennel

open Asm Lower Eval Machine

/-! ## Instructions -/

namespace Asm

/-- The register of 64 bits that a register is a part of. -/
def Register.whole : Register → Register
  | .al => .rax
  | r => r

@[simp] theorem Register.whole_al : Register.whole .al = .rax := rfl

@[simp] theorem Register.whole_rax : Register.whole .rax = .rax := rfl

theorem Register.whole_cases (r : Register) : r.whole = .rax ∨ r.whole = r := by
  cases r with
  | al => exact .inl rfl
  | _ => exact .inr rfl

theorem Register.whole_of_ne_al {r : Register} (h : r ≠ .al) : r.whole = r := by
  cases r <;> first | exact absurd rfl h | rfl

/-- The registers of 64 bits that an instruction writes. What a call does is left to the routine
that is called. -/
def Instr.written : Instr → List Register
  | .push _ => [.rsp]
  | .pop r => [.rsp, r.whole]
  | .mov _ (.reg r) => [r.whole]
  | .mov _ (.imm _) | .mov _ (.mem ..) => []
  | .xchg lhs rhs => [lhs.whole, rhs.whole]
  | .add _ target | .sub _ target | .imul _ target | .set _ target | .movzb _ target =>
    [target.whole]
  | .cmp .. | .ret | .jump .. | .call _ => []

/-- Whether an instruction writes a word of memory; the word that is popped is gone afterwards. -/
def Instr.writesMemory : Instr → Bool
  | .push _ | .pop _ | .mov _ (.mem ..) => true
  | _ => false

end Asm

namespace Machine

namespace Cpu

variable {entry : Int64} {c c' : Cpu} {i : Instr} {r q : Register}

theorem get_set_of_ne_whole (v : Int64) (hq : q ≠ .al) (h : q ≠ r.whole) :
    (c.set r v).get q = c.get q := by
  by_cases hr : r = .al
  · subst hr
    exact get_set_al hq h
  · rw [Register.whole_of_ne_al hr] at h
    exact get_set_ne hr hq h

theorem get_of_exec? (h : c.exec? entry i = some c') (hq : q ≠ .al) (hw : q ∉ i.written) :
    c'.get q = c.get q := by
  cases i with
  | push r =>
    obtain ⟨sp, -, rfl⟩ := Option.map_eq_some_iff.mp h
    have hsp : q ≠ Register.whole .rsp := List.ne_of_not_mem_cons hw
    rw [get_write, get_set_of_ne_whole sp hq hsp]
  | pop r =>
    obtain ⟨sp, -, rfl⟩ := Option.map_eq_some_iff.mp h
    simp only [Instr.written, List.mem_cons, List.not_mem_nil, or_false, not_or] at hw
    have hsp : q ≠ Register.whole .rsp := hw.1
    rw [get_set_of_ne_whole _ hq hw.2, get_write, get_set_of_ne_whole sp hq hsp]
  | mov source target =>
    obtain ⟨v, -, hstore⟩ := Option.bind_eq_some_iff.mp h
    cases target with
    | reg r =>
      cases hstore
      exact get_set_of_ne_whole v hq (List.ne_of_not_mem_cons hw)
    | imm n => cases hstore
    | mem base offset =>
      obtain ⟨a, -, rfl⟩ := Option.map_eq_some_iff.mp hstore
      exact get_write ..
  | xchg lhs rhs =>
    cases h
    simp only [Instr.written, List.mem_cons, List.not_mem_nil, or_false, not_or] at hw
    rw [get_set_of_ne_whole _ hq hw.2, get_set_of_ne_whole _ hq hw.1]
  | add source target | sub source target | imul source target =>
    obtain ⟨v, -, rfl⟩ := Option.map_eq_some_iff.mp h
    exact get_set_of_ne_whole _ hq (List.ne_of_not_mem_cons hw)
  | cmp source target =>
    obtain ⟨v, -, rfl⟩ := Option.map_eq_some_iff.mp h
    cases q <;> rfl
  | set condition target | movzb source target =>
    cases h
    exact get_set_of_ne_whole _ hq (List.ne_of_not_mem_cons hw)
  | ret | jump | call => cases h

theorem mem_of_exec? (h : c.exec? entry i = some c') (hw : i.writesMemory = false) :
    c'.mem = c.mem := by
  cases i with
  | push | pop => cases hw
  | mov source target =>
    obtain ⟨v, -, hstore⟩ := Option.bind_eq_some_iff.mp h
    cases target with
    | reg r => cases hstore; exact mem_set ..
    | imm n => cases hstore
    | mem base offset => cases hw
  | xchg lhs rhs => cases h; rw [mem_set, mem_set]
  | add | sub | imul =>
    obtain ⟨v, -, rfl⟩ := Option.map_eq_some_iff.mp h
    exact mem_set ..
  | cmp =>
    obtain ⟨v, -, rfl⟩ := Option.map_eq_some_iff.mp h
    rfl
  | set | movzb => cases h; exact mem_set ..
  | ret | jump | call => cases h

end Cpu

/-- An instruction that writes nothing but the accumulator, the flags and the free registers. -/
def Confined (free : Register → Prop) (item : Item) : Prop :=
  ∃ i, item = .instr i ∧ i.writesMemory = false ∧ ∀ r ∈ i.written, r = .rax ∨ free r

theorem Confined.mono {free free' : Register → Prop} {item : Item} (h : Confined free item)
    (hf : ∀ r, free r → free' r) : Confined free' item := by
  obtain ⟨i, rfl, hm, hw⟩ := h
  exact ⟨i, rfl, hm, fun r hr => (hw r hr).imp_right (hf r)⟩

theorem Confined.kept {free : Register → Prop} {i : Instr} {entry : Int64} {c c' : Cpu}
    (h : Confined free (.instr i)) (he : c.exec? entry i = some c') : Kept free c c' := by
  obtain ⟨j, hj, hm, hw⟩ := h
  cases hj
  refine ⟨Cpu.mem_of_exec? he hm, fun r ha hl hf => Cpu.get_of_exec? he hl fun hr => ?_⟩
  rcases hw r hr with rfl | hfree
  · exact ha rfl
  · exact hf hfree

theorem Kept.of_through? {free : Register → Prop} {entry : Int64} {code : Listing} {c c' : Cpu}
    (hcode : ∀ item ∈ code, Confined free item) (h : c.through? entry code = some c') :
    Kept free c c' := by
  induction code generalizing c with
  | nil => cases h; exact ⟨rfl, fun _ _ _ _ => rfl⟩
  | cons item code ih =>
    obtain ⟨⟨i, rfl, hi⟩, hrest⟩ := List.forall_mem_cons.mp hcode
    obtain ⟨c₁, he, hthrough⟩ := Option.bind_eq_some_iff.mp h
    have hitem : Confined free (.instr i) := ⟨i, rfl, hi⟩
    exact (hitem.kept he).trans (ih hrest hthrough)

theorem confined_of_mem_lower {op : Op} {q : Register} {item : Item} (h : item ∈ op.lower q) :
    Confined (· = q) item := by
  cases op <;> simp only [Op.lower, comparison, List.mem_cons, List.not_mem_nil, or_false] at h
  all_goals rcases h with rfl | rfl | rfl <;>
    exact ⟨_, rfl, rfl, by simp [Instr.written, accumulator, q.whole_cases]⟩

end Machine

/-! ## Expressions -/

/-- The code of an expression writes the accumulator and registers that are free. -/
theorem Expr.Code.confined {f : Frame} {pool : Pool} {e : Expr} {code : Listing}
    (h : e.Code f pool code) (hp : pool.Distinct) : ∀ item ∈ code, Confined pool.Free item := by
  have hacc : ∀ (pool : Pool) (source : Operand),
      Confined pool.Free (.instr (.mov source (.reg accumulator))) :=
    fun _ source => ⟨_, rfl, rfl, fun r hr => .inl (List.mem_singleton.mp hr)⟩
  induction h with
  | literal pool n => exact List.forall_mem_singleton.mpr (hacc pool _)
  | name pool _ => exact List.forall_mem_singleton.mpr (hacc pool _)
  | @binary pool pool' op l r q first second _ hacq _ ihl ihr =>
    have hfree : pool.Free q := Pool.free_of_acquire? hacq
    have hinner := ihr (hp.of_acquire? hacq)
    rw [List.cons_append, List.forall_mem_append, List.forall_mem_cons, List.forall_mem_append]
    refine ⟨ihl hp, ⟨_, rfl, rfl, fun r hr => ?_⟩, fun item hi => ?_, fun item hi => ?_⟩
    · rw [List.mem_singleton.mp hr]
      rcases q.whole_cases with h | h
      · exact .inl h
      · exact .inr (by rwa [h])
    · exact (hinner item hi).mono fun r h => ((hp.free_of_acquire? hacq).mp h).2
    · exact (confined_of_mem_lower hi).mono fun r h => h ▸ hfree

/-- Lowering an expression is correct in any context. Whichever registers of the pool are lent, and
whatever variables have a value, as long as those that may be read have theirs in their slots:
executing the code straight through leaves the value of the expression in `rax`, and no instruction
writes anything but `rax`, the flags and registers that are free. -/
theorem Expr.executes_of_lower {limit : Nat} {s s' : Lower.State} {e : Expr} {code : Listing}
    (hpool : s.pool.registers = scratchRegisters.take limit) (h : e.lower s = (.ok code, s'))
    {entry : Int64} {vars : Store} {c : Cpu}
    (hs : Stored entry s.frame.slots s.frame.assigned vars c) :
    ∃ v c', e.eval vars = .ok v ∧ c.through? entry code = some c' ∧ c'.get .rax = v ∧
      c'.mem = c.mem ∧ c'.get .rsp = c.get .rsp ∧ c'.get .rbp = c.get .rbp ∧
      (∀ r, (r, true) ∈ s.pool.entries → c'.get r = c.get r) ∧
      ∀ item ∈ code, Confined s.pool.Free item := by
  have hp : s.pool.Distinct := by
    rw [Pool.Distinct, hpool]
    exact (by decide : scratchRegisters.Nodup).sublist (List.take_sublist limit _)
  have hr : s.pool.registers ⊆ scratchRegisters := by
    rw [hpool]
    exact List.take_subset ..
  have hfree : ∀ r, s.pool.Free r → r ∈ scratchRegisters := fun r h => hr (List.mem_map_of_mem h)
  have hcode := Expr.code_of_lower hp h
  obtain ⟨v, hv⟩ := hcode.eval_ok hs.covers
  obtain ⟨c', hc', hrax, -⟩ := hcode.through? hp hr List.prefix_rfl hs hv
  have hconf := hcode.confined hp
  have hk := Kept.of_through? hconf hc'
  refine ⟨v, c', hv, hc', hrax, hk.mem, ?_, ?_, ?_, hconf⟩
  · exact hk.get .rsp (by decide) (by decide) fun h => absurd (hfree _ h) (by decide)
  · exact hk.get .rbp (by decide) (by decide) fun h => absurd (hfree _ h) (by decide)
  · intro r hheld
    have hmem : r ∈ scratchRegisters := hr (List.mem_map_of_mem hheld)
    refine hk.get r ?_ ?_ (hp.not_free hheld)
    · rintro rfl; exact absurd hmem (by decide)
    · rintro rfl; exact absurd hmem (by decide)

/-- Two of four registers are lent, and one of two variables may be read. -/
def lentState : Lower.State :=
  ⟨⟨[(.rcx, true), (.rsi, false), (.rdi, true), (.r8, false)]⟩, ⟨["b", "a"], ["a"]⟩⟩

/-- A frame of two slots, the second of which holds a value. -/
def lentCpu : Cpu :=
  ⟨fun r => if r = .rbp then 1000 else if r = .rsp then 984 else 7,
   fun a => if a = 984 then some 5 else none, (0, 0)⟩

/-- A difference that groups to the right, so that both operands on the left wait. -/
def lentExpr : Expr :=
  .binary .subtract (.atom (.literal 10))
    (.binary .subtract (.atom (.name "a")) (.atom (.literal 3)))

theorem executes_lent :
    lentState.pool.registers = scratchRegisters.take 4 ∧
    Stored 1008 ["b", "a"] ["a"] [("a", 5)] lentCpu ∧
    ∃ code c', lentExpr.lower lentState = (.ok code, lentState) ∧
      lentCpu.through? 1008 code = some c' ∧ c'.get .rax = 8 ∧ c'.get .rcx = 7 ∧
      c'.get .rdi = 7 := by
  have hpool : lentState.pool.registers = scratchRegisters.take 4 := rfl
  have hs : Stored 1008 ["b", "a"] ["a"] [("a", 5)] lentCpu := by
    intro x hx
    cases List.mem_singleton.mp hx
    exact ⟨by decide, 5, rfl, rfl⟩
  obtain ⟨code, hc⟩ : ∃ code, lentExpr.lower lentState = (.ok code, lentState) := ⟨_, rfl⟩
  obtain ⟨v, c', hv, hc', hrax, -, -, -, hheld, -⟩ := Expr.executes_of_lower hpool hc hs
  obtain rfl : v = 8 := (Except.ok.inj hv).symm
  exact ⟨hpool, hs, code, c', hc, hc', hrax, hheld .rcx (by decide), hheld .rdi (by decide)⟩

end Kennel
