import Kennel.Proofs.Machine.Basic

/-!
# Runs of the machine

`At code pos seg` says that `seg` stands in `code` at the position `pos`. Instructions that can be
executed straight through take one step each, wherever they stand (`Setting.steps_of_through?`). A
run is determined by where it begins (`Setting.Steps.unique`), so what is true at its beginning and
kept by each step is true of every configuration that it comes to (`Setting.Steps.invariant`).
-/

namespace Kennel.Machine

open Asm

/-- `seg` stands in `code` at the position `pos`. -/
def At (code : Listing) (pos : Nat) (seg : Listing) : Prop :=
  ∃ before after, before.length = pos ∧ code = before ++ seg ++ after

namespace At

variable {code s t : Listing} {pos : Nat} {item : Item}

theorem left (h : At code pos (s ++ t)) : At code pos s := by
  obtain ⟨before, after, hpos, rfl⟩ := h
  exact ⟨before, t ++ after, hpos, by simp⟩

theorem right (h : At code pos (s ++ t)) : At code (pos + s.length) t := by
  obtain ⟨before, after, rfl, rfl⟩ := h
  exact ⟨before ++ s, after, by simp, by simp⟩

theorem tail (h : At code pos (item :: s)) : At code (pos + 1) s :=
  right (s := [item]) h

theorem head (h : At code pos (item :: s)) : code[pos]? = some item := by
  obtain ⟨before, after, rfl, rfl⟩ := h
  simp

theorem get (h : At code pos s) {j : Nat} (hj : j < s.length) : code[pos + j]? = some s[j] := by
  obtain ⟨before, after, rfl, rfl⟩ := h
  rw [List.append_assoc, List.getElem?_append_right (by omega), Nat.add_sub_cancel_left,
    List.getElem?_append_left hj, List.getElem?_eq_getElem hj]

end At

theorem Cpu.through?_append (entry : Int64) (s t : Listing) (c : Cpu) :
    c.through? entry (s ++ t) = (c.through? entry s).bind (through? entry t) := by
  induction s generalizing c with
  | nil => rfl
  | cons item s ih =>
    cases item with
    | instr i =>
      simp only [List.cons_append, through?]
      cases c.exec? entry i with
      | none => rfl
      | some c' => exact ih c'
    | text => rfl
    | global name => rfl
    | label l => rfl

namespace Setting

variable {m : Setting} {c : Config}

theorem Steps.trans {k n : Nat} {a b c : Config} (h : m.Steps k a b) (h' : m.Steps n b c) :
    m.Steps (k + n) a c := by
  induction h with
  | refl => simpa using h'
  | cons hs _ ih => rw [Nat.add_right_comm]; exact .cons hs (ih h')

theorem Steps.single {a b : Config} (h : m.step a = some (.running b)) : m.Steps 1 a b :=
  .cons h (.refl b)

theorem Steps.snoc {n : Nat} {a b c : Config} (h : m.Steps n a b)
    (hs : m.step b = some (.running c)) : m.Steps (n + 1) a c :=
  h.trans (.single hs)

/-- A run that goes on for `n` steps has come somewhere after `k` of them. -/
theorem Steps.take {n k : Nat} {a c : Config} (h : m.Steps n a c) (hk : k ≤ n) :
    ∃ b, m.Steps k a b ∧ m.Steps (n - k) b c := by
  induction h generalizing k with
  | refl c =>
    obtain rfl := Nat.le_zero.mp hk
    exact ⟨c, .refl c, .refl c⟩
  | @cons n a b c hs h ih =>
    cases k with
    | zero => exact ⟨a, .refl a, .cons hs h⟩
    | succ k =>
      obtain ⟨b', hk', hn⟩ := ih (Nat.le_of_succ_le_succ hk)
      exact ⟨b', .cons hs hk', by rwa [Nat.add_sub_add_right]⟩

theorem Steps.unique {n : Nat} {a b c : Config} (h : m.Steps n a b) (h' : m.Steps n a c) :
    b = c := by
  induction h with
  | refl a => cases h'; rfl
  | cons hs _ ih =>
    cases h' with
    | cons hs' h' =>
      rw [hs] at hs'
      cases hs'
      exact ih h'

/-- Where a run has come after some steps, it passes on its way further. -/
theorem Steps.after {n k : Nat} {a b c : Config} (h : m.Steps k a b) (h' : m.Steps n a c)
    (hk : k ≤ n) : m.Steps (n - k) b c := by
  obtain ⟨b', hb, hc⟩ := h'.take hk
  rwa [h.unique hb]

theorem Steps.invariant {a : Config} {P : Nat → Config → Prop} (h₀ : P 0 a)
    (hstep : ∀ n b c, m.Steps n a b → P n b → m.step b = some (.running c) → P (n + 1) c)
    {n : Nat} {c : Config} (h : m.Steps n a c) : P n c := by
  induction n generalizing c with
  | zero => cases h; exact h₀
  | succ n ih =>
    obtain ⟨b, hb, hc⟩ := h.take (Nat.le_succ n)
    rw [Nat.succ_sub (Nat.le_refl n), Nat.sub_self] at hc
    cases hc with
    | cons hs h' => cases h'; exact hstep n b c hb (ih hb) hs

theorem step_exec? {i : Instr} {cpu : Cpu} (hi : m.code[c.pc]? = some (.instr i))
    (he : c.cpu.exec? m.entry i = some cpu) :
    m.step c = some (.running ⟨cpu, c.pc + 1, c.calls⟩) := by
  cases i <;> first | cases he; done | simp only [step, hi, he, Option.map_some]

/-- What executing an item can do: an instruction changes the processor, a jump the position, a call
leaves a trace, and whatever is no instruction is passed. -/
inductive Moves (m : Setting) (a : Config) : Item → Config → Prop
  | exec {i : Instr} {cpu : Cpu} : a.cpu.exec? m.entry i = some cpu →
      Moves m a (.instr i) ⟨cpu, a.pc + 1, a.calls⟩
  | jump {condition : Option Condition} {l : Label} {k : Nat} :
      condition.all a.cpu.holds = true → labelAt? l.render m.code = some k →
      Moves m a (.instr (.jump condition l)) { a with pc := k }
  | stay {condition : Option Condition} {l : Label} : condition.all a.cpu.holds = false →
      Moves m a (.instr (.jump condition l)) { a with pc := a.pc + 1 }
  | call : Moves m a (.instr (.call "print")) ⟨m.print a.cpu, a.pc + 1, a.calls ++ [a.cpu]⟩
  | pass {item : Item} : (∀ i, item ≠ .instr i) → Moves m a item { a with pc := a.pc + 1 }

theorem moves_of_step {a b : Config} (h : m.step a = some (.running b)) :
    ∃ item, m.code[a.pc]? = some item ∧ m.Moves a item b := by
  unfold step at h
  split at h
  · cases h
  · split at h <;> cases h
  · next condition l hi =>
    refine ⟨_, hi, ?_⟩
    split at h
    · next hc =>
      obtain ⟨k, hk, hb⟩ := Option.map_eq_some_iff.mp h
      cases hb
      exact .jump hc hk
    · next hc => cases h; exact .stay (Bool.not_eq_true _ ▸ hc)
  · next symbol hi =>
    refine ⟨_, hi, ?_⟩
    split at h
    · next hc =>
      obtain ⟨rfl, -⟩ := hc
      cases h
      exact .call
    · cases h
  · next i _ _ _ hi =>
    obtain ⟨cpu, hcpu, hb⟩ := Option.map_eq_some_iff.mp h
    cases hb
    exact ⟨_, hi, .exec hcpu⟩
  · next item _ _ _ hne hi =>
    cases h
    exact ⟨_, hi, .pass hne⟩

theorem Moves.pc_of_ne_jump {a b : Config} {item : Item} (h : m.Moves a item b)
    (hj : ∀ condition l, item ≠ .instr (.jump condition l)) : b.pc = a.pc + 1 := by
  cases h with
  | exec | call | pass => rfl
  | jump | stay => exact absurd rfl (hj _ _)

theorem step_label {l : Label} (hl : m.code[c.pc]? = some (.label l)) :
    m.step c = some (.running { c with pc := c.pc + 1 }) := by
  simp only [step, hl]

theorem step_jump {condition : Option Condition} {l : Label} {k : Nat}
    (hj : m.code[c.pc]? = some (.instr (.jump condition l)))
    (hc : condition.all c.cpu.holds = true) (hk : labelAt? l.render m.code = some k) :
    m.step c = some (.running { c with pc := k }) := by
  simp only [step, hj, hc, hk, if_true, Option.map_some]

theorem step_jump_not {condition : Option Condition} {l : Label}
    (hj : m.code[c.pc]? = some (.instr (.jump condition l)))
    (hc : condition.all c.cpu.holds = false) :
    m.step c = some (.running { c with pc := c.pc + 1 }) := by
  simp only [step, hj, hc, Bool.false_eq_true, if_false]

theorem step_call (hi : m.code[c.pc]? = some (.instr (.call "print")))
    (halign : (c.cpu.get .rsp).toInt % 16 = 0) (harg : c.cpu.get .rdi = c.cpu.get .rax) :
    m.step c = some (.running ⟨m.print c.cpu, c.pc + 1, c.calls ++ [c.cpu]⟩) := by
  simp only [step, hi, halign, harg, and_self, if_true]

theorem step_ret (hi : m.code[c.pc]? = some (.instr .ret)) (hsp : c.cpu.get .rsp = m.entry) :
    m.step c = some (.returned { c with pc := c.pc + 1 }) := by
  simp only [step, hi, hsp, if_true]

theorem steps_of_through? {seg : Listing} {cpu cpu' : Cpu} {pos : Nat} (calls : List Cpu)
    (hseg : At m.code pos seg) (h : cpu.through? m.entry seg = some cpu') :
    m.Steps seg.length ⟨cpu, pos, calls⟩ ⟨cpu', pos + seg.length, calls⟩ := by
  induction seg generalizing cpu pos with
  | nil => cases h; exact .refl _
  | cons item seg ih =>
    cases item with
    | instr i =>
      obtain ⟨cpu₁, hi, hrest⟩ := Option.bind_eq_some_iff.mp h
      have hsteps := ih hseg.tail hrest
      rw [Nat.add_assoc, Nat.add_comm 1] at hsteps
      exact .cons (step_exec? hseg.head hi) hsteps
    | text => cases h
    | global name => cases h
    | label l => cases h

end Setting

end Kennel.Machine
