import Kennel.Lower.Pool

/-!
# Borrowing registers

Handing out a register marks the first free one, and taking it back undoes that
(`Pool.release?_of_acquire?`). Registers do not repeat in a pool (`Pool.Distinct`). The free ones
are handed out from the front of a list (`Pool.freeRegisters`).
-/

namespace Kennel.Lower

open Asm

namespace Pool

def registers (p : Pool) : List Register := p.entries.map (·.1)

/-- No register stands in the pool twice. -/
def Distinct (p : Pool) : Prop := p.registers.Nodup

/-- `r` is in the pool and not lent. -/
def Free (p : Pool) (r : Register) : Prop := (r, false) ∈ p.entries

theorem acquireFrom_eq_some {es es' : List (Register × Bool)} {r : Register}
    (h : acquireFrom es = some (r, es')) :
    ∃ before after, es = before ++ (r, false) :: after ∧ (∀ e ∈ before, e.2 = true) ∧
      es' = before ++ (r, true) :: after := by
  induction es generalizing es' with
  | nil => cases h
  | cons e es ih =>
    obtain ⟨q, used⟩ := e
    cases used with
    | false => cases h; exact ⟨[], es, rfl, by simp, rfl⟩
    | true =>
      simp only [acquireFrom, Option.map_eq_some_iff, Prod.mk.injEq] at h
      obtain ⟨⟨r', es''⟩, h', rfl, rfl⟩ := h
      obtain ⟨before, after, he, hb, he'⟩ := ih h'
      exact ⟨(q, true) :: before, after, by simp [he], by simpa using hb, by simp [he']⟩

theorem releaseFrom_append {r : Register} {before after : List (Register × Bool)}
    (hr : r ∉ before.map (·.1)) :
    releaseFrom r (before ++ (r, true) :: after) = some (before ++ (r, false) :: after) := by
  induction before with
  | nil => simp [releaseFrom]
  | cons e before ih =>
    simp only [List.map_cons, List.mem_cons, not_or] at hr
    simp only [List.cons_append, releaseFrom, if_neg (Ne.symm hr.1), ih hr.2, Option.map_some]

theorem releaseFrom_eq_some {r : Register} {es es' : List (Register × Bool)}
    (h : releaseFrom r es = some es') :
    ∃ before after, es = before ++ (r, true) :: after ∧ r ∉ before.map (·.1) ∧
      es' = before ++ (r, false) :: after := by
  induction es generalizing es' with
  | nil => cases h
  | cons e es ih =>
    obtain ⟨q, used⟩ := e
    unfold releaseFrom at h
    by_cases hq : q = r
    · subst hq
      cases used with
      | false => simp at h
      | true =>
        simp only [↓reduceIte, Option.some.injEq] at h
        exact ⟨[], es, rfl, by simp, h.symm⟩
    · rw [if_neg hq, Option.map_eq_some_iff] at h
      obtain ⟨es'', h', rfl⟩ := h
      obtain ⟨before, after, rfl, hb, rfl⟩ := ih h'
      exact ⟨(q, used) :: before, after, rfl, by simp [Ne.symm hq, hb], rfl⟩

theorem acquire?_eq_some {p p' : Pool} {r : Register} (h : p.acquire? = some (r, p')) :
    ∃ before after, p.entries = before ++ (r, false) :: after ∧ (∀ e ∈ before, e.2 = true) ∧
      p'.entries = before ++ (r, true) :: after := by
  simp only [acquire?, Option.map_eq_some_iff, Prod.mk.injEq] at h
  obtain ⟨⟨r', es⟩, h', rfl, rfl⟩ := h
  exact acquireFrom_eq_some h'

theorem registers_of_acquire? {p p' : Pool} {r : Register} (h : p.acquire? = some (r, p')) :
    p'.registers = p.registers := by
  obtain ⟨before, after, he, -, he'⟩ := acquire?_eq_some h
  simp [registers, he, he']

theorem size_of_acquire? {p p' : Pool} {r : Register} (h : p.acquire? = some (r, p')) :
    p'.size = p.size := by
  have := congrArg List.length (registers_of_acquire? h)
  simpa [registers, size] using this

theorem Distinct.of_acquire? {p p' : Pool} {r : Register} (hp : p.Distinct)
    (h : p.acquire? = some (r, p')) : p'.Distinct := by
  unfold Distinct
  rw [registers_of_acquire? h]
  exact hp

theorem mem_registers_of_acquire? {p p' : Pool} {r : Register} (h : p.acquire? = some (r, p')) :
    r ∈ p.registers := by
  obtain ⟨before, after, he, -, -⟩ := acquire?_eq_some h
  simp [registers, he]

/-- The register at an entry stands nowhere else in the pool. -/
theorem Distinct.not_mem {p : Pool} (hp : p.Distinct) {r : Register} {used : Bool}
    {before after : List (Register × Bool)} (he : p.entries = before ++ (r, used) :: after) :
    r ∉ before.map (·.1) ∧ r ∉ after.map (·.1) := by
  simp only [Distinct, registers, he, List.map_append, List.map_cons, List.nodup_append,
    List.nodup_cons] at hp
  exact ⟨fun hr => hp.2.2 r hr r List.mem_cons_self rfl, hp.2.1.1⟩

theorem Distinct.not_free {p : Pool} (hp : p.Distinct) {r : Register}
    (h : (r, true) ∈ p.entries) : ¬ p.Free r := by
  obtain ⟨before, after, he⟩ := List.append_of_mem h
  obtain ⟨hb, ha⟩ := hp.not_mem he
  simp only [Free, he, List.mem_append, List.mem_cons, Prod.mk.injEq, Bool.false_eq_true, and_false,
    false_or]
  rintro (hf | hf)
  · exact hb (List.mem_map_of_mem hf)
  · exact ha (List.mem_map_of_mem hf)

theorem free_of_acquire? {p p' : Pool} {r : Register} (h : p.acquire? = some (r, p')) :
    p.Free r := by
  obtain ⟨before, after, he, -, -⟩ := acquire?_eq_some h
  simp [Free, he]

theorem Distinct.free_of_acquire? {p p' : Pool} {r q : Register} (hp : p.Distinct)
    (h : p.acquire? = some (r, p')) : p'.Free q ↔ q ≠ r ∧ p.Free q := by
  obtain ⟨before, after, he, -, he'⟩ := acquire?_eq_some h
  obtain ⟨hb, ha⟩ := hp.not_mem he
  simp only [Free, he, he', List.mem_append, List.mem_cons, Prod.mk.injEq]
  constructor
  · rintro (hq | ⟨-, hq⟩ | hq)
    · exact ⟨fun e => hb (e ▸ List.mem_map_of_mem hq), .inl hq⟩
    · cases hq
    · exact ⟨fun e => ha (e ▸ List.mem_map_of_mem hq), .inr (.inr hq)⟩
  · rintro ⟨hne, hq | ⟨rfl, -⟩ | hq⟩
    · exact .inl hq
    · exact absurd rfl hne
    · exact .inr (.inr hq)

/-- Taking back the register that was handed out restores the pool. -/
theorem Distinct.release?_of_acquire? {p p' : Pool} {r : Register} (hp : p.Distinct)
    (h : p.acquire? = some (r, p')) : p'.release? r = some p := by
  obtain ⟨before, after, he, -, he'⟩ := acquire?_eq_some h
  simp only [release?, he', releaseFrom_append (hp.not_mem he).1, Option.map_some, ← he]

theorem registers_of_release? {p p' : Pool} {r : Register} (h : p.release? r = some p') :
    p'.registers = p.registers := by
  simp only [release?, Option.map_eq_some_iff] at h
  obtain ⟨es, h', rfl⟩ := h
  obtain ⟨before, after, he, -, rfl⟩ := releaseFrom_eq_some h'
  simp [registers, he]

theorem Distinct.of_release? {p p' : Pool} {r : Register} (hp : p.Distinct)
    (h : p.release? r = some p') : p'.Distinct := by
  unfold Distinct
  rw [registers_of_release? h]
  exact hp

theorem registers_ofLimit (limit : Nat) :
    (ofLimit limit).registers = scratchRegisters.take limit := by
  simp [ofLimit, registers, Function.comp_def]

theorem distinct_ofLimit (limit : Nat) : (ofLimit limit).Distinct := by
  unfold Distinct
  rw [registers_ofLimit]
  exact (by decide : scratchRegisters.Nodup).sublist (List.take_sublist limit _)

/-! ## Free registers -/

/-- The registers that are not lent, in the order in which they are handed out. -/
def freeRegisters (p : Pool) : List Register := (p.entries.filter fun e => !e.2).map (·.1)

theorem freeRegisters_of_acquire? {p p' : Pool} {r : Register} (h : p.acquire? = some (r, p')) :
    p.freeRegisters = r :: p'.freeRegisters := by
  obtain ⟨before, after, he, hb, he'⟩ := acquire?_eq_some h
  have hnone : (before.filter fun e => !e.2) = [] := by
    rw [List.filter_eq_nil_iff]
    intro e hmem
    simp [hb e hmem]
  simp [freeRegisters, he, he', List.filter_append, hnone]

theorem acquireFrom_eq_none {es : List (Register × Bool)} (h : acquireFrom es = none) :
    ∀ e ∈ es, e.2 = true := by
  induction es with
  | nil => simp
  | cons e es ih =>
    obtain ⟨r, used⟩ := e
    cases used with
    | false => cases h
    | true =>
      simp only [acquireFrom, Option.map_eq_none_iff] at h
      simpa using ih h

theorem freeRegisters_eq_nil {p : Pool} (h : p.acquire? = none) : p.freeRegisters = [] := by
  have hall := acquireFrom_eq_none (Option.map_eq_none_iff.mp h)
  simp only [freeRegisters, List.map_eq_nil_iff, List.filter_eq_nil_iff]
  intro e he
  simp [hall e he]

theorem freeRegisters_ofLimit (limit : Nat) :
    (ofLimit limit).freeRegisters = scratchRegisters.take limit := by
  rw [← registers_ofLimit]
  simp only [freeRegisters, registers, ofLimit, List.filter_map]
  congr 2
  exact List.filter_eq_self.mpr fun _ _ => rfl

end Pool

end Kennel.Lower
