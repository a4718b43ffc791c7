import Kennel.Proofs.Machine.Routine

/-!
# Programs that do not end

The machine follows an evaluation that never ends for as many steps as one likes. Every statement
but a bare name takes it at least one step, and only finitely many bare names stand in a row
(`Located.progress`). So the listing of such a program runs on forever without a call
(`runsOn_of_compileWith`).
-/

namespace Kennel.Machine

open Asm Lower Eval

namespace Setting

variable {m : Setting} {a b c : Config}

/-- After any number of steps the machine stands before an item that is no return and no call, and
goes on from there. -/
def RunsOn (m : Setting) (a : Config) : Prop :=
  (∀ n, ∃ c, m.Steps n a c) ∧
  ∀ n c, m.Steps n a c → ∃ item b, m.code[c.pc]? = some item ∧ item ≠ .instr .ret ∧
    (∀ symbol, item ≠ .instr (.call symbol)) ∧ m.step c = some (.running b)

/-! ## Calls -/

/-- Only a call is recorded. -/
theorem Moves.calls {item : Item} (h : m.Moves a item b) :
    (b.calls = a.calls ∧ ∀ symbol, item ≠ .instr (.call symbol)) ∨
    b.calls = a.calls ++ [a.cpu] := by
  cases h with
  | exec he =>
    refine .inl ⟨rfl, ?_⟩
    rintro symbol ⟨⟩
    cases he
  | jump | stay => exact .inl ⟨rfl, fun symbol => by simp⟩
  | call => exact .inr rfl
  | pass hne => exact .inl ⟨rfl, fun symbol => hne _⟩

theorem calls_prefix_of_step (h : m.step a = some (.running b)) : a.calls <+: b.calls := by
  obtain ⟨item, -, hm⟩ := moves_of_step h
  rcases hm.calls with ⟨he, -⟩ | he
  · exact he ▸ List.prefix_rfl
  · rw [he]
    exact List.prefix_append ..

theorem Steps.calls_prefix {n : Nat} (h : m.Steps n a b) : a.calls <+: b.calls := by
  induction h with
  | refl => exact List.prefix_rfl
  | cons hs _ ih => exact (calls_prefix_of_step hs).trans ih

/-- A run that can be as long as one likes and has no call in the end has had none on its way. -/
theorem runsOn_of_steps (h : ∀ k, ∃ n b, k ≤ n ∧ m.Steps n a b ∧ b.calls = a.calls) :
    m.RunsOn a := by
  constructor
  · intro k
    obtain ⟨n, b, hn, hb, -⟩ := h k
    obtain ⟨c, hc, -⟩ := hb.take hn
    exact ⟨c, hc⟩
  · intro k c hc
    obtain ⟨n, b, hn, hb, hcalls⟩ := h (k + 1)
    have hrest := hc.after hb (by omega)
    obtain ⟨j, hj⟩ : ∃ j, n - k = j + 1 := ⟨n - k - 1, by omega⟩
    rw [hj] at hrest
    cases hrest with
    | @cons _ _ d _ hs hd =>
      obtain ⟨item, hitem, hm⟩ := moves_of_step hs
      refine ⟨item, d, hitem, ?_, ?_, hs⟩
      · rintro rfl
        cases hm with
        | exec he => cases he
        | pass hne => exact hne _ rfl
      · rcases hm.calls with ⟨-, hne⟩ | he
        · exact hne
        · have h₁ := hc.calls_prefix.length_le
          have h₂ := hd.calls_prefix.length_le
          rw [he, List.length_append, List.length_singleton, hcalls] at h₂
          omega

end Setting

/-! ## Evaluations without end -/

section

variable {m : Setting} {pool : Pool} {slots : List String} {size finish : Nat} {initial : Int64}

/-- While the evaluation goes on, the machine takes another step or more and stands where it can
follow again. -/
theorem Located.progress {f : Frame} {work : List Stmt} {pos : Nat} {st : Eval.State} {c : Cpu}
    (hm : Loaded m pool slots size) (h : Located m pool slots finish f work pos)
    (ha : Agrees m slots size initial f st c) (hd : ∀ fuel, Eval.run none fuel work st = none)
    (calls : List Cpu) :
    ∃ n f' work' st' c' k, 0 < n ∧ m.Steps n ⟨c, pos, calls⟩ ⟨c', k, calls⟩ ∧
      Located m pool slots finish f' work' k ∧ Agrees m slots size initial f' st' c' ∧
      ∀ fuel, Eval.run none fuel work' st' = none := by
  induction work generalizing f pos st c with
  | nil => cases hd 0
  | cons s rest ih =>
    have ha' : Agrees m slots size initial f { st with steps := st.steps + 1 } c :=
      ⟨ha.framed, ha.stored, ha.acc⟩
    obtain ⟨work, st₁, f₁, n, c₁, k, he, hn, hk, ha₁, hpos⟩ := h.execute hm ha' calls
    have hstep : Eval.step none s st = (.ok work, st₁) := he
    have hd₁ : ∀ fuel, Eval.run none fuel (work ++ rest) st₁ = none := by
      intro fuel
      have := hd (fuel + 1)
      rwa [Eval.run, hstep] at this
    rcases hpos with hpos | ⟨x, rfl⟩
    · exact ⟨n, f₁, work ++ rest, st₁, c₁, k, hpos, hn, hk, ha₁, hd₁⟩
    · cases he
      obtain ⟨n', f', work', st', c', k', hpos, hn', hnext⟩ := ih hk ha₁ hd₁
      exact ⟨n + n', f', work', st', c', k', by omega, hn.trans hn', hnext⟩

theorem Located.steps_of_diverges {f : Frame} {work : List Stmt} {pos : Nat} {st : Eval.State}
    {c : Cpu} (hm : Loaded m pool slots size) (h : Located m pool slots finish f work pos)
    (ha : Agrees m slots size initial f st c) (hd : ∀ fuel, Eval.run none fuel work st = none)
    (calls : List Cpu) (k : Nat) :
    ∃ n c' pos', k ≤ n ∧ m.Steps n ⟨c, pos, calls⟩ ⟨c', pos', calls⟩ := by
  induction k generalizing f work pos st c with
  | zero => exact ⟨0, c, pos, Nat.le_refl 0, .refl _⟩
  | succ k ih =>
    obtain ⟨n, f₁, work₁, st₁, c₁, pos₁, hpos, hn, h₁, ha₁, hd₁⟩ := h.progress hm ha hd calls
    obtain ⟨n', c', pos', hk, hn'⟩ := ih h₁ ha₁ hd₁
    exact ⟨n + n', c', pos', by omega, hn.trans hn'⟩

end

/-! ## Listings -/

theorem runsOn_routine {limit : Nat} {p : Program} {body : Listing} {f : Frame}
    (hl : Lowers (.ofLimit limit) .empty p body f) (hres : Resolves (routine f body))
    (print : Cpu → Cpu) {start : Cpu}
    (hroom : Int64.minValue.toInt ≤ (start.get .rsp).toInt - 8 - f.size)
    (hd : ∀ fuel, evaluate fuel p = none) :
    Setting.RunsOn ⟨routine f body, print, start.get .rsp⟩ ⟨start, 4, []⟩ := by
  have hd' : ∀ fuel, run none fuel p .initial = none :=
    fun fuel => Option.map_eq_none_iff.mp (hd fuel)
  obtain ⟨c, henter, hframed, hrax, -⟩ := steps_enterCode body print hroom
  apply Setting.runsOn_of_steps
  intro k
  obtain ⟨n, c', pos', hn, hsteps⟩ := (located_routine hl print (start.get .rsp)).steps_of_diverges
    (loaded_routine limit hres print (start.get .rsp)) (hframed.agrees hrax _ _) hd' [] k
  exact ⟨_, ⟨c', pos', []⟩, by omega, henter.trans hsteps, rfl⟩

/-- Executing the listing of a program whose evaluation does not end goes on forever: it comes to no
call and no return, and to no place outside the listing. -/
theorem runsOn_of_compileWith {limit : Nat} {source : String} {code : Listing}
    (hc : compileWith limit source = .ok code) (print : Cpu → Cpu) (start : Cpu)
    (hroom : Int64.minValue.toInt ≤ (start.get .rsp).toInt - 8 - reserved code) :
    ∃ p main, Reading.parse source = .ok p ∧ labelAt? "main" code = some main ∧
      ((∀ fuel, evaluate fuel p = none) →
        Setting.RunsOn ⟨code, print, start.get .rsp⟩ ⟨start, main, []⟩) := by
  obtain ⟨p, body, s, hp, -, hl, hres, rfl⟩ := routine_of_compileWith hc
  rw [reserved_routine hl] at hroom
  exact ⟨p, 4, hp, hres 4 (.symbol "main") (at_routine s.frame body).1,
    runsOn_routine hl hres print hroom⟩

/-- A loop that multiplies by one. -/
def spinSource : String := "x AWOO 1 GRRR x BOW x AWOO x ARF 1 ARRUF"

def spinLoop : Stmt :=
  .loop 0 (.atom (.name "x"))
    [.assign "x" (.binary .multiply (.atom (.name "x")) (.atom (.literal 1)))]

def spinProgram : Program := [.assign "x" (.atom (.literal 1)), spinLoop]

theorem run_spinLoop : ∀ fuel steps,
    run none fuel [spinLoop] ⟨[("x", 1)], some 1, steps⟩ = none
  | 0, _ => rfl
  | 1, _ => rfl
  | fuel + 2, steps => run_spinLoop fuel (steps + 2)

theorem evaluate_spinProgram (fuel : Nat) : evaluate fuel spinProgram = none := by
  cases fuel with
  | zero => rfl
  | succ fuel =>
    have h : run none (fuel + 1) spinProgram .initial =
        run none fuel [spinLoop] ⟨[("x", 1)], some 1, 1⟩ := rfl
    rw [evaluate, h, run_spinLoop]
    rfl

theorem runsOn_spin :
    (∀ fuel, evaluate fuel spinProgram = none) ∧
    ∃ code main, compileWith 1 spinSource = .ok code ∧
      Int64.minValue.toInt ≤ (sumStart.get .rsp).toInt - 8 - reserved code ∧
      labelAt? "main" code = some main ∧
      Setting.RunsOn ⟨code, overwriting, sumStart.get .rsp⟩ ⟨sumStart, main, []⟩ := by
  have hp : Reading.parse spinSource = .ok spinProgram := rfl
  obtain ⟨code, hg, hsize⟩ : ∃ code, generate 1 spinProgram = .ok code ∧ reserved code = 16 :=
    ⟨_, rfl, rfl⟩
  have hc : compileWith 1 spinSource = .ok code := by simp only [compileWith, hp, hg]
  have hroom : Int64.minValue.toInt ≤ (sumStart.get .rsp).toInt - 8 - reserved code := by
    rw [hsize]
    decide
  obtain ⟨p, main, hp', hmain, hruns⟩ := runsOn_of_compileWith hc overwriting sumStart hroom
  obtain rfl : p = spinProgram := by rw [hp] at hp'; cases hp'; rfl
  exact ⟨evaluate_spinProgram, code, main, hc, hroom, hmain, hruns evaluate_spinProgram⟩

end Kennel.Machine
