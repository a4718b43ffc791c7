import Kennel.Compile
import Kennel.Proofs.Lower.Pool

/-!
# The code of expressions and programs

What a lowering that succeeds has emitted, without the computation that emits it. `Expr.Code` is
the code of an expression for a frame and a pool, `Lowers` that of a list of statements together
with the frame it leaves. Lowering an expression leaves the state as it was (`Expr.lower_snd`);
lowering statements leaves the pool. What has code is lowered to it (`Lowers.lowerAll_eq`).
-/

namespace Kennel

open Asm Lower

namespace Lower.Emit

variable {α β : Type} {s s' : State}

theorem bind_ok {x : Emit α} {f : α → Emit β} {b : β} (h : (x >>= f) s = (.ok b, s')) :
    ∃ a t, x s = (.ok a, t) ∧ f a t = (.ok b, s') := by
  rw [bind_apply] at h
  split at h
  · next a t hx => exact ⟨a, t, hx, h⟩
  · cases h

/-- A sequence leaves the state alone when both its parts do. -/
theorem bind_snd {x : Emit α} {f : α → Emit β} (hx : (x s).2 = s) (hf : ∀ a, (f a s).2 = s) :
    ((x >>= f) s).2 = s := by
  rw [bind_apply]
  cases h : x s with
  | mk result t =>
    obtain rfl : t = s := by rw [h] at hx; exact hx
    cases result with
    | ok a => exact hf a
    | error e => rfl

theorem within_ok {context : String} {x : Emit α} {a : α}
    (h : within context x s = (.ok a, s')) : x s = (.ok a, s') := by
  unfold within at h
  split at h
  · next hx => rw [hx, h]
  · cases h

theorem withScratch_ok {body : Register → Emit α} {a : α}
    (h : withScratch body s = (.ok a, s')) :
    ∃ r pool t pool', s.pool.acquire? = some (r, pool) ∧
      body r { s with pool := pool } = (.ok a, t) ∧ t.pool.release? r = some pool' ∧
      s' = { t with pool := pool' } := by
  unfold withScratch acquire at h
  cases hacq : s.pool.acquire? with
  | none => simp only [hacq] at h; cases h
  | some p =>
    obtain ⟨r, pool⟩ := p
    simp only [hacq] at h
    cases hbody : body r { s with pool := pool } with
    | mk result t =>
      simp only [hbody, release] at h
      cases hrel : t.pool.release? r with
      | none => simp only [hrel] at h; cases h
      | some pool' =>
        simp only [hrel] at h
        cases h
        exact ⟨r, pool, t, pool', rfl, hbody, hrel, rfl⟩

/-- A loan leaves the state as its body does when that leaves pool and frame alone. -/
theorem withScratch_snd {body : Register → Emit α} (hp : s.pool.Distinct)
    (hbody : ∀ r pool, s.pool.acquire? = some (r, pool) →
      (body r { s with pool := pool }).2 = { s with pool := pool }) :
    (withScratch body s).2 = s := by
  unfold withScratch acquire
  cases hacq : s.pool.acquire? with
  | none => rfl
  | some p =>
    obtain ⟨r, pool⟩ := p
    have hb := hbody r pool hacq
    cases hrun : body r { s with pool := pool } with
    | mk result t =>
      rw [hrun] at hb
      subst hb
      simp only [hrun, release, hp.release?_of_acquire? hacq]

theorem bind_of_ok {x : Emit α} {a : α} (k : α → Emit β) (h : x s = (.ok a, s')) :
    (x >>= k) s = k a s' := by
  rw [bind_apply, h]

theorem within_of_ok {x : Emit α} {a : α} (context : String) (h : x s = (.ok a, s')) :
    within context x s = (.ok a, s') := by
  simp only [within, h]

theorem withScratch_of_ok {body : Register → Emit α} {a : α} {r : Register} {pool : Pool}
    (hp : s.pool.Distinct) (hacq : s.pool.acquire? = some (r, pool))
    (hbody : body r { s with pool := pool } = (.ok a, { s with pool := pool })) :
    withScratch body s = (.ok a, s) := by
  simp only [withScratch, acquire, hacq, hbody, release, hp.release?_of_acquire? hacq]

end Lower.Emit

/-! ## Expressions -/

/-- `code` leaves the value of an expression in the accumulator, where `pool` has the registers it
may borrow. -/
inductive Expr.Code (frame : Frame) : Pool → Expr → Listing → Prop
  | literal (pool : Pool) (n : Int64) :
      Code frame pool (.atom (.literal n)) [.instr (.mov (.imm n.toInt) (.reg accumulator))]
  | name (pool : Pool) {x : String} {m : Operand} : frame.read? x = some m →
      Code frame pool (.atom (.name x)) [.instr (.mov m (.reg accumulator))]
  | binary {pool pool' : Pool} {op : Op} {l r : Expr} {q : Register} {first second : Listing} :
      Code frame pool l first → pool.acquire? = some (q, pool') → Code frame pool' r second →
      Code frame pool (.binary op l r)
        (first ++ (.instr (.mov (.reg accumulator) (.reg q)) :: second ++ op.lower q))

theorem Expr.lower_snd (e : Expr) {s : State} (hp : s.pool.Distinct) : (e.lower s).2 = s := by
  induction e generalizing s with
  | atom a =>
    cases a with
    | literal n => rfl
    | name x =>
      simp only [Expr.lower, Atom.lower, Emit.bind_apply, readSlot]
      cases s.frame.read? x <;> rfl
  | binary op l r ihl ihr =>
    refine Emit.bind_snd (ihl hp) fun first => ?_
    refine Emit.bind_snd (Emit.withScratch_snd hp fun q pool hq => ?_) fun rest => rfl
    exact Emit.bind_snd (ihr (hp.of_acquire? hq)) fun second => rfl

theorem Expr.lower_state {e : Expr} {s s' : State} {result : Except Lower.Fault Listing}
    (hp : s.pool.Distinct) (h : e.lower s = (result, s')) : s' = s := by
  have := e.lower_snd hp
  rwa [h] at this

theorem Expr.code_of_lower {e : Expr} {s s' : State} {code : Listing} (hp : s.pool.Distinct)
    (h : e.lower s = (.ok code, s')) : e.Code s.frame s.pool code := by
  induction e generalizing s s' code with
  | atom a =>
    cases a with
    | literal n => cases h; exact .literal ..
    | name x =>
      obtain ⟨m, t, hread, hpure⟩ := Emit.bind_ok h
      cases hpure
      unfold readSlot at hread
      split at hread
      · next m' hm => cases hread; exact .name _ hm
      · cases hread
  | binary op l r ihl ihr =>
    obtain ⟨first, t, hl, htail⟩ := Emit.bind_ok h
    obtain rfl := lower_state hp hl
    obtain ⟨rest, u, hrest, hpure⟩ := Emit.bind_ok htail
    cases hpure
    obtain ⟨q, pool, v, pool', hacq, hbody, -, -⟩ := Emit.withScratch_ok hrest
    obtain ⟨second, v', hr, hpure⟩ := Emit.bind_ok hbody
    cases hpure
    exact .binary (ihl hp hl) hacq (ihr (hp.of_acquire? hacq) hr)

/-! ## Statements -/

namespace Lower

/-- The code of a condition, then a jump to `target` if it is zero. -/
def testCode (test : Listing) (target : Label) : Listing :=
  test ++ [.instr (.cmp (.imm 0) accumulator), .instr (.jump (some .equal) target)]

/-- The code of a branch, from that of its condition and its two blocks. -/
def branchCode (id : Nat) (test yes no : Listing) : Listing :=
  testCode test (.numbered .otherwise id) ++ yes ++
    [.instr (.jump none (.numbered .endBranch id)), .label (.numbered .otherwise id)] ++
    no ++ [.label (.numbered .endBranch id)]

/-- The code of a loop, from that of its condition and its body. -/
def loopCode (id : Nat) (test body : Listing) : Listing :=
  .label (.numbered .loop id) :: testCode test (.numbered .endLoop id) ++ body ++
    [.instr (.jump none (.numbered .loop id)), .label (.numbered .endLoop id)]

/-- `code` is the code of statements that start with the first frame and end with the second. -/
inductive Lowers (pool : Pool) : Frame → List Stmt → Listing → Frame → Prop
  | nil (f : Frame) : Lowers pool f [] [] f
  | bare {f g : Frame} {x : String} {rest : List Stmt} {code : Listing} :
      Lowers pool f rest code g → Lowers pool f (.bare x :: rest) code g
  | assign {f g : Frame} {x : String} {e : Expr} {rest : List Stmt} {value code : Listing} :
      e.Code f pool value → Lowers pool (f.assign x).2 rest code g →
      Lowers pool f (.assign x e :: rest)
        (value ++ [.instr (.mov (.reg accumulator) (f.assign x).1)] ++ code) g
  | branch {f f₁ f₂ g : Frame} {id : Nat} {c : Expr} {yes no rest : List Stmt}
      {test first second code : Listing} :
      c.Code f pool test → Lowers pool f yes first f₁ →
      Lowers pool (f₁.withAssigned f.assigned) no second f₂ →
      Lowers pool (f₂.meet f₁.assigned) rest code g →
      Lowers pool f (.branch id c yes no :: rest) (branchCode id test first second ++ code) g
  | loop {f f₁ g : Frame} {id : Nat} {c : Expr} {body rest : List Stmt}
      {test inner code : Listing} :
      c.Code f pool test → Lowers pool f body inner f₁ →
      Lowers pool (f₁.withAssigned f.assigned) rest code g →
      Lowers pool f (.loop id c body :: rest) (loopCode id test inner ++ code) g

/-- What holds of every item in the code of expressions, and of stores, tests, jumps and labels,
holds of every item in the code of statements. -/
theorem Lowers.forall_mem {pool : Pool} {P : Item → Prop}
    (hexpr : ∀ {f : Frame} {e : Expr} {code : Listing}, e.Code f pool code → ∀ item ∈ code, P item)
    (hstore : ∀ i, P (.instr (.mov (.reg accumulator) (slot i))))
    (htest : P (.instr (.cmp (.imm 0) accumulator))) (hjump : ∀ c l, P (.instr (.jump c l)))
    (hlabel : ∀ l, P (.label l)) {f g : Frame} {p : List Stmt} {code : Listing}
    (h : Lowers pool f p code g) : ∀ item ∈ code, P item := by
  have hnil : ∀ item ∈ ([] : Listing), P item := fun _ hi => absurd hi List.not_mem_nil
  induction h with
  | nil f => exact hnil
  | bare _ ih => exact ih
  | assign he _ ih =>
    simp only [List.forall_mem_append, List.forall_mem_singleton]
    exact ⟨⟨hexpr he, hstore _⟩, ih⟩
  | branch hc _ _ _ ihy ihn ih =>
    simp only [branchCode, testCode, List.forall_mem_append, List.forall_mem_cons]
    exact ⟨⟨⟨⟨⟨⟨hexpr hc, htest, hjump _ _, hnil⟩, ihy⟩, hjump _ _, hlabel _, hnil⟩, ihn⟩,
      hlabel _, hnil⟩, ih⟩
  | loop hc _ _ ihb ih =>
    simp only [loopCode, testCode, List.forall_mem_append, List.forall_mem_cons]
    exact ⟨⟨⟨⟨hlabel _, hexpr hc, htest, hjump _ _, hnil⟩, ihb⟩, hjump _ _, hlabel _, hnil⟩, ih⟩

end Lower

theorem Expr.code_of_lowerTest {c : Expr} {target : Label} {s s' : State} {code : Listing}
    (hp : s.pool.Distinct) (h : c.lowerTest target s = (.ok code, s')) :
    s' = s ∧ ∃ test, c.Code s.frame s.pool test ∧ code = testCode test target := by
  obtain ⟨test, t, ht, hpure⟩ := Emit.bind_ok h
  cases hpure
  exact ⟨lower_state hp ht, test, code_of_lower hp ht, rfl⟩

mutual

theorem Stmt.lowers_of_lower : ∀ (st : Stmt) {s s' : State} {code : Listing}, s.pool.Distinct →
    st.lower s = (.ok code, s') → s'.pool = s.pool ∧
      ∀ {rest : List Stmt} {others : Listing} {g : Frame},
        Lowers s.pool s'.frame rest others g → Lowers s.pool s.frame (st :: rest) (code ++ others) g
  | .bare x, s, s', code, _, h => by
    cases h
    exact ⟨rfl, .bare⟩
  | .assign x e, s, s', code, hp, h => by
    obtain ⟨value, t, hv, hslot⟩ := Emit.bind_ok h
    replace hv := Emit.within_ok hv
    obtain rfl := Expr.lower_state hp hv
    obtain ⟨m, u, hm, hpure⟩ := Emit.bind_ok hslot
    cases hm
    cases hpure
    exact ⟨rfl, .assign (Expr.code_of_lower hp hv)⟩
  | .branch id c yes no, s, s', code, hp, h => by
    obtain ⟨test, t, htest, h₁⟩ := Emit.bind_ok h
    obtain ⟨rfl, code', hc, rfl⟩ := Expr.code_of_lowerTest hp (Emit.within_ok htest)
    obtain ⟨before, u, hbefore, h₂⟩ := Emit.bind_ok h₁
    cases hbefore
    obtain ⟨first, u₁, hyes, h₃⟩ := Emit.bind_ok h₂
    obtain ⟨hp₁, hyes⟩ := Stmt.lowers_of_lowerAll yes hp (Emit.within_ok hyes)
    obtain ⟨after, u₂, hafter, h₄⟩ := Emit.bind_ok h₃
    cases hafter
    obtain ⟨_, u₃, hmod, h₅⟩ := Emit.bind_ok h₄
    cases hmod
    obtain ⟨second, u₄, hno, h₆⟩ := Emit.bind_ok h₅
    obtain ⟨hp₂, hno⟩ := Stmt.lowers_of_lowerAll no (by simpa [hp₁] using hp) (Emit.within_ok hno)
    obtain ⟨_, u₅, hmeet, hpure⟩ := Emit.bind_ok h₆
    cases hmeet
    cases hpure
    simp only [hp₁] at hp₂ hno
    exact ⟨hp₂, .branch hc hyes hno⟩
  | .loop id c body, s, s', code, hp, h => by
    obtain ⟨before, t, hbefore, h₁⟩ := Emit.bind_ok h
    cases hbefore
    obtain ⟨test, t', htest, h₂⟩ := Emit.bind_ok h₁
    obtain ⟨rfl, code', hc, rfl⟩ := Expr.code_of_lowerTest hp (Emit.within_ok htest)
    obtain ⟨inner, u, hbody, h₃⟩ := Emit.bind_ok h₂
    obtain ⟨hp₁, hbody⟩ := Stmt.lowers_of_lowerAll body hp (Emit.within_ok hbody)
    obtain ⟨_, u₁, hmod, hpure⟩ := Emit.bind_ok h₃
    cases hmod
    cases hpure
    exact ⟨hp₁, .loop hc hbody⟩

theorem Stmt.lowers_of_lowerAll : ∀ (p : List Stmt) {s s' : State} {code : Listing},
    s.pool.Distinct → Stmt.lowerAll p s = (.ok code, s') →
    s'.pool = s.pool ∧ Lowers s.pool s.frame p code s'.frame
  | [], s, s', code, _, h => by
    cases h
    exact ⟨rfl, .nil _⟩
  | st :: p, s, s', code, hp, h => by
    obtain ⟨first, t, hst, htail⟩ := Emit.bind_ok h
    obtain ⟨others, u, hall, hpure⟩ := Emit.bind_ok htail
    cases hpure
    obtain ⟨hpool, hcons⟩ := Stmt.lowers_of_lower st hp hst
    obtain ⟨hpool', hrest⟩ := Stmt.lowers_of_lowerAll p (by rwa [hpool]) hall
    rw [hpool] at hpool' hrest
    exact ⟨hpool', hcons hrest⟩

end

/-! ## Lowering what has code -/

/-- An expression with code is lowered to it, and the state stays as it was. -/
theorem Expr.Code.lower_eq {f : Frame} {pool : Pool} {e : Expr} {code : Listing}
    (h : e.Code f pool code) (hp : pool.Distinct) :
    e.lower ⟨pool, f⟩ = (.ok code, ⟨pool, f⟩) := by
  induction h with
  | literal pool n => rfl
  | @name pool x m hread =>
    have hslot : readSlot x ⟨pool, f⟩ = (.ok m, ⟨pool, f⟩) := by simp only [readSlot, hread]
    exact Emit.bind_of_ok _ hslot
  | @binary pool pool' op l r q first second _ hacq _ ihl ihr =>
    have hright := ihr (hp.of_acquire? hacq)
    refine (Emit.bind_of_ok _ (ihl hp)).trans ?_
    refine Emit.bind_of_ok _ (Emit.withScratch_of_ok hp hacq ?_)
    exact Emit.bind_of_ok _ hright

theorem Expr.Code.lowerTest_eq {f : Frame} {pool : Pool} {c : Expr} {test : Listing}
    (h : c.Code f pool test) (hp : pool.Distinct) (target : Label) :
    c.lowerTest target ⟨pool, f⟩ = (.ok (testCode test target), ⟨pool, f⟩) :=
  Emit.bind_of_ok _ (h.lower_eq hp)

namespace Lower

/-- Statements with code are lowered to it. -/
theorem Lowers.lowerAll_eq {pool : Pool} {f g : Frame} {p : List Stmt} {code : Listing}
    (h : Lowers pool f p code g) (hp : pool.Distinct) :
    Stmt.lowerAll p ⟨pool, f⟩ = (.ok code, ⟨pool, g⟩) := by
  have hcons : ∀ {s : Stmt} {rest : List Stmt} {first others : Listing} {f f' g : Frame},
      s.lower ⟨pool, f⟩ = (.ok first, ⟨pool, f'⟩) →
      Stmt.lowerAll rest ⟨pool, f'⟩ = (.ok others, ⟨pool, g⟩) →
      Stmt.lowerAll (s :: rest) ⟨pool, f⟩ = (.ok (first ++ others), ⟨pool, g⟩) :=
    fun hs hrest => (Emit.bind_of_ok _ hs).trans (Emit.bind_of_ok _ hrest)
  induction h with
  | nil f => rfl
  | @bare f g x rest code _ ih =>
    have hbare : (Stmt.bare x).lower ⟨pool, f⟩ = (.ok [], ⟨pool, f⟩) := rfl
    exact hcons hbare ih
  | assign he _ ih =>
    refine hcons ?_ ih
    refine (Emit.bind_of_ok _ (Emit.within_of_ok _ (he.lower_eq hp))).trans ?_
    rfl
  | branch hc _ _ _ ihy ihn ih =>
    refine hcons ?_ ih
    refine (Emit.bind_of_ok _ (Emit.within_of_ok _ (hc.lowerTest_eq hp _))).trans ?_
    refine (Emit.bind_of_ok _ rfl).trans ?_
    refine (Emit.bind_of_ok _ (Emit.within_of_ok _ ihy)).trans ?_
    refine (Emit.bind_of_ok _ rfl).trans ((Emit.bind_of_ok _ rfl).trans ?_)
    refine (Emit.bind_of_ok _ (Emit.within_of_ok _ ihn)).trans ?_
    rfl
  | loop hc _ _ ihb ih =>
    refine hcons ?_ ih
    refine (Emit.bind_of_ok _ rfl).trans ?_
    refine (Emit.bind_of_ok _ (Emit.within_of_ok _ (hc.lowerTest_eq hp _))).trans ?_
    refine (Emit.bind_of_ok _ (Emit.within_of_ok _ ihb)).trans ?_
    rfl

end Lower

/-! ## Listings -/

theorem Lower.lowerAll_of_generate {limit : Nat} {p : Program} {code : Listing}
    (h : generate limit p = .ok code) :
    ∃ body s, Stmt.lowerAll p (.ofLimit limit) = (.ok body, s) ∧ code = routine s.frame body := by
  unfold generate at h
  split at h
  · next body s hs => cases h; exact ⟨body, s, hs, rfl⟩
  · cases h

theorem Lower.lowers_of_generate {limit : Nat} {p : Program} {code : Listing}
    (h : generate limit p = .ok code) :
    ∃ body f, Lowers (.ofLimit limit) .empty p body f ∧ code = routine f body := by
  obtain ⟨body, s, hs, rfl⟩ := lowerAll_of_generate h
  obtain ⟨-, hl⟩ := Stmt.lowers_of_lowerAll p (Pool.distinct_ofLimit limit) hs
  exact ⟨body, s.frame, hl, rfl⟩

theorem Lower.Lowers.generate_eq {limit : Nat} {p : Program} {body : Listing} {f : Frame}
    (h : Lowers (.ofLimit limit) .empty p body f) : generate limit p = .ok (routine f body) := by
  have hall : Stmt.lowerAll p (.ofLimit limit) = (.ok body, ⟨.ofLimit limit, f⟩) :=
    h.lowerAll_eq (Pool.distinct_ofLimit limit)
  simp only [generate, hall]

theorem generate_of_compileWith {limit : Nat} {source : String} {code : Listing}
    (h : compileWith limit source = .ok code) :
    ∃ p, Reading.parse source = .ok p ∧ generate limit p = .ok code := by
  unfold compileWith at h
  split at h
  · cases h
  · next p hp =>
    split at h
    · cases h
    · next code' hg => cases h; exact ⟨p, hp, hg⟩

end Kennel
