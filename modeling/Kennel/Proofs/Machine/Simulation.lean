import Kennel.Proofs.Eval.Safety
import Kennel.Proofs.Machine.Expr
import Kennel.Proofs.Machine.Labels

/-!
# Runs of programs on the machine

While a program is evaluated the machine executes its code. `Located` says where in the listing the
statements stand that are still to be worked off, and `Agrees` that the slots hold the variables and
`rax` the latest value. One statement of the evaluation is some steps of the machine
(`Located.execute`).
-/

namespace Kennel.Machine

open Asm Lower Eval

/-! ## The frame -/

/-- The frame pointer is below the return address, and the stack pointer `size` bytes below it. -/
structure Framed (entry : Int64) (size : Nat) (c : Cpu) : Prop where
  rbp : (c.get .rbp).toInt = entry.toInt - 8
  rsp : (c.get .rsp).toInt = entry.toInt - 8 - size

theorem Cpu.toInt_of_address? {entry a : Int64} {c : Cpu} {base : Register} {offset : Int}
    (h : c.address? entry base offset = some a) : a.toInt = (c.get base).toInt + offset :=
  word?_eq_some (Option.filter_eq_some_iff.mp h).1

namespace Framed

variable {entry : Int64} {size : Nat} {c : Cpu}

theorem exists_address? (h : Framed entry size c) {i : Nat} (hi : 8 * (i + 1) ≤ size) :
    ∃ a, c.address? entry .rbp (-(8 * (i + 1))) = some a := by
  have hbp := h.rbp
  have hsp := h.rsp
  have hlow := (c.get .rsp).minValue_le_toInt
  have hhigh := (c.get .rbp).toInt_le
  obtain ⟨a, ha, hn⟩ := exists_word? (n := (c.get .rbp).toInt + -(8 * (i + 1)))
    (by omega) (by omega)
  refine ⟨a, ?_⟩
  rw [Cpu.address?, ha, Option.filter_some, if_pos]
  simp only [decide_eq_true_eq]
  omega

theorem write (h : Framed entry size c) (a : Int64) (w : Option Int64) :
    Framed entry size (c.write a w) :=
  ⟨by simpa using h.rbp, by simpa using h.rsp⟩

theorem kept {c' : Cpu} {free : Register → Prop} (h : Framed entry size c) (hk : Kept free c c')
    (hbp : ¬ free .rbp) (hsp : ¬ free .rsp) : Framed entry size c' := by
  constructor
  · rw [hk.get .rbp (by decide) (by decide) hbp]
    exact h.rbp
  · rw [hk.get .rsp (by decide) (by decide) hsp]
    exact h.rsp

end Framed

/-- Different slots have different addresses. -/
theorem Cpu.load?_write {entry a : Int64} {c : Cpu} {i : Nat}
    (ha : c.address? entry .rbp (-(8 * (i + 1))) = some a) (v : Int64) (j : Nat) :
    (c.write a (some v)).load? entry (slot j) =
      if j = i then some v else c.load? entry (slot j) := by
  have haddr : (c.write a (some v)).address? entry .rbp (-(8 * (j + 1))) =
      c.address? entry .rbp (-(8 * (j + 1))) :=
    Cpu.address?_congr entry _ (Cpu.get_write ..) (Cpu.get_write ..)
  simp only [slot, Cpu.load?, haddr]
  split
  · next hj =>
    subst hj
    simp [ha, Cpu.write]
  · next hj =>
    cases hb : c.address? entry .rbp (-(8 * (j + 1))) with
    | none => rfl
    | some b =>
      have hab : b ≠ a := by
        rintro rfl
        have := Cpu.toInt_of_address? ha
        have := Cpu.toInt_of_address? hb
        omega
      simp [Cpu.write, hab]

namespace Stored

variable {entry : Int64} {slots names : List String} {vars : Store} {c : Cpu}

theorem mono {names' : List String} (h : Stored entry slots names vars c)
    (hs : names' ⊆ names) : Stored entry slots names' vars c := fun x hx => h x (hs hx)

theorem covers (h : Stored entry slots names vars c) : Covers vars names := by
  intro x hx
  obtain ⟨-, v, hv, -⟩ := h x hx
  exact ⟨v, hv⟩

/-- Storing a value in the slot of a variable. -/
theorem assign {f : Frame} {x : String} {a : Int64} (h : Stored entry slots f.assigned vars c)
    (hx : x ∈ slots) (ha : c.address? entry .rbp (-(8 * ((slots.idxOf x : Nat) + 1))) = some a)
    (v : Int64) :
    Stored entry slots (f.assign x).2.assigned (vars.set x v) (c.write a (some v)) := by
  intro y hy
  rw [Cpu.load?_write ha, Store.get?_set]
  by_cases hyx : y = x
  · subst hyx
    exact ⟨hx, v, by simp, by simp⟩
  · obtain ⟨hslot, w, hw, hload⟩ := h y ((Frame.mem_assigned_assign.mp hy).resolve_left hyx)
    have hne : slots.idxOf y ≠ slots.idxOf x := fun e => hyx ((List.idxOf_inj hslot).mp e)
    exact ⟨hslot, w, by rw [if_neg hyx, hw], by rw [if_neg hne, hload]⟩

end Stored

/-! ## Evaluation and machine -/

/-- What the simulation takes for granted about listing, pool and slots. -/
structure Loaded (m : Setting) (pool : Pool) (slots : List String) (size : Nat) : Prop where
  resolves : Resolves m.code
  distinct : pool.Distinct
  scratch : pool.registers ⊆ scratchRegisters
  fits : 8 * slots.length ≤ size

theorem Loaded.not_free {m : Setting} {pool : Pool} {slots : List String} {size : Nat}
    (h : Loaded m pool slots size) {r : Register} (hr : r ∉ scratchRegisters) : ¬ pool.Free r :=
  fun hf => hr (h.scratch (List.mem_map_of_mem hf))

/-- The processor has the variables that may be read in their slots and the latest value, or what
was there before the first one, in `rax`. -/
structure Agrees (m : Setting) (slots : List String) (size : Nat) (initial : Int64) (f : Frame)
    (st : Eval.State) (c : Cpu) : Prop where
  framed : Framed m.entry size c
  stored : Stored m.entry slots f.assigned st.vars c
  acc : c.get .rax = st.acc.getD initial

section

variable {m : Setting} {pool : Pool} {slots : List String} {size finish : Nat} {initial : Int64}
  {f : Frame} {st : Eval.State} {c : Cpu}

theorem Agrees.value {c' : Cpu} {v : Int64} (h : Agrees m slots size initial f st c)
    (hl : Loaded m pool slots size) (hk : Kept pool.Free c c') (hv : c'.get .rax = v) :
    Agrees m slots size initial f { st with acc := some v } c' := by
  have hbp := hl.not_free (r := .rbp) (by decide)
  have hsp := hl.not_free (r := .rsp) (by decide)
  exact ⟨h.framed.kept hk hbp hsp, h.stored.kept hk hbp hsp, hv⟩

/-- The latest value is stored in the slot of a variable. -/
theorem Agrees.assign {x : String} {v : Int64}
    (h : Agrees m slots size initial f { st with acc := some v } c)
    (hl : Loaded m pool slots size) (hx : (f.assign x).2.slots <+: slots) :
    ∃ c', c.through? m.entry [.instr (.mov (.reg accumulator) (f.assign x).1)] = some c' ∧
      Agrees m slots size initial (f.assign x).2 ⟨st.vars.set x v, some v, st.steps⟩ c' := by
  have hslot : (f.assign x).1 = slot (slots.idxOf x) :=
    congrArg slot (hx.idxOf_eq_of_mem (f.mem_slots_assign x))
  have hmem := hx.subset (f.mem_slots_assign x)
  have hfits := hl.fits
  have hlt := List.idxOf_lt_length_of_mem hmem
  obtain ⟨a, ha⟩ := h.framed.exists_address? (i := slots.idxOf x) (by omega)
  refine ⟨c.write a (some v), ?_, h.framed.write .., h.stored.assign hmem ha v, ?_⟩
  · have hacc : c.get .rax = v := h.acc
    simp [hslot, slot, Cpu.through?, Cpu.exec?, Cpu.load?, Cpu.store?, accumulator, hacc, ha]
  · rw [Cpu.get_write]
    exact h.acc

/-- A condition is computed, and the jump taken if it is zero. -/
theorem Agrees.test {e : Expr} {test : Listing} {target : Label} {pos k : Nat} {v : Int64}
    (h : Agrees m slots size initial f st c) (hl : Loaded m pool slots size)
    (he : e.Code f pool test) (hf : f.slots <+: slots) (hat : At m.code pos (testCode test target))
    (hk : labelAt? target.render m.code = some k) (hv : e.eval st.vars = .ok v)
    (calls : List Cpu) :
    ∃ c', m.Steps (test.length + 2) ⟨c, pos, calls⟩
        ⟨c', if v = 0 then k else pos + (test.length + 2), calls⟩ ∧
      Agrees m slots size initial f { st with acc := some v } c' := by
  obtain ⟨c₁, hrun, hv₁, hk₁⟩ := he.through? hl.distinct hl.scratch hf h.stored hv
  let c₂ : Cpu := { c₁ with flags := (v, 0) }
  refine ⟨c₂, ?_, h.value hl (hk₁.trans (.flags ..)) hv₁⟩
  have hcmp : c₁.through? m.entry [.instr (.cmp (.imm 0) accumulator)] = some c₂ := by
    simp [Cpu.through?, Cpu.exec?, Cpu.load?, accumulator, hv₁, c₂]
  have hseg : testCode test target = (test ++ [.instr (.cmp (.imm 0) accumulator)]) ++
      [.instr (.jump (some .equal) target)] := by simp [testCode]
  rw [hseg] at hat
  have hsteps := Setting.steps_of_through? calls hat.left
    (by rw [Cpu.through?_append, hrun]; exact hcmp)
  have hjump := hat.right.head
  simp only [List.length_append, List.length_singleton] at hsteps hjump
  refine hsteps.trans (.single ?_)
  by_cases hz : v = 0
  · rw [if_pos hz]
    exact Setting.step_jump hjump (by simp [Cpu.holds, c₂, hz]) hk
  · rw [if_neg hz]
    exact Setting.step_jump_not hjump (by simp [Cpu.holds, c₂, hz])

/-! ## Where statements stand -/

/-- The code of these statements stands at the position, in blocks with labels and jumps between
them, and the machine gets from its end to `finish`. Each block may read what is assigned at the end
of the one before. -/
inductive Located (m : Setting) (pool : Pool) (slots : List String) (finish : Nat) :
    Frame → List Stmt → Nat → Prop
  | done (f : Frame) : Located m pool slots finish f [] finish
  | block {f g h : Frame} {p rest : List Stmt} {code : Listing} {pos : Nat} :
      Lowers pool f p code g → At m.code pos code → g.slots <+: slots → h.assigned ⊆ g.assigned →
      Located m pool slots finish h rest (pos + code.length) →
      Located m pool slots finish f (p ++ rest) pos
  | label {f : Frame} {work : List Stmt} {l : Label} {pos : Nat} :
      m.code[pos]? = some (.label l) → Located m pool slots finish f work (pos + 1) →
      Located m pool slots finish f work pos
  | jump {f : Frame} {work : List Stmt} {l : Label} {pos k : Nat} :
      m.code[pos]? = some (.instr (.jump none l)) → labelAt? l.render m.code = some k →
      Located m pool slots finish f work k → Located m pool slots finish f work pos

/-- Labels and jumps lead to the end when there is nothing left to do. -/
theorem Located.nil {pos : Nat} (h : Located m pool slots finish f [] pos) (c : Cpu)
    (calls : List Cpu) : ∃ n, m.Steps n ⟨c, pos, calls⟩ ⟨c, finish, calls⟩ := by
  generalize hw : [] = work at h
  induction h with
  | done f => exact ⟨0, .refl _⟩
  | @block f g h p rest code pos hl _ _ _ _ ih =>
    obtain ⟨rfl, rfl⟩ := List.append_eq_nil_iff.mp hw.symm
    cases hl
    exact ih rfl
  | label hlabel _ ih =>
    obtain ⟨n, hn⟩ := ih hw
    exact ⟨n + 1, .cons (Setting.step_label hlabel) hn⟩
  | jump hjump hk _ ih =>
    obtain ⟨n, hn⟩ := ih hw
    exact ⟨n + 1, .cons (Setting.step_jump hjump rfl hk) hn⟩

/-- Labels and jumps lead to the block that the first statement begins. -/
theorem Located.uncons {s : Stmt} {work : List Stmt} {pos : Nat}
    (h : Located m pool slots finish f (s :: work) pos) (c : Cpu) (calls : List Cpu) :
    ∃ n k f' g g' p rest code, m.Steps n ⟨c, pos, calls⟩ ⟨c, k, calls⟩ ∧
      f'.assigned ⊆ f.assigned ∧ Lowers pool f' (s :: p) code g ∧ At m.code k code ∧
      g.slots <+: slots ∧ g'.assigned ⊆ g.assigned ∧
      Located m pool slots finish g' rest (k + code.length) ∧ work = p ++ rest := by
  generalize hw : s :: work = w at h
  induction h with
  | done f => cases hw
  | @block f g h p rest code pos hl hat hg hs hr ih =>
    cases p with
    | nil =>
      cases hl
      obtain ⟨n, k, f', g, g', p, rest, code, hn, hf, h⟩ := ih hw
      exact ⟨n, k, f', g, g', p, rest, code, hn, fun x hx => hs (hf hx), h⟩
    | cons s' p =>
      cases hw
      exact ⟨0, pos, f, g, h, p, rest, code, .refl _, fun _ hx => hx, hl, hat, hg, hs, hr, rfl⟩
  | label hlabel _ ih =>
    obtain ⟨n, k, f', g, g', p, rest, code, hn, h⟩ := ih hw
    exact ⟨n + 1, k, f', g, g', p, rest, code, .cons (Setting.step_label hlabel) hn, h⟩
  | jump hjump hk _ ih =>
    obtain ⟨n, k, f', g, g', p, rest, code, hn, h⟩ := ih hw
    exact ⟨n + 1, k, f', g, g', p, rest, code, .cons (Setting.step_jump hjump rfl hk) hn, h⟩

theorem At.branch {code test yes no : Listing} {pos id : Nat}
    (h : At code pos (branchCode id test yes no)) :
    At code pos (testCode test (.numbered .otherwise id)) ∧
    At code (pos + (test.length + 2)) yes ∧
    code[pos + (test.length + 2) + yes.length]? =
      some (.instr (.jump none (.numbered .endBranch id))) ∧
    code[pos + (test.length + 2) + yes.length + 1]? = some (.label (.numbered .otherwise id)) ∧
    At code (pos + (test.length + 2) + yes.length + 2) no ∧
    code[pos + (test.length + 2) + yes.length + 2 + no.length]? =
      some (.label (.numbered .endBranch id)) := by
  unfold branchCode at h
  have hyes := h.left.left.left.right
  have hjump := h.left.left.right
  have hno := h.left.right
  have hend := h.right
  simp only [testCode, List.length_append, List.length_cons, List.length_nil, ← Nat.add_assoc]
    at hyes hjump hno hend
  exact ⟨h.left.left.left.left, hyes, hjump.head, hjump.tail.head, hno, hend.head⟩

theorem length_branchCode (pos id : Nat) (test yes no : Listing) :
    pos + (branchCode id test yes no).length =
      pos + (test.length + 2) + yes.length + 2 + no.length + 1 := by
  simp only [branchCode, testCode, List.length_append, List.length_cons, List.length_nil]
  omega

theorem At.loop {code test body : Listing} {pos id : Nat}
    (h : At code pos (loopCode id test body)) :
    code[pos]? = some (.label (.numbered .loop id)) ∧
    At code (pos + 1) (testCode test (.numbered .endLoop id)) ∧
    At code (pos + 1 + (test.length + 2)) body ∧
    code[pos + 1 + (test.length + 2) + body.length]? =
      some (.instr (.jump none (.numbered .loop id))) ∧
    code[pos + 1 + (test.length + 2) + body.length + 1]? =
      some (.label (.numbered .endLoop id)) := by
  unfold loopCode at h
  have hbody := h.left.right
  have hjump := h.right
  simp only [testCode, List.length_append, List.length_cons, List.length_nil] at hbody hjump
  rw [show pos + (test.length + 2 + 1) = pos + 1 + (test.length + 2) by omega] at hbody
  rw [show pos + (test.length + 2 + 1 + body.length) = pos + 1 + (test.length + 2) + body.length
    by omega] at hjump
  exact ⟨h.left.left.head, h.left.left.tail, hbody, hjump.head, hjump.tail.head⟩

theorem length_loopCode (pos id : Nat) (test body : Listing) :
    pos + (loopCode id test body).length =
      pos + 1 + (test.length + 2) + body.length + 1 + 1 := by
  simp only [loopCode, testCode, List.length_append, List.length_cons, List.length_nil]
  omega

/-- Behind the test of a branch stands the first block; the jump leads to the second one. -/
theorem Located.branch {f₁ f₂ : Frame} {id : Nat} {yes no rest : List Stmt}
    {test first second : Listing} {pos : Nat} (hm : Loaded m pool slots size)
    (hy : Lowers pool f yes first f₁) (hn : Lowers pool (f₁.withAssigned f.assigned) no second f₂)
    (hf : f₂.slots <+: slots) (hat : At m.code pos (branchCode id test first second))
    (hrest : Located m pool slots finish (f₂.meet f₁.assigned) rest
      (pos + (branchCode id test first second).length)) :
    ∃ k, labelAt? (Label.numbered .otherwise id).render m.code = some k ∧
      Located m pool slots finish (f₁.withAssigned f.assigned) (no ++ rest) k ∧
      Located m pool slots finish f (yes ++ rest) (pos + (test.length + 2)) := by
  obtain ⟨-, hfirst, hjump, helse, hsecond, hend⟩ := hat.branch
  rw [length_branchCode] at hrest
  have hafter := Located.label hend hrest
  have hno := Located.block hn hsecond hf (fun x hx => (Frame.mem_assigned_meet.mp hx).1) hafter
  have hyes := Located.block hy hfirst (hn.slots_prefix.trans hf)
    (fun x hx => (Frame.mem_assigned_meet.mp hx).2) (.jump hjump (hm.resolves _ _ hend) hafter)
  exact ⟨_, hm.resolves _ _ helse, .label helse hno, hyes⟩

/-- Behind the test of a loop stands its body, from which a jump leads back; the jump of the test
leads to what follows the loop. -/
theorem Located.loop {f₁ : Frame} {id : Nat} {e : Expr} {body rest : List Stmt}
    {test inner : Listing} {pos : Nat} (hm : Loaded m pool slots size)
    (hb : Lowers pool f body inner f₁) (hf : f₁.slots <+: slots)
    (hat : At m.code pos (loopCode id test inner))
    (hrest : Located m pool slots finish (f₁.withAssigned f.assigned) rest
      (pos + (loopCode id test inner).length))
    (hagain : Located m pool slots finish f (.loop id e body :: rest) pos) :
    ∃ k, labelAt? (Label.numbered .endLoop id).render m.code = some k ∧
      Located m pool slots finish (f₁.withAssigned f.assigned) rest k ∧
      Located m pool slots finish f (body ++ .loop id e body :: rest)
        (pos + 1 + (test.length + 2)) := by
  obtain ⟨hlabel, -, hbody, hjump, hend⟩ := hat.loop
  rw [length_loopCode] at hrest
  have hbody' := Located.block hb hbody hf hb.assigned_subset
    (.jump hjump (hm.resolves _ _ hlabel) hagain)
  exact ⟨_, hm.resolves _ _ hend, .label hend hrest, hbody'⟩

/-! ## The simulation -/

/-- From this position the machine follows the evaluation of a statement with `rest` after it, up to
where other statements take over. Only a bare name takes it no step. -/
def Follows (m : Setting) (pool : Pool) (slots : List String) (size finish : Nat) (initial : Int64)
    (s : Stmt) (rest : List Stmt) (st : Eval.State) (a : Config) : Prop :=
  ∃ work st' f n c k, Eval.execute s st = (.ok work, st') ∧ m.Steps n a ⟨c, k, a.calls⟩ ∧
    Located m pool slots finish f (work ++ rest) k ∧ Agrees m slots size initial f st' c ∧
    (0 < n ∨ ∃ x, s = .bare x)

theorem Agrees.follows_assign {x : String} {e : Expr} {value : Listing} {rest : List Stmt}
    {pos : Nat} {calls : List Cpu} (h : Agrees m slots size initial f st c)
    (hm : Loaded m pool slots size) (he : e.Code f pool value) (hf : f.slots <+: slots)
    (hx : (f.assign x).2.slots <+: slots)
    (hat : At m.code pos (value ++ [.instr (.mov (.reg accumulator) (f.assign x).1)]))
    (hrest : Located m pool slots finish (f.assign x).2 rest
      (pos + (value ++ [Item.instr (.mov (.reg accumulator) (f.assign x).1)]).length)) :
    Follows m pool slots size finish initial (.assign x e) rest st ⟨c, pos, calls⟩ := by
  obtain ⟨v, hv⟩ := he.eval_ok h.stored.covers
  obtain ⟨c₁, hrun, hv₁, hk₁⟩ := he.through? hm.distinct hm.scratch hf h.stored hv
  obtain ⟨c₂, hstore, h₂⟩ := (h.value hm hk₁ hv₁).assign hm hx
  have hsteps := Setting.steps_of_through? calls hat
    (by rw [Cpu.through?_append, hrun]; exact hstore)
  refine ⟨[], ⟨st.vars.set x v, some v, st.steps⟩, (f.assign x).2, _, c₂, _, ?_, hsteps, hrest, h₂,
    .inl (by simp)⟩
  simp only [Eval.execute, State.value_of_eval hv]

/-- After the test of a branch the machine stands before one of the two blocks, with the other one
and the labels still to be passed. -/
theorem Agrees.follows_branch {f₁ f₂ : Frame} {id : Nat} {e : Expr} {yes no rest : List Stmt}
    {test first second : Listing} {pos : Nat} {calls : List Cpu}
    (h : Agrees m slots size initial f st c) (hm : Loaded m pool slots size)
    (he : e.Code f pool test) (hy : Lowers pool f yes first f₁)
    (hn : Lowers pool (f₁.withAssigned f.assigned) no second f₂) (hf : f₂.slots <+: slots)
    (hat : At m.code pos (branchCode id test first second))
    (hrest : Located m pool slots finish (f₂.meet f₁.assigned) rest
      (pos + (branchCode id test first second).length)) :
    Follows m pool slots size finish initial (.branch id e yes no) rest st ⟨c, pos, calls⟩ := by
  obtain ⟨v, hv⟩ := he.eval_ok h.stored.covers
  obtain ⟨k, hk, hno, hyes⟩ := Located.branch hm hy hn hf hat hrest
  have hfs := hy.slots_prefix.trans (hn.slots_prefix.trans hf)
  obtain ⟨c₁, hsteps, h₁⟩ := h.test hm he hfs hat.branch.1 hk hv calls
  by_cases hz : v = 0
  · rw [if_pos hz] at hsteps
    refine ⟨no, { st with acc := some v }, f₁.withAssigned f.assigned, _, c₁, _, ?_, hsteps, hno,
      ⟨h₁.framed, h₁.stored, h₁.acc⟩, .inl (Nat.succ_pos _)⟩
    simp only [Eval.execute, State.value_of_eval hv, if_pos hz]
  · rw [if_neg hz] at hsteps
    refine ⟨yes, { st with acc := some v }, f, _, c₁, _, ?_, hsteps, hyes, h₁,
      .inl (Nat.succ_pos _)⟩
    simp only [Eval.execute, State.value_of_eval hv, if_neg hz]

/-- After the test of a loop the machine stands behind it, or before the body, from which a jump
leads back. -/
theorem Agrees.follows_loop {f₁ : Frame} {id : Nat} {e : Expr} {body rest : List Stmt}
    {test inner : Listing} {pos : Nat} {calls : List Cpu}
    (h : Agrees m slots size initial f st c) (hm : Loaded m pool slots size)
    (he : e.Code f pool test) (hb : Lowers pool f body inner f₁) (hf : f₁.slots <+: slots)
    (hat : At m.code pos (loopCode id test inner))
    (hrest : Located m pool slots finish (f₁.withAssigned f.assigned) rest
      (pos + (loopCode id test inner).length))
    (hagain : Located m pool slots finish f (.loop id e body :: rest) pos) :
    Follows m pool slots size finish initial (.loop id e body) rest st ⟨c, pos, calls⟩ := by
  obtain ⟨v, hv⟩ := he.eval_ok h.stored.covers
  obtain ⟨k, hk, hafter, hbody⟩ := Located.loop hm hb hf hat hrest hagain
  obtain ⟨hlabel, htest, -⟩ := hat.loop
  obtain ⟨c₁, hsteps, h₁⟩ := h.test hm he (hb.slots_prefix.trans hf) htest hk hv calls
  have hsteps' := Setting.Steps.cons (Setting.step_label (c := ⟨c, pos, calls⟩) hlabel) hsteps
  by_cases hz : v = 0
  · rw [if_pos hz] at hsteps'
    refine ⟨[], { st with acc := some v }, f₁.withAssigned f.assigned, _, c₁, _, ?_, hsteps',
      hafter, ⟨h₁.framed, h₁.stored, h₁.acc⟩, .inl (Nat.succ_pos _)⟩
    simp only [Eval.execute, State.value_of_eval hv, if_pos hz]
  · rw [if_neg hz] at hsteps'
    refine ⟨body ++ [.loop id e body], { st with acc := some v }, f, _, c₁, _, ?_, hsteps', ?_, h₁,
      .inl (Nat.succ_pos _)⟩
    · simp only [Eval.execute, State.value_of_eval hv, if_neg hz]
    · rw [List.append_assoc]
      exact hbody

/-- One statement of the evaluation. -/
theorem Located.execute {s : Stmt} {rest : List Stmt} {pos : Nat} (hm : Loaded m pool slots size)
    (h : Located m pool slots finish f (s :: rest) pos)
    (ha : Agrees m slots size initial f st c) (calls : List Cpu) :
    Follows m pool slots size finish initial s rest st ⟨c, pos, calls⟩ := by
  obtain ⟨n, k, f, g, g', p, rest, code, hn, hf, hl, hat, hg, hs, hr, rfl⟩ := h.uncons c calls
  replace ha : Agrees m slots size initial f st c := ⟨ha.framed, ha.stored.mono hf, ha.acc⟩
  suffices hk : Follows m pool slots size finish initial s (p ++ rest) st ⟨c, k, calls⟩ by
    obtain ⟨work, st', f', n', c', k', he, hn', hnext, hagrees, hpos⟩ := hk
    exact ⟨work, st', f', n + n', c', k', he, hn.trans hn', hnext, hagrees,
      hpos.imp_left (Nat.add_pos_right n)⟩
  have hagain := Located.block hl hat hg hs hr
  have hfs := hl.slots_prefix.trans hg
  cases hl with
  | bare hp =>
    have hnext : Located m pool slots finish f (p ++ rest) k := .block hp hat hg hs hr
    exact ⟨[], st, f, 0, c, k, rfl, .refl _, hnext, ha, .inr ⟨_, rfl⟩⟩
  | assign he hp =>
    rw [List.length_append, ← Nat.add_assoc] at hr
    exact ha.follows_assign hm he hfs (hp.slots_prefix.trans hg) hat.left
      (.block hp hat.right hg hs hr)
  | branch he hy hno hp =>
    rw [List.length_append, ← Nat.add_assoc] at hr
    exact ha.follows_branch hm he hy hno (hp.slots_prefix.trans hg) hat.left
      (.block hp hat.right hg hs hr)
  | loop he hb hp =>
    rw [List.length_append, ← Nat.add_assoc] at hr
    exact ha.follows_loop hm he hb (hp.slots_prefix.trans hg) hat.left
      (.block hp hat.right hg hs hr) hagain

/-- A run that ends, from any point of it on. -/
theorem Located.run {work : List Stmt} {pos fuel : Nat} {acc : Option Int64} {st' : Eval.State}
    (hm : Loaded m pool slots size) (h : Located m pool slots finish f work pos)
    (ha : Agrees m slots size initial f st c)
    (hrun : Eval.run none fuel work st = some (.ok acc, st')) (calls : List Cpu) :
    ∃ n c', m.Steps n ⟨c, pos, calls⟩ ⟨c', finish, calls⟩ ∧ Framed m.entry size c' ∧
      c'.get .rax = acc.getD initial := by
  fun_induction Eval.run none fuel work st generalizing f c pos with
  | case1 fuel st =>
    cases hrun
    obtain ⟨n, hn⟩ := h.nil c calls
    exact ⟨n, c, hn, ha.framed, ha.acc⟩
  | case2 => cases hrun
  | case3 fuel s rest st work st₁ hstep ih =>
    have ha' : Agrees m slots size initial f { st with steps := st.steps + 1 } c :=
      ⟨ha.framed, ha.stored, ha.acc⟩
    obtain ⟨work', st₂, f₁, n, c₁, k, he, hn, hk, ha₁, -⟩ := h.execute hm ha' calls
    have hstep' : step none s st = (.ok work', st₂) := he
    rw [hstep'] at hstep
    cases hstep
    obtain ⟨n', c', hn', hc'⟩ := ih hk ha₁ hrun
    exact ⟨n + n', c', hn.trans hn', hc'⟩
  | case4 => cases hrun

end

end Kennel.Machine
