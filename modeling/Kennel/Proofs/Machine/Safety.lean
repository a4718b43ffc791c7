import Kennel.Proofs.Machine.Divergence

/-!
# Safety of every run

Wherever a run of a listing has come, it keeps to its frame: `Setting.Sound` says so of one
configuration. Inside the code of a program it is known where the machine goes next (`Within`), the
frame is up, and every variable that may be read has been stored (`Inside`). One step keeps both
(`Within.step`). Behind that code the frame is taken down, which restores what was there on entry
(`Leaving.step`). So every configuration of a run is sound (`sound_of_compileWith`).
-/

namespace Kennel

open Asm Lower Eval

namespace Asm.Instr

/-- The operand that an instruction takes a value from. -/
def source? : Instr → Option Operand
  | .mov source _ | .add source _ | .sub source _ | .imul source _ | .cmp source _ => some source
  | _ => none

/-- The operand that an instruction moves a value to. -/
def target? : Instr → Option Operand
  | .mov _ target => some target
  | _ => none

end Asm.Instr

namespace Machine

namespace Setting

/-- The next instruction loads the word at the address `k`. -/
def Loads (m : Setting) (c : Config) (k : Int) : Prop :=
  ∃ i base offset, m.code[c.pc]? = some (.instr i) ∧ i.source? = some (.mem base offset) ∧
    k = (c.cpu.get base).toInt + offset

/-- The next instruction stores a word at the address `k`. -/
def Stores (m : Setting) (c : Config) (k : Int) : Prop :=
  ∃ i base offset, m.code[c.pc]? = some (.instr i) ∧ i.target? = some (.mem base offset) ∧
    k = (c.cpu.get base).toInt + offset

/-- One of the first `n` steps from `a` on stores a word at the address `k`. -/
def StoredBefore (m : Setting) (a : Config) (n : Nat) (k : Int) : Prop :=
  ∃ j b, j < n ∧ m.Steps j a b ∧ m.Stores b k

/-- What holds of a configuration `c` that a run from `a` comes to after `n` steps, where the frame
has `size` bytes and is up from the position `first` to the position `last`. -/
structure Sound (m : Setting) (size first last : Nat) (a : Config) (n : Nat) (c : Config) :
    Prop where
  framed : first ≤ c.pc → c.pc ≤ last → Framed m.entry size c.cpu
  /-- Words are loaded and stored in the frame only, at multiples of eight bytes from its end. -/
  inFrame : ∀ k, m.Loads c k ∨ m.Stores c k →
    8 ∣ (c.cpu.get .rbp).toInt - k ∧ (c.cpu.get .rsp).toInt ≤ k ∧ k < (c.cpu.get .rbp).toInt
  stored : ∀ k, m.Loads c k → m.StoredBefore a n k
  aligned : ∀ symbol, m.code[c.pc]? = some (.instr (.call symbol)) →
    (c.cpu.get .rsp).toInt % 16 = 0
  restored : m.code[c.pc]? = some (.instr .ret) →
    c.cpu.get .rsp = a.cpu.get .rsp ∧ c.cpu.get .rbp = a.cpu.get .rbp

variable {m : Setting} {a c : Config} {n : Nat} {k : Int}

theorem StoredBefore.mono {n' : Nat} (h : m.StoredBefore a n k) (hn : n ≤ n') :
    m.StoredBefore a n' k := by
  obtain ⟨j, b, hj, hb⟩ := h
  exact ⟨j, b, by omega, hb⟩

/-- On its way to a return the machine can always go on. -/
theorem Returns.exists_step {b : Config} (h : m.Returns a b) (hc : m.Steps n a c) :
    ∃ outcome, m.step c = some outcome := by
  obtain ⟨j, d, hd, hret⟩ := h
  by_cases hn : n ≤ j
  · have hafter := hc.after hd hn
    generalize j - n = i at hafter
    cases hafter with
    | refl => exact ⟨_, hret⟩
    | cons hs _ => exact ⟨_, hs⟩
  · have hafter := hd.after hc (by omega)
    obtain ⟨i, hi⟩ : ∃ i, n - j = i + 1 := ⟨n - j - 1, by omega⟩
    rw [hi] at hafter
    cases hafter with
    | cons hs _ => cases hret.symm.trans hs

end Setting

/-! ## Items that leave memory alone -/

/-- The item has no operand in memory. -/
def MemoryFree (item : Item) : Prop :=
  ∀ i, item = .instr i → ∀ base offset,
    i.source? ≠ some (.mem base offset) ∧ i.target? ≠ some (.mem base offset)

/-- The item has no operand in memory and is no call and no return. -/
def Inert (item : Item) : Prop :=
  MemoryFree item ∧ (∀ symbol, item ≠ .instr (.call symbol)) ∧ item ≠ .instr .ret

namespace Setting.Sound

variable {m : Setting} {size first last n : Nat} {a c : Config} {item : Item}

theorem of_memoryFree (hi : m.code[c.pc]? = some item) (h : MemoryFree item)
    (hf : first ≤ c.pc → c.pc ≤ last → Framed m.entry size c.cpu)
    (hcall : ∀ symbol, item = .instr (.call symbol) → (c.cpu.get .rsp).toInt % 16 = 0)
    (hret : item = .instr .ret →
      c.cpu.get .rsp = a.cpu.get .rsp ∧ c.cpu.get .rbp = a.cpu.get .rbp) :
    m.Sound size first last a n c := by
  have hitem : ∀ {i}, m.code[c.pc]? = some (.instr i) → item = .instr i :=
    fun hi' => Option.some.inj (hi.symm.trans hi')
  have hload : ∀ k, ¬ m.Loads c k := by
    rintro k ⟨i, base, offset, hi', hsource, -⟩
    exact (h i (hitem hi') base offset).1 hsource
  have hstore : ∀ k, ¬ m.Stores c k := by
    rintro k ⟨i, base, offset, hi', htarget, -⟩
    exact (h i (hitem hi') base offset).2 htarget
  refine ⟨hf, ?_, fun k hk => absurd hk (hload k), ?_, fun hi' => hret (hitem hi')⟩
  · rintro k (hk | hk)
    · exact absurd hk (hload k)
    · exact absurd hk (hstore k)
  · exact fun symbol hi' => hcall symbol (hitem hi')

theorem of_inert (hi : m.code[c.pc]? = some item) (h : Inert item)
    (hf : first ≤ c.pc → c.pc ≤ last → Framed m.entry size c.cpu) :
    m.Sound size first last a n c :=
  of_memoryFree hi h.1 hf (fun symbol he => absurd he (h.2.1 symbol)) fun he => absurd he h.2.2

end Setting.Sound

theorem inert_of_mem_lower {op : Op} {q : Register} {item : Item} (h : item ∈ op.lower q) :
    Inert item := by
  cases op <;> simp only [Op.lower, comparison, List.mem_cons, List.not_mem_nil, or_false] at h
  all_goals rcases h with rfl | rfl | rfl <;> simp [Inert, MemoryFree, Instr.source?, Instr.target?]

/-- The instructions of an operator change the accumulator, the flags and a scratch register. -/
theorem kept_of_mem_lower {op : Op} {q : Register} {i : Instr} {entry : Int64} {c c' : Cpu}
    (hq : q ∈ scratchRegisters) (hi : .instr i ∈ op.lower q) (he : c.exec? entry i = some c') :
    Kept (· ∈ scratchRegisters) c c' := by
  have hql : q ≠ .al := by rintro rfl; exact absurd hq (by decide)
  have hcomparison : ∀ condition, .instr i ∈ comparison q condition →
      Kept (· ∈ scratchRegisters) c c' := by
    intro condition hi
    simp only [comparison, List.mem_cons, List.not_mem_nil, or_false, Item.instr.injEq] at hi
    rcases hi with rfl | rfl | rfl
    · cases he
      exact .flags ..
    · cases he
      exact ⟨Cpu.mem_set .., fun _ ha hl _ => Cpu.get_set_al hl ha⟩
    · cases he
      exact .set_rax ..
  cases op with
  | add | multiply =>
    cases List.mem_singleton.mp hi
    cases he
    exact .set_rax ..
  | subtract =>
    simp only [Op.lower, List.mem_cons, List.not_mem_nil, or_false, Item.instr.injEq] at hi
    rcases hi with rfl | rfl
    · cases he
      exact (Kept.set_rax ..).trans (.set_free _ _ hq hql)
    · cases he
      exact .set_rax ..
  | less => exact hcomparison _ hi
  | greater => exact hcomparison _ hi

/-- A label, or an instruction that computes in the accumulator and the scratch registers and reads
no slot but those of `names`. -/
inductive Quiet (slots names : List String) : Item → Prop
  | label (l : Label) : Quiet slots names (.label l)
  | literal (n : Int) : Quiet slots names (.instr (.mov (.imm n) (.reg accumulator)))
  | read {x : String} : x ∈ names → x ∈ slots →
      Quiet slots names (.instr (.mov (slot (slots.idxOf x)) (.reg accumulator)))
  | hold {q : Register} : q ∈ scratchRegisters →
      Quiet slots names (.instr (.mov (.reg accumulator) (.reg q)))
  | operate {op : Op} {q : Register} {item : Item} : q ∈ scratchRegisters → item ∈ op.lower q →
      Quiet slots names item
  | test : Quiet slots names (.instr (.cmp (.imm 0) accumulator))

theorem Quiet.of_code {slots : List String} {f : Frame} {pool : Pool} {e : Expr} {code : Listing}
    (h : e.Code f pool code) (hr : pool.registers ⊆ scratchRegisters) (hf : f.slots <+: slots) :
    ∀ item ∈ code, Quiet slots f.assigned item := by
  induction h with
  | literal pool n =>
    intro item hi
    cases List.mem_singleton.mp hi
    exact .literal _
  | @name pool x operand hread =>
    intro item hi
    cases List.mem_singleton.mp hi
    obtain ⟨hx, ha, rfl⟩ := Frame.read?_eq_some hread
    rw [hf.idxOf_eq_of_mem hx]
    exact .read ha (hf.subset hx)
  | @binary pool pool' op l r q first second _ hacq _ ihl ihr =>
    have hq : q ∈ scratchRegisters := hr (Pool.mem_registers_of_acquire? hacq)
    have hr' : pool'.registers ⊆ scratchRegisters := by rwa [Pool.registers_of_acquire? hacq]
    intro item hi
    simp only [List.cons_append, List.mem_append, List.mem_cons] at hi
    rcases hi with hi | rfl | hi | hi
    · exact ihl hr item hi
    · exact .hold hq
    · exact ihr hr' item hi
    · exact .operate hq hi

/-- The machine passes a quiet item and keeps memory and frame. -/
theorem Quiet.moves {slots names : List String} {item : Item} {m : Setting} {a b : Config}
    (h : Quiet slots names item) (hm : m.Moves a item b) :
    b.pc = a.pc + 1 ∧ Kept (· ∈ scratchRegisters) a.cpu b.cpu := by
  cases hm with
  | pass => exact ⟨rfl, rfl, fun _ _ _ _ => rfl⟩
  | exec he =>
    refine ⟨rfl, ?_⟩
    cases h with
    | literal n => cases he; exact .set_rax ..
    | read _ _ =>
      obtain ⟨v, -, hv⟩ := Option.bind_eq_some_iff.mp he
      cases hv
      exact .set_rax ..
    | @hold q hq =>
      cases he
      exact .set_free _ _ hq (by rintro rfl; exact absurd hq (by decide))
    | operate hq hi => exact kept_of_mem_lower hq hi he
    | test => cases he; exact .flags ..
  | jump | stay | call =>
    cases h with
    | @operate op q _ _ hi => cases op <;> simp [Op.lower, comparison] at hi

/-! ## Inside the code of a program -/

/-- Where a slot is, below the frame pointer. -/
def slotAddress (entry : Int64) (i : Nat) : Int := entry.toInt - 8 + -(8 * (i + 1))

/-- The machine stands before an item of the code of a program, or at its end, and every position
that it can go to from there is known. -/
inductive Within (m : Setting) (pool : Pool) (slots : List String) (finish : Nat) :
    Frame → Nat → Prop
  | done (f : Frame) : Within m pool slots finish f finish
  | quiet {f : Frame} {item : Item} {pos : Nat} :
      m.code[pos]? = some item → Quiet slots f.assigned item →
      Within m pool slots finish f (pos + 1) → Within m pool slots finish f pos
  | store {f : Frame} {x : String} {work : List Stmt} {pos : Nat} :
      m.code[pos]? = some (.instr (.mov (.reg accumulator) (slot (slots.idxOf x)))) → x ∈ slots →
      Located m pool slots finish (f.assign x).2 work (pos + 1) → Within m pool slots finish f pos
  | jump {f g : Frame} {condition : Option Condition} {l : Label} {work : List Stmt} {pos k : Nat} :
      m.code[pos]? = some (.instr (.jump condition l)) → labelAt? l.render m.code = some k →
      g.assigned ⊆ f.assigned → Located m pool slots finish g work k →
      (condition ≠ none → ∃ work', Located m pool slots finish f work' (pos + 1)) →
      Within m pool slots finish f pos

section

variable {m : Setting} {pool : Pool} {slots : List String} {size finish : Nat} {f : Frame}
  {pos : Nat}

theorem Within.of_quiet {code : Listing} (hat : At m.code pos code)
    (hq : ∀ item ∈ code, Quiet slots f.assigned item)
    (h : Within m pool slots finish f (pos + code.length)) : Within m pool slots finish f pos := by
  induction code generalizing pos with
  | nil => exact h
  | cons item code ih =>
    rw [List.length_cons, Nat.add_comm code.length, ← Nat.add_assoc] at h
    exact .quiet hat.head (hq item List.mem_cons_self)
      (ih hat.tail (fun i hi => hq i (List.mem_cons_of_mem _ hi)) h)

/-- The test of a branch or a loop, from where each of its outcomes leads. -/
theorem Within.of_test {g : Frame} {e : Expr} {test : Listing} {target : Label} {k : Nat}
    {work work' : List Stmt} (hm : Loaded m pool slots size) (he : e.Code f pool test)
    (hf : f.slots <+: slots) (hat : At m.code pos (testCode test target))
    (hk : labelAt? target.render m.code = some k) (hjump : Located m pool slots finish g work k)
    (hg : g.assigned ⊆ f.assigned)
    (hnext : Located m pool slots finish f work' (pos + (test.length + 2))) :
    Within m pool slots finish f pos := by
  have hcmp := hat.right
  have hj : Within m pool slots finish f (pos + test.length + 1) :=
    .jump hcmp.tail.head hk hg hjump fun _ => ⟨work', hnext⟩
  exact .of_quiet hat.left (.of_code he hm.scratch hf) (.quiet hcmp.head .test hj)

/-- Where statements stand, the machine is within their code. Some of the variables that may be read
can be forgotten on the way. -/
theorem Located.within {work : List Stmt} (hm : Loaded m pool slots size)
    (h : Located m pool slots finish f work pos) :
    ∃ g, g.assigned ⊆ f.assigned ∧ Within m pool slots finish g pos := by
  induction h with
  | done f => exact ⟨f, fun _ hx => hx, .done f⟩
  | label hlabel _ ih =>
    obtain ⟨g, hg, hw⟩ := ih
    exact ⟨g, hg, .quiet hlabel (.label _) hw⟩
  | @jump f work l pos k hj hk h _ =>
    exact ⟨f, fun _ hx => hx, .jump hj hk (fun _ hx => hx) h fun hc => absurd rfl hc⟩
  | @block f g h p rest code pos hl hat hg hs hr ih =>
    -- Bare names have no code, so the first item is that of the first statement which is none.
    induction hl with
    | nil f =>
      obtain ⟨g, hg, hw⟩ := ih
      exact ⟨g, fun x hx => hs (hg hx), hw⟩
    | bare _ ih' => exact ih' hat hg hs hr ih
    | @assign f g x e p value code he hp _ =>
      rw [List.length_append, ← Nat.add_assoc, List.length_append, ← Nat.add_assoc] at hr
      have hx := hp.slots_prefix.trans hg
      have hslot : (f.assign x).1 = slot (slots.idxOf x) :=
        congrArg slot (hx.idxOf_eq_of_mem (f.mem_slots_assign x))
      have hmov := hat.left.right.head
      rw [hslot] at hmov
      have hrest := hat.right
      rw [List.length_append, ← Nat.add_assoc] at hrest
      have hw := Within.store hmov (hx.subset (f.mem_slots_assign x)) (.block hp hrest hg hs hr)
      exact ⟨f, fun _ hx => hx, .of_quiet hat.left.left
        (.of_code he hm.scratch ((f.slots_prefix_assign x).trans hx)) hw⟩
    | @branch f f₁ f₂ g id e yes no p test first second code he hy hn hp =>
      rw [List.length_append, ← Nat.add_assoc] at hr
      have hf := hp.slots_prefix.trans hg
      obtain ⟨k, hk, hno, hyes⟩ := Located.branch hm hy hn hf hat.left
        (.block hp hat.right hg hs hr)
      have hfs := hy.slots_prefix.trans (hn.slots_prefix.trans hf)
      exact ⟨f, fun _ hx => hx,
        .of_test hm he hfs hat.left.branch.1 hk hno (fun _ hx => hx) hyes⟩
    | @loop f f₁ g id e body p test inner code he hb hp =>
      have hagain := Located.block (.loop he hb hp) hat hg hs hr
      rw [List.length_append, ← Nat.add_assoc] at hr
      have hf := hp.slots_prefix.trans hg
      obtain ⟨k, hk, hafter, hbody⟩ := Located.loop hm hb hf hat.left
        (.block hp hat.right hg hs hr) hagain
      obtain ⟨hlabel, htest, -⟩ := hat.left.loop
      have hw := Within.of_test hm he (hb.slots_prefix.trans hf) htest hk hafter (fun _ hx => hx)
        hbody
      exact ⟨f, fun _ hx => hx, .quiet hlabel (.label _) hw⟩

/-- What a processor has inside the code of a program, `n` steps after `a`: the frame, the saved
frame pointer, and each variable that may be read in its slot. -/
structure Inside (m : Setting) (slots : List String) (size : Nat) (a : Config) (n : Nat) (f : Frame)
    (cpu : Cpu) : Prop where
  framed : Framed m.entry size cpu
  saved : cpu.mem (cpu.get .rbp) = some (a.cpu.get .rbp)
  stored : ∀ x ∈ f.assigned, m.StoredBefore a n (slotAddress m.entry (slots.idxOf x))

namespace Inside

variable {a : Config} {n : Nat} {cpu cpu' : Cpu}

theorem mono {n' : Nat} {g : Frame} (h : Inside m slots size a n f cpu) (hn : n ≤ n')
    (hg : g.assigned ⊆ f.assigned) : Inside m slots size a n' g cpu :=
  ⟨h.framed, h.saved, fun x hx => (h.stored x (hg hx)).mono hn⟩

theorem kept (h : Inside m slots size a n f cpu) (hk : Kept (· ∈ scratchRegisters) cpu cpu') :
    Inside m slots size a n f cpu' := by
  refine ⟨h.framed.kept hk (by decide) (by decide), ?_, h.stored⟩
  rw [hk.mem, hk.get .rbp (by decide) (by decide) (by decide)]
  exact h.saved

/-- The address of a slot. -/
theorem address (h : Inside m slots size a n f cpu) (i : Nat) :
    (cpu.get .rbp).toInt + -(8 * (i + 1)) = slotAddress m.entry i := by
  rw [h.framed.rbp, slotAddress]

/-- Storing the accumulator in the slot of a variable. -/
theorem store {x : String} {c : Config} (h : Inside m slots size a n f c.cpu)
    (hc : m.Steps n a c)
    (hi : m.code[c.pc]? = some (.instr (.mov (.reg accumulator) (slot (slots.idxOf x)))))
    (he : c.cpu.exec? m.entry (.mov (.reg accumulator) (slot (slots.idxOf x))) = some cpu) :
    Inside m slots size a (n + 1) (f.assign x).2 cpu := by
  obtain ⟨k, hk, rfl⟩ := Option.map_eq_some_iff.mp he
  have haddr := Cpu.toInt_of_address? hk
  have hne : c.cpu.get .rbp ≠ k := by
    intro heq
    rw [heq] at haddr
    omega
  refine ⟨h.framed.write .., ?_, ?_⟩
  · rw [Cpu.get_write]
    show (if c.cpu.get .rbp = k then _ else c.cpu.mem (c.cpu.get .rbp)) = _
    rw [if_neg hne, h.saved]
  · intro y hy
    rcases Frame.mem_assigned_assign.mp hy with rfl | hy
    · exact ⟨n, c, Nat.lt_succ_self n, hc, _, .rbp, _, hi, rfl, (h.address _).symm⟩
    · exact (h.stored y hy).mono (Nat.le_succ n)

end Inside

/-- One step inside the code of a program. -/
theorem Within.step {a c d : Config} {n : Nat} (hm : Loaded m pool slots size)
    (h : Within m pool slots finish f c.pc) (hi : Inside m slots size a n f c.cpu)
    (hc : m.Steps n a c) (hs : m.step c = some (.running d)) (hne : c.pc ≠ finish) :
    ∃ g, Within m pool slots finish g d.pc ∧ Inside m slots size a (n + 1) g d.cpu := by
  obtain ⟨item, hitem, hmove⟩ := Setting.moves_of_step hs
  have hlocated : ∀ {g : Frame} {work : List Stmt}, Located m pool slots finish g work d.pc →
      Inside m slots size a (n + 1) g d.cpu →
      ∃ g, Within m pool slots finish g d.pc ∧ Inside m slots size a (n + 1) g d.cpu := by
    intro g work hl hd
    obtain ⟨g', hg, hw⟩ := hl.within hm
    exact ⟨g', hw, hd.mono (Nat.le_refl _) hg⟩
  obtain ⟨cpu, pos, calls⟩ := c
  cases h with
  | done => exact absurd rfl hne
  | quiet hitem' hq hw =>
    cases hitem.symm.trans hitem'
    obtain ⟨hpc, hk⟩ := hq.moves hmove
    rw [hpc]
    exact ⟨f, hw, (hi.kept hk).mono (Nat.le_succ n) fun _ hx => hx⟩
  | store hmov hx hl =>
    cases hitem.symm.trans hmov
    cases hmove with
    | exec he => exact hlocated hl (hi.store hc hmov he)
    | pass hno => exact absurd rfl (hno _)
  | jump hj hk hg hl hnext =>
    cases hitem.symm.trans hj
    cases hmove with
    | exec he => cases he
    | jump _ hk' =>
      cases hk.symm.trans hk'
      exact hlocated hl (hi.mono (Nat.le_succ n) hg)
    | stay hstay =>
      obtain ⟨work', hl'⟩ := hnext (by rintro rfl; cases hstay)
      exact hlocated hl' (hi.mono (Nat.le_succ n) fun _ hx => hx)
    | pass hno => exact absurd rfl (hno _)

theorem Inside.inFrame {a : Config} {n : Nat} {cpu : Cpu} (h : Inside m slots size a n f cpu)
    (hm : Loaded m pool slots size) {x : String} (hx : x ∈ slots) :
    8 ∣ (cpu.get .rbp).toInt - slotAddress m.entry (slots.idxOf x) ∧
    (cpu.get .rsp).toInt ≤ slotAddress m.entry (slots.idxOf x) ∧
    slotAddress m.entry (slots.idxOf x) < (cpu.get .rbp).toInt := by
  have hlt := List.idxOf_lt_length_of_mem hx
  have hfits := hm.fits
  have hbp := h.framed.rbp
  have hsp := h.framed.rsp
  unfold slotAddress
  omega

theorem Within.sound {a c : Config} {n first last : Nat} (hm : Loaded m pool slots size)
    (h : Within m pool slots finish f c.pc) (hi : Inside m slots size a n f c.cpu)
    (hne : c.pc ≠ finish) : m.Sound size first last a n c := by
  have hframed : first ≤ c.pc → c.pc ≤ last → Framed m.entry size c.cpu := fun _ _ => hi.framed
  obtain ⟨cpu, pos, calls⟩ := c
  cases h with
  | done => exact absurd rfl hne
  | quiet hitem hq _ =>
    cases hq with
    | @read x hx hslot =>
      -- The one item of an expression with an operand in memory.
      have hload : ∀ k, m.Loads ⟨cpu, pos, calls⟩ k → k = slotAddress m.entry (slots.idxOf x) := by
        rintro k ⟨i, base, offset, hi', hsource, rfl⟩
        cases hitem.symm.trans hi'
        cases hsource
        exact hi.address _
      refine ⟨hframed, ?_, ?_, ?_, ?_⟩
      · rintro k (hk | ⟨i, base, offset, hi', htarget, -⟩)
        · rw [hload k hk]
          exact hi.inFrame hm hslot
        · cases hitem.symm.trans hi'
          cases htarget
      · intro k hk
        rw [hload k hk]
        exact hi.stored x hx
      · exact fun symbol hi' => by cases hitem.symm.trans hi'
      · exact fun hi' => by cases hitem.symm.trans hi'
    | operate _ hop => exact .of_inert hitem (inert_of_mem_lower hop) hframed
    | label | literal | hold | test =>
      exact .of_inert hitem (by simp [Inert, MemoryFree, Instr.source?, Instr.target?]) hframed
  | store hmov hx _ =>
    refine ⟨hframed, ?_, ?_, ?_, ?_⟩
    · rintro k (⟨i, base, offset, hi', hsource, -⟩ | ⟨i, base, offset, hi', htarget, rfl⟩)
      · cases hmov.symm.trans hi'
        cases hsource
      · cases hmov.symm.trans hi'
        cases htarget
        rw [hi.address]
        exact hi.inFrame hm hx
    · rintro k ⟨i, base, offset, hi', hsource, -⟩
      cases hmov.symm.trans hi'
      cases hsource
    · exact fun symbol hi' => by cases hmov.symm.trans hi'
    · exact fun hi' => by cases hmov.symm.trans hi'
  | jump hj _ _ _ _ =>
    exact .of_inert hj (by simp [Inert, MemoryFree, Instr.source?, Instr.target?]) hframed

end

/-! ## Entering and leaving -/

theorem inert_enterCode {f : Frame} {item : Item} (h : item ∈ enterCode f) :
    Inert item ∧ ∀ condition l, item ≠ .instr (.jump condition l) := by
  have hitem : item = .instr (.push .rbp) ∨ item = .instr (.mov (.reg .rsp) (.reg .rbp)) ∨
      item = .instr (.sub (.imm f.size) .rsp) := by
    unfold enterCode at h
    split at h
    · simp only [List.append_nil, List.mem_cons, List.not_mem_nil, or_false] at h
      exact h.imp_right .inl
    · simpa using h
  rcases hitem with rfl | rfl | rfl <;> simp [Inert, MemoryFree, Instr.source?, Instr.target?]

/-- What stands in a routine from the label `main` up to the code of the program. -/
theorem entering_routine (f : Frame) (body : Listing) {pos : Nat} (hmain : 4 ≤ pos)
    (hpos : pos < 5 + (enterCode f).length) :
    ∃ item, (routine f body)[pos]? = some item ∧ Inert item ∧
      ∀ condition l, item ≠ .instr (.jump condition l) := by
  obtain ⟨hlabel, hat, -, -⟩ := at_routine f body
  rcases Nat.eq_or_lt_of_le hmain with rfl | hlt
  · exact ⟨_, hlabel, by simp [Inert, MemoryFree], by simp⟩
  · obtain ⟨j, rfl⟩ : ∃ j, pos = 5 + j := ⟨pos - 5, by omega⟩
    have hj : j < (enterCode f).length := by omega
    exact ⟨_, hat.get hj, inert_enterCode (List.getElem_mem hj)⟩

/-- The machine is about to print and return: the frame is still up, or the stack pointer is where
the frame pointer was saved, or both are back. -/
inductive Leaving (m : Setting) (size finish : Nat) (a c : Config) : Prop
  | framed {j : Nat} : j ≤ 2 → c.pc = finish + j → Framed m.entry size c.cpu →
      c.cpu.mem (c.cpu.get .rbp) = some (a.cpu.get .rbp) → Leaving m size finish a c
  | saved : c.pc = finish + 3 → (c.cpu.get .rsp).toInt = m.entry.toInt - 8 →
      c.cpu.mem (c.cpu.get .rsp) = some (a.cpu.get .rbp) → Leaving m size finish a c
  | restored : c.pc = finish + 4 → c.cpu.get .rsp = m.entry → c.cpu.get .rbp = a.cpu.get .rbp →
      Leaving m size finish a c

section

variable {m : Setting} {pool : Pool} {slots : List String} {size finish : Nat} {a c d : Config}

theorem Leaving.step (hat : At m.code finish leaveCode) (hprint : Preserves m.print)
    (h : Leaving m size finish a c) (hs : m.step c = some (.running d)) :
    Leaving m size finish a d := by
  obtain ⟨item, hitem, hmove⟩ := Setting.moves_of_step hs
  cases h with
  | @framed j hj hpc hf hsaved =>
    rw [hpc, hat.get (j := j) (by simp only [leaveCode, List.length_cons]; omega)] at hitem
    cases hitem
    obtain rfl | rfl | rfl : j = 0 ∨ j = 1 ∨ j = 2 := by omega
    · cases hmove with
      | exec he =>
        cases he
        have hk : Kept (· = .rdi) c.cpu (c.cpu.set .rdi (c.cpu.get .rax)) :=
          .set_free _ _ rfl (by decide)
        have hmem : (c.cpu.set .rdi (c.cpu.get .rax)).mem
            ((c.cpu.set .rdi (c.cpu.get .rax)).get .rbp) = some (a.cpu.get .rbp) := by
          rw [hk.mem, hk.get .rbp (by decide) (by decide) (by decide), hsaved]
        exact .framed (j := 1) (by omega) (by simp [hpc]) (hf.kept hk (by decide) (by decide)) hmem
      | pass hno => exact absurd rfl (hno _)
    · cases hmove with
      | exec he => cases he
      | call =>
        refine .framed (j := 2) (by omega) (by simp [hpc]) ⟨?_, ?_⟩ ?_
        · rw [hprint.rbp, hf.rbp]
        · rw [hprint.rsp, hf.rsp]
        · -- The saved frame pointer is the last word that a call keeps.
          rw [hprint.rbp, hprint.frame _ _ (by rw [hf.rsp, hf.rbp]; omega) (Int.le_refl _), hsaved]
      | pass hno => exact absurd rfl (hno _)
    · cases hmove with
      | exec he =>
        cases he
        have hsp : (c.cpu.set .rsp (c.cpu.get .rbp)).get .rsp = c.cpu.get .rbp :=
          Cpu.get_set_self (by decide)
        refine .saved (by simp [hpc]) ?_ ?_
        · rw [hsp, hf.rbp]
        · rw [hsp, Cpu.mem_set, hsaved]
      | pass hno => exact absurd rfl (hno _)
  | saved hpc hsp hsaved =>
    rw [hpc, hat.get (j := 3) (by decide)] at hitem
    cases hitem
    cases hmove with
    | exec he =>
      have hword : word? ((c.cpu.get .rsp).toInt + 8) = some m.entry := by
        rw [hsp, Int.sub_add_cancel, word?_of_toInt]
      simp only [Cpu.exec?, hword, Option.map_some, Option.some.injEq] at he
      subst he
      refine .restored (by simp [hpc]) ?_ ?_
      · rw [Cpu.get_set_ne (by decide) (by decide) (by decide), Cpu.get_write,
          Cpu.get_set_self (by decide)]
      · rw [Cpu.get_set_self (by decide), hsaved, Option.getD_some]
    | pass hno => exact absurd rfl (hno _)
  | restored hpc _ _ =>
    rw [hpc, hat.get (j := 4) (by decide)] at hitem
    cases hitem
    cases hmove with
    | exec he => cases he
    | pass hno => exact absurd rfl (hno _)

theorem Leaving.sound {n first : Nat} (hat : At m.code finish leaveCode)
    (halign : (m.entry.toInt - 8 - size) % 16 = 0) (hentry : m.entry = a.cpu.get .rsp)
    (h : Leaving m size finish a c) : m.Sound size first (finish + 2) a n c := by
  cases h with
  | @framed j hj hpc hf hsaved =>
    have hitem := hat.get (j := j) (by simp only [leaveCode, List.length_cons]; omega)
    rw [← hpc] at hitem
    obtain rfl | rfl | rfl : j = 0 ∨ j = 1 ∨ j = 2 := by omega
    · exact .of_inert hitem (by simp [leaveCode, Inert, MemoryFree, Instr.source?, Instr.target?])
        fun _ _ => hf
    · exact .of_memoryFree hitem (by simp [leaveCode, MemoryFree, Instr.source?, Instr.target?])
        (fun _ _ => hf) (fun _ _ => by rw [hf.rsp, halign]) (by simp [leaveCode])
    · exact .of_inert hitem (by simp [leaveCode, Inert, MemoryFree, Instr.source?, Instr.target?])
        fun _ _ => hf
  | saved hpc _ _ =>
    have hitem := hat.get (j := 3) (by decide)
    rw [← hpc] at hitem
    exact .of_inert hitem (by simp [leaveCode, Inert, MemoryFree, Instr.source?, Instr.target?])
      fun _ hlast => by omega
  | restored hpc hsp hbp =>
    have hitem := hat.get (j := 4) (by decide)
    rw [← hpc] at hitem
    exact .of_memoryFree hitem (by simp [leaveCode, MemoryFree, Instr.source?, Instr.target?])
      (fun _ hlast => by omega) (by simp [leaveCode]) fun _ => ⟨by rw [hsp, hentry], hbp⟩

end

/-! ## Listings -/

/-- Where a run that begins in `a` stands after `n` steps: before the code of the program, in it, or
behind it. -/
inductive Standing (m : Setting) (pool : Pool) (slots : List String) (size first finish : Nat)
    (a : Config) (n : Nat) (c : Config) : Prop
  | entering : c.pc = a.pc + n → c.pc < first → Standing m pool slots size first finish a n c
  | within {f : Frame} : c.pc ≠ finish → Within m pool slots finish f c.pc →
      Inside m slots size a n f c.cpu → Standing m pool slots size first finish a n c
  | leaving : Leaving m size finish a c → Standing m pool slots size first finish a n c

theorem Standing.of_within {m : Setting} {pool : Pool} {slots : List String}
    {size first finish n : Nat} {a c : Config} {f : Frame}
    (h : Within m pool slots finish f c.pc) (hi : Inside m slots size a n f c.cpu) :
    Standing m pool slots size first finish a n c := by
  by_cases hpc : c.pc = finish
  · exact .leaving (.framed (j := 0) (by omega) hpc hi.framed hi.saved)
  · exact .within hpc h hi

section

variable {limit : Nat} {p : Program} {body : Listing} {f : Frame} {print : Cpu → Cpu} {start : Cpu}
  (hl : Lowers (.ofLimit limit) .empty p body f) (hres : Resolves (routine f body))
  (hprint : Preserves print)
  (hroom : Int64.minValue.toInt ≤ (start.get .rsp).toInt - 8 - f.size)
include hl hres hprint hroom

/-- Every configuration of a run of a routine from the label `main` on. -/
theorem standing_routine {n : Nat} {c : Config}
    (hc : Setting.Steps ⟨routine f body, print, start.get .rsp⟩ n ⟨start, 4, []⟩ c) :
    Standing ⟨routine f body, print, start.get .rsp⟩ (.ofLimit limit) f.slots f.size
      (5 + (enterCode f).length) (5 + (enterCode f).length + body.length) ⟨start, 4, []⟩ n c := by
  have hm := loaded_routine limit hres print (start.get .rsp)
  refine Setting.Steps.invariant ?_ ?_ hc
  · exact .entering rfl (by simp only; omega)
  · intro n b d hb hstand hs
    cases hstand with
    | entering hpc hlt =>
      simp only at hpc
      by_cases hend : n = (enterCode f).length
      · -- The last step of entering leads to the code of the program.
        subst hend
        obtain ⟨c, henter, hframed, -, hsaved⟩ := steps_enterCode body print hroom
        obtain rfl := henter.unique (hb.snoc hs)
        obtain ⟨g, hg, hw⟩ := (located_routine hl print (start.get .rsp)).within hm
        exact .of_within hw ⟨hframed, hsaved, fun x hx => by cases hg hx⟩
      · obtain ⟨item, hitem, -, hjump⟩ := entering_routine f body (by omega) hlt
        obtain ⟨item', hitem', hmove⟩ := Setting.moves_of_step hs
        cases hitem.symm.trans hitem'
        have hd := hmove.pc_of_ne_jump hjump
        exact .entering (by simp only; omega) (by omega)
    | within hne hw hi =>
      obtain ⟨g, hw', hi'⟩ := hw.step hm hi hb hs hne
      exact .of_within hw' hi'
    | leaving h => exact .leaving (h.step (at_routine f body).2.2.2 hprint hs)

variable (halign : (start.get .rsp).toInt % 16 = 8)
include halign

theorem sound_routine {n : Nat} {c : Config}
    (hc : Setting.Steps ⟨routine f body, print, start.get .rsp⟩ n ⟨start, 4, []⟩ c) :
    Setting.Sound ⟨routine f body, print, start.get .rsp⟩ f.size (5 + (enterCode f).length)
      (5 + (enterCode f).length + body.length + 2) ⟨start, 4, []⟩ n c := by
  cases standing_routine hl hres hprint hroom hc with
  | entering hpc hlt =>
    simp only at hpc
    obtain ⟨item, hitem, hinert, -⟩ := entering_routine f body (by omega) hlt
    exact .of_inert hitem hinert fun hfirst _ => by omega
  | within hne hw hi => exact hw.sound (loaded_routine limit hres print (start.get .rsp)) hi hne
  | leaving h =>
    have hsize := f.size_mod
    exact h.sound (at_routine f body).2.2.2 (by simp only; omega) rfl

/-- The machine does not get stuck, whether the evaluation of the program ends or not. -/
theorem exists_step_routine {n : Nat} {c : Config}
    (hc : Setting.Steps ⟨routine f body, print, start.get .rsp⟩ n ⟨start, 4, []⟩ c) :
    ∃ outcome, Setting.step ⟨routine f body, print, start.get .rsp⟩ c = some outcome := by
  by_cases hd : ∀ fuel, evaluate fuel p = none
  · obtain ⟨item, b, -, -, -, hs⟩ := (runsOn_routine hl hres print hroom hd).2 n c hc
    exact ⟨_, hs⟩
  · obtain ⟨fuel, hfuel⟩ := Classical.not_forall.mp hd
    have hcovers : Covers Eval.State.initial.vars Frame.empty.assigned := fun x hx => by cases hx
    rcases (Ready.lowers hl).run none fuel hcovers with
      hrun | ⟨acc, st, hrun⟩ | ⟨n, st, hlimit, -⟩
    · exact absurd (by rw [evaluate, hrun]; rfl) hfuel
    · have he : evaluate fuel p = some (.ok acc) := by rw [evaluate, hrun]; rfl
      obtain ⟨final, call, hreturns, -⟩ := prints_routine hl hres hprint halign hroom he
      exact hreturns.exists_step hc
    · cases hlimit

end

/-- Wherever the execution of a listing has come, it goes on or returns, and its configuration is
sound. The code of the program stands behind five items, the last of them the label `main`, and
`enterCode`; the frame is up from there until the third item of `leaveCode` takes it down. -/
theorem sound_of_compileWith {limit : Nat} {source : String} {code : Listing}
    (hc : compileWith limit source = .ok code) {print : Cpu → Cpu} (hprint : Preserves print)
    (start : Cpu) (halign : (start.get .rsp).toInt % 16 = 8)
    (hroom : Int64.minValue.toInt ≤ (start.get .rsp).toInt - 8 - reserved code) :
    ∃ p body s main, Reading.parse source = .ok p ∧
      Stmt.lowerAll p (.ofLimit limit) = (.ok body, s) ∧ code = routine s.frame body ∧
      labelAt? "main" code = some main ∧
      ∀ n c, Setting.Steps ⟨code, print, start.get .rsp⟩ n ⟨start, main, []⟩ c →
        (∃ outcome, Setting.step ⟨code, print, start.get .rsp⟩ c = some outcome) ∧
        Setting.Sound ⟨code, print, start.get .rsp⟩ s.frame.size
          (5 + (enterCode s.frame).length) (5 + (enterCode s.frame).length + body.length + 2)
          ⟨start, main, []⟩ n c := by
  obtain ⟨p, body, s, hp, hs, hl, hres, rfl⟩ := routine_of_compileWith hc
  rw [reserved_routine hl] at hroom
  refine ⟨p, body, s, 4, hp, hs, rfl, hres 4 (.symbol "main") (at_routine s.frame body).1, ?_⟩
  intro n c hsteps
  exact ⟨exists_step_routine hl hres hprint hroom halign hsteps,
    sound_routine hl hres hprint hroom halign hsteps⟩

theorem sound_sum :
    Preserves overwriting ∧ (sumStart.get .rsp).toInt % 16 = 8 ∧
    ∃ code body s main, compileWith 1 sumSource = .ok code ∧
      Int64.minValue.toInt ≤ (sumStart.get .rsp).toInt - 8 - reserved code ∧
      Stmt.lowerAll sumProgram (.ofLimit 1) = (.ok body, s) ∧ s.frame.size = 32 ∧
      code = routine s.frame body ∧ labelAt? "main" code = some main ∧
      ∀ n c, Setting.Steps ⟨code, overwriting, sumStart.get .rsp⟩ n ⟨sumStart, main, []⟩ c →
        (∃ outcome, Setting.step ⟨code, overwriting, sumStart.get .rsp⟩ c = some outcome) ∧
        Setting.Sound ⟨code, overwriting, sumStart.get .rsp⟩ s.frame.size
          (5 + (enterCode s.frame).length) (5 + (enterCode s.frame).length + body.length + 2)
          ⟨sumStart, main, []⟩ n c := by
  have halign : (sumStart.get .rsp).toInt % 16 = 8 := by decide
  have hp : Reading.parse sumSource = .ok sumProgram := rfl
  obtain ⟨code, hg, hreserved⟩ : ∃ code, generate 1 sumProgram = .ok code ∧ reserved code = 32 :=
    ⟨_, rfl, rfl⟩
  obtain ⟨body, s, hs, hsize⟩ : ∃ body s, Stmt.lowerAll sumProgram (.ofLimit 1) = (.ok body, s) ∧
      s.frame.size = 32 := ⟨_, _, rfl, rfl⟩
  have hc : compileWith 1 sumSource = .ok code := by simp only [compileWith, hp, hg]
  have hroom : Int64.minValue.toInt ≤ (sumStart.get .rsp).toInt - 8 - reserved code := by
    rw [hreserved]
    decide
  obtain ⟨p, body', s', main, hp', hs', hcode, hmain, hsound⟩ :=
    sound_of_compileWith hc preserves_overwriting sumStart halign hroom
  cases hp.symm.trans hp'
  cases hs.symm.trans hs'
  exact ⟨preserves_overwriting, halign, code, body, s, main, hc, hroom, hs, hsize, hcode, hmain,
    hsound⟩

end Machine

end Kennel
