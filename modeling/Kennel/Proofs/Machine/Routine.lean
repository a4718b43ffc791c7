import Kennel.Proofs.Machine.Simulation

/-!
# The routine of a program, executed

`Prints` says that a run returns after it has called `print` once, with a given value. The listing
of a program whose evaluation ends prints its value, or else what `rax` held at the start
(`prints_of_compileWith`).
-/

namespace Kennel.Machine

open Asm Lower Eval

/-- The bytes that an item takes off the stack pointer. -/
def reservedBy : Item → Int
  | .instr (.sub (.imm n) .rsp) => n
  | _ => 0

def reserved : Listing → Int
  | [] => 0
  | item :: rest => reservedBy item + reserved rest

/-- `print` keeps the stack and frame pointers and all words between them. -/
structure Preserves (print : Cpu → Cpu) : Prop where
  rsp : ∀ c, (print c).get .rsp = c.get .rsp
  rbp : ∀ c, (print c).get .rbp = c.get .rbp
  frame : ∀ c a, (c.get .rsp).toInt ≤ a.toInt → a.toInt ≤ (c.get .rbp).toInt →
    (print c).mem a = c.mem a

/-- The run returns and has called `print` once, with `v` in both `rax` and `rdi`. -/
def Setting.Prints (m : Setting) (a : Config) (v : Int64) : Prop :=
  ∃ final call, m.Returns a final ∧ final.calls = [call] ∧ call.get .rax = v ∧ call.get .rdi = v

theorem Setting.Prints.of_steps {m : Setting} {n : Nat} {a b : Config} {v : Int64}
    (hs : m.Steps n a b) (h : m.Prints b v) : m.Prints a v := by
  obtain ⟨final, call, ⟨k, b', hk, hret⟩, hcall⟩ := h
  exact ⟨final, call, ⟨n + k, b', hs.trans hk, hret⟩, hcall⟩

/-! ## Reserved bytes -/

theorem reserved_append (s t : Listing) : reserved (s ++ t) = reserved s + reserved t := by
  induction s with
  | nil => simp [reserved]
  | cons item s ih => simp only [List.cons_append, reserved, ih, Int.add_assoc]

theorem reserved_eq_zero {code : Listing} (h : ∀ item ∈ code, reservedBy item = 0) :
    reserved code = 0 := by
  induction code with
  | nil => rfl
  | cons item code ih =>
    obtain ⟨hitem, hrest⟩ := List.forall_mem_cons.mp h
    rw [reserved, hitem, ih hrest]
    rfl

theorem reservedBy_of_code {f : Frame} {pool : Pool} {e : Expr} {code : Listing}
    (h : e.Code f pool code) : ∀ item ∈ code, reservedBy item = 0 := by
  induction h with
  | literal pool n => exact List.forall_mem_singleton.mpr rfl
  | name pool _ => exact List.forall_mem_singleton.mpr rfl
  | @binary pool pool' op l r q first second _ _ _ ihl ihr =>
    have hop : ∀ item ∈ op.lower q, reservedBy item = 0 := by
      cases op <;> simp [Op.lower, comparison, reservedBy, accumulator]
    simp only [List.forall_mem_append, List.forall_mem_cons]
    exact ⟨ihl, ⟨rfl, ihr⟩, hop⟩

theorem reserved_of_lowers {pool : Pool} {f g : Frame} {p : List Stmt} {code : Listing}
    (h : Lowers pool f p code g) : reserved code = 0 :=
  reserved_eq_zero
    (h.forall_mem reservedBy_of_code (fun _ => rfl) rfl (fun _ _ => rfl) fun _ => rfl)

/-! ## Entry and exit -/

/-- Set up the frame. -/
def enterCode (f : Frame) : Listing :=
  [.instr (.push .rbp), .instr (.mov (.reg .rsp) (.reg .rbp))] ++
    if f.size = 0 then [] else [.instr (.sub (.imm f.size) .rsp)]

/-- Print the accumulator, take down the frame and return. -/
def leaveCode : Listing :=
  [.instr (.mov (.reg accumulator) (.reg .rdi)), .instr (.call "print"),
   .instr (.mov (.reg .rbp) (.reg .rsp)), .instr (.pop .rbp), .instr .ret]

theorem routine_eq (f : Frame) (body : Listing) :
    routine f body =
      [.text, .global "_main", .global "main", .label (.symbol "_main"), .label (.symbol "main")] ++
        enterCode f ++ body ++ leaveCode := by
  unfold routine enterCode leaveCode Frame.reserve
  split <;> simp

/-- Where the parts of a routine stand. -/
theorem at_routine (f : Frame) (body : Listing) :
    (routine f body)[4]? = some (.label (.symbol "main")) ∧
    At (routine f body) 5 (enterCode f) ∧
    At (routine f body) (5 + (enterCode f).length) body ∧
    At (routine f body) (5 + (enterCode f).length + body.length) leaveCode := by
  have h : At (routine f body) 0 (routine f body) := ⟨[], [], rfl, by simp⟩
  nth_rewrite 2 [routine_eq] at h
  have henter := h.left.left.right
  have hbody := h.left.right
  have hleave := h.right
  simp only [List.length_append, List.length_cons, List.length_nil, Nat.zero_add]
    at henter hbody hleave
  exact ⟨h.left.left.left.tail.tail.tail.tail.head, henter, hbody, hleave⟩

theorem reserved_routine {pool : Pool} {f g : Frame} {p : List Stmt} {body : Listing}
    (h : Lowers pool f p body g) : reserved (routine g body) = g.size := by
  have henter : reserved (enterCode g) = g.size := by
    unfold enterCode
    split
    · next hz => rw [hz]; rfl
    · simp [reserved, reservedBy]
  rw [routine_eq, reserved_append, reserved_append, reserved_append, henter, reserved_of_lowers h]
  simp [reserved, reservedBy, leaveCode]

/-- Entering saves the frame pointer in the word that the new one points to. -/
theorem through?_enterCode (entry : Int64) {start : Cpu} (f : Frame)
    (hroom : Int64.minValue.toInt ≤ (start.get .rsp).toInt - 8 - f.size) :
    ∃ c, start.through? entry (enterCode f) = some c ∧ Framed (start.get .rsp) f.size c ∧
      c.get .rax = start.get .rax ∧ c.mem (c.get .rbp) = some (start.get .rbp) := by
  have hhigh := (start.get .rsp).toInt_le
  obtain ⟨sp, hsp, hn⟩ := exists_word? (n := (start.get .rsp).toInt - 8) (by omega) (by omega)
  let c₁ := (start.set .rsp sp).write sp (some (start.get .rbp))
  let c₂ := c₁.set .rbp sp
  have hpush : start.through? entry
      [.instr (.push .rbp), .instr (.mov (.reg .rsp) (.reg .rbp))] = some c₂ := by
    simp only [Cpu.through?, Cpu.exec?, hsp, Option.map_some, Option.bind_some, Cpu.load?,
      Cpu.store?, Cpu.get_write]
    rw [Cpu.get_set_self (by decide)]
  have hbp : c₂.get .rbp = sp := Cpu.get_set_self (by decide)
  have hsp₂ : c₂.get .rsp = sp := by
    rw [Cpu.get_set_ne (by decide) (by decide) (by decide), Cpu.get_write,
      Cpu.get_set_self (by decide)]
  have hax : c₂.get .rax = start.get .rax := by
    rw [Cpu.get_set_ne (by decide) (by decide) (by decide), Cpu.get_write,
      Cpu.get_set_ne (by decide) (by decide) (by decide)]
  have hmem : c₂.mem sp = some (start.get .rbp) := by simp [c₂, c₁, Cpu.write]
  unfold enterCode
  split
  · next hz =>
    refine ⟨c₂, by rwa [List.append_nil], ⟨?_, ?_⟩, hax, by rw [hbp, hmem]⟩
    · rw [hbp, hn]
    · rw [hsp₂, hn, hz]
      simp
  · refine ⟨c₂.set .rsp (sp - Int64.ofInt f.size), ?_, ⟨?_, ?_⟩, ?_, ?_⟩
    · rw [Cpu.through?_append, hpush]
      simp only [Option.bind_some, Cpu.through?, Cpu.exec?, Cpu.load?, Option.map_some, hsp₂]
    · rw [Cpu.get_set_ne (by decide) (by decide) (by decide), hbp, hn]
    · rw [Cpu.get_set_self (by decide), toInt_sub_ofInt (by omega) (by omega), hn]
    · rw [Cpu.get_set_ne (by decide) (by decide) (by decide), hax]
    · rw [Cpu.get_set_ne (by decide) (by decide) (by decide), hbp, Cpu.mem_set, hmem]

theorem prints_leaveCode {m : Setting} (hprint : Preserves m.print) {size pos : Nat} {c : Cpu}
    (hat : At m.code pos leaveCode) (hf : Framed m.entry size c)
    (halign : (m.entry.toInt - 8 - size) % 16 = 0) :
    m.Prints ⟨c, pos, []⟩ (c.get .rax) := by
  let c₁ := c.set .rdi (c.get .rax)
  have hax : c₁.get .rax = c.get .rax := Cpu.get_set_ne (by decide) (by decide) (by decide)
  have hdi : c₁.get .rdi = c.get .rax := Cpu.get_set_self (by decide)
  have hsp : (c₁.get .rsp).toInt % 16 = 0 := by
    rw [Cpu.get_set_ne (by decide) (by decide) (by decide), hf.rsp, halign]
  have hbp : (m.print c₁).get .rbp = c.get .rbp := by
    rw [hprint.rbp, Cpu.get_set_ne (by decide) (by decide) (by decide)]
  -- The address that the frame pointer holds is where the word popped last was pushed.
  let c₂ := (m.print c₁).set .rsp ((m.print c₁).get .rbp)
  have hsp₂ : c₂.get .rsp = c.get .rbp := (Cpu.get_set_self (by decide)).trans hbp
  have hentry : word? ((c₂.get .rsp).toInt + 8) = some m.entry := by
    rw [hsp₂, hf.rbp, Int.sub_add_cancel, word?_of_toInt]
  let c₃ := ((c₂.set .rsp m.entry).write (c₂.get .rsp) none).set .rbp
    ((c₂.mem (c₂.get .rsp)).getD 0)
  have hpop : c₂.exec? m.entry (.pop .rbp) = some c₃ := by
    simp only [Cpu.exec?, hentry, Option.map_some, c₃]
  have hsp₃ : c₃.get .rsp = m.entry := by
    rw [Cpu.get_set_ne (by decide) (by decide) (by decide), Cpu.get_write,
      Cpu.get_set_self (by decide)]
  refine ⟨⟨c₃, pos + 5, [c₁]⟩, c₁, ⟨4, ⟨c₃, pos + 4, [c₁]⟩, ?_, ?_⟩, rfl, hax, hdi⟩
  · refine .cons (Setting.step_exec? hat.head rfl) ?_
    refine .cons (Setting.step_call hat.tail.head hsp (hdi.trans hax.symm)) ?_
    refine .cons (Setting.step_exec? hat.tail.tail.head rfl) ?_
    exact .single (Setting.step_exec? hat.tail.tail.tail.head hpop)
  · exact Setting.step_ret hat.tail.tail.tail.tail.head hsp₃

/-! ## Listings -/

theorem run_of_evaluate {fuel : Nat} {p : Program} {result : Except Eval.Cause (Option Int64)}
    (h : evaluate fuel p = some result) : ∃ st, run none fuel p .initial = some (result, st) := by
  obtain ⟨⟨r, st⟩, hr, rfl⟩ := Option.map_eq_some_iff.mp h
  exact ⟨st, hr⟩

section

variable {limit : Nat} {p : Program} {body : Listing} {f : Frame}

theorem loaded_routine (limit : Nat) (hres : Resolves (routine f body)) (print : Cpu → Cpu)
    (entry : Int64) :
    Loaded ⟨routine f body, print, entry⟩ (.ofLimit limit) f.slots f.size := by
  refine ⟨hres, Pool.distinct_ofLimit limit, ?_, f.slots_le_size⟩
  rw [Pool.registers_ofLimit]
  exact List.take_subset ..

theorem located_routine (hl : Lowers (.ofLimit limit) .empty p body f) (print : Cpu → Cpu)
    (entry : Int64) :
    Located ⟨routine f body, print, entry⟩ (.ofLimit limit) f.slots
      (5 + (enterCode f).length + body.length) .empty p (5 + (enterCode f).length) := by
  obtain ⟨-, -, hat, -⟩ := at_routine f body
  have hblock : Located ⟨routine f body, print, entry⟩ (.ofLimit limit) f.slots
      (5 + (enterCode f).length + body.length) .empty (p ++ []) (5 + (enterCode f).length) :=
    .block hl hat List.prefix_rfl (fun _ hx => hx) (.done f)
  rwa [List.append_nil] at hblock

/-- From the label `main` the machine comes to the code of the program. -/
theorem steps_enterCode (body : Listing) (print : Cpu → Cpu) {start : Cpu}
    (hroom : Int64.minValue.toInt ≤ (start.get .rsp).toInt - 8 - f.size) :
    ∃ c, Setting.Steps ⟨routine f body, print, start.get .rsp⟩ ((enterCode f).length + 1)
        ⟨start, 4, []⟩ ⟨c, 5 + (enterCode f).length, []⟩ ∧
      Framed (start.get .rsp) f.size c ∧ c.get .rax = start.get .rax ∧
      c.mem (c.get .rbp) = some (start.get .rbp) := by
  obtain ⟨hmain, hat, -, -⟩ := at_routine f body
  obtain ⟨c, hc, hframed⟩ := through?_enterCode (start.get .rsp) f hroom
  exact ⟨c, .cons (Setting.step_label hmain) (Setting.steps_of_through? [] hat hc), hframed⟩

theorem Framed.agrees {entry initial : Int64} {c : Cpu} (h : Framed entry f.size c)
    (hrax : c.get .rax = initial) (code : Listing) (print : Cpu → Cpu) :
    Agrees ⟨code, print, entry⟩ f.slots f.size initial .empty .initial c :=
  ⟨h, fun _ hx => absurd hx List.not_mem_nil, hrax⟩

/-- The routine of a program, from the label `main` on. -/
theorem prints_routine {fuel : Nat} {print : Cpu → Cpu} {start : Cpu} {acc : Option Int64}
    (hl : Lowers (.ofLimit limit) .empty p body f) (hres : Resolves (routine f body))
    (hprint : Preserves print) (halign : (start.get .rsp).toInt % 16 = 8)
    (hroom : Int64.minValue.toInt ≤ (start.get .rsp).toInt - 8 - f.size)
    (he : evaluate fuel p = some (.ok acc)) :
    Setting.Prints ⟨routine f body, print, start.get .rsp⟩ ⟨start, 4, []⟩
      (acc.getD (start.get .rax)) := by
  let m : Setting := ⟨routine f body, print, start.get .rsp⟩
  obtain ⟨c, hsteps, hframed, hrax, -⟩ := steps_enterCode body print hroom
  obtain ⟨st, hrun⟩ := run_of_evaluate he
  obtain ⟨n, c', hn, hframed', hrax'⟩ := (located_routine hl print (start.get .rsp)).run
    (loaded_routine limit hres print (start.get .rsp)) (hframed.agrees hrax _ _) hrun []
  have hsize := f.size_mod
  have hprints := prints_leaveCode (m := m) hprint (at_routine f body).2.2.2 hframed'
    (by simp only [m]; omega)
  rw [hrax'] at hprints
  exact (hprints.of_steps hn).of_steps hsteps

end

/-- A listing is the routine of the program that was read, and a jump to one of its labels gets to
where that label stands. -/
theorem routine_of_compileWith {limit : Nat} {source : String} {code : Listing}
    (h : compileWith limit source = .ok code) :
    ∃ p body s, Reading.parse source = .ok p ∧
      Stmt.lowerAll p (.ofLimit limit) = (.ok body, s) ∧
      Lowers (.ofLimit limit) .empty p body s.frame ∧ Resolves (routine s.frame body) ∧
      code = routine s.frame body := by
  obtain ⟨p, hp, hg⟩ := generate_of_compileWith h
  obtain ⟨body, s, hs, rfl⟩ := lowerAll_of_generate hg
  obtain ⟨-, hl⟩ := Stmt.lowers_of_lowerAll p (Pool.distinct_ofLimit limit) hs
  exact ⟨p, body, s, hp, hs, hl, resolves_routine hl (Reading.nodes_nodup hp), rfl⟩

/-- Executing a listing prints the value of the program, or what the accumulator held on entry if
the program computes none, whenever its evaluation ends. -/
theorem prints_of_compileWith {limit : Nat} {source : String} {code : Listing}
    (hc : compileWith limit source = .ok code) {print : Cpu → Cpu} (hprint : Preserves print)
    (start : Cpu) (halign : (start.get .rsp).toInt % 16 = 8)
    (hroom : Int64.minValue.toInt ≤ (start.get .rsp).toInt - 8 - reserved code) :
    ∃ p main, Reading.parse source = .ok p ∧ labelAt? "main" code = some main ∧
      (∀ fuel v, evaluate fuel p = some (.ok (some v)) →
        Setting.Prints ⟨code, print, start.get .rsp⟩ ⟨start, main, []⟩ v) ∧
      ∀ fuel, evaluate fuel p = some (.ok none) →
        Setting.Prints ⟨code, print, start.get .rsp⟩ ⟨start, main, []⟩ (start.get .rax) := by
  obtain ⟨p, hp, hg⟩ := generate_of_compileWith hc
  obtain ⟨body, f, hl, rfl⟩ := lowers_of_generate hg
  have hres := resolves_routine hl (Reading.nodes_nodup hp)
  rw [reserved_routine hl] at hroom
  refine ⟨p, 4, hp, hres 4 (.symbol "main") (at_routine f body).1, ?_, ?_⟩
  · exact fun fuel v he => prints_routine hl hres hprint halign hroom he
  · exact fun fuel he => prints_routine hl hres hprint halign hroom he

/-- The sum of the numbers from three down to one. -/
def sumSource : String :=
  "n AWOO 3 s AWOO 0 GRRR n BOW s AWOO s WOOF n n AWOO n BARK 1 ARRUF r AWOO s"

def sumProgram : Program :=
  [.assign "n" (.atom (.literal 3)), .assign "s" (.atom (.literal 0)),
   .loop 0 (.atom (.name "n"))
    [.assign "s" (.binary .add (.atom (.name "s")) (.atom (.name "n"))),
     .assign "n" (.binary .subtract (.atom (.name "n")) (.atom (.literal 1)))],
   .assign "r" (.atom (.name "s"))]

/-- Something in every register, and nothing in memory. -/
def sumStart : Cpu := ⟨fun r => if r = .rsp then 0x7ffefff8 else 7, fun _ => none, (0, 0)⟩

/-- A call that overwrites every register but those that a function has to give back. -/
def overwriting (c : Cpu) : Cpu :=
  { c with regs := fun r => if r = .rsp ∨ r = .rbp ∨ r = .r12 then c.regs r else 0 }

theorem preserves_overwriting : Preserves overwriting :=
  ⟨fun _ => rfl, fun _ => rfl, fun _ _ _ _ => rfl⟩

theorem prints_sum :
    Preserves overwriting ∧ (sumStart.get .rsp).toInt % 16 = 8 ∧
    ∃ code main, compileWith 1 sumSource = .ok code ∧
      Int64.minValue.toInt ≤ (sumStart.get .rsp).toInt - 8 - reserved code ∧
      labelAt? "main" code = some main ∧
      Setting.Prints ⟨code, overwriting, sumStart.get .rsp⟩ ⟨sumStart, main, []⟩ 6 := by
  have halign : (sumStart.get .rsp).toInt % 16 = 8 := by decide
  have hp : Reading.parse sumSource = .ok sumProgram := rfl
  obtain ⟨code, hg, hsize⟩ : ∃ code, generate 1 sumProgram = .ok code ∧ reserved code = 32 :=
    ⟨_, rfl, rfl⟩
  have hc : compileWith 1 sumSource = .ok code := by simp only [compileWith, hp, hg]
  have hroom : Int64.minValue.toInt ≤ (sumStart.get .rsp).toInt - 8 - reserved code := by
    rw [hsize]
    decide
  obtain ⟨p, main, hp', hmain, hsome, -⟩ :=
    prints_of_compileWith hc preserves_overwriting sumStart halign hroom
  obtain rfl : p = sumProgram := by rw [hp] at hp'; cases hp'; rfl
  exact ⟨preserves_overwriting, halign, code, main, hc, hroom, hmain, hsome 30 6 rfl⟩

end Kennel.Machine
