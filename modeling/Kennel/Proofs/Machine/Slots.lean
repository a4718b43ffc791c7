import Kennel.Proofs.Machine.Routine
import Kennel.Proofs.Machine.Writes
import Kennel.Proofs.Program

/-!
# Where variables live

A lowering gives out slots as it meets assignments, and keeps every slot that it has given out. So
the slots of a program are its variables in the order of their first assignments, although which of
them may be read changes back and forth on the way (`Lowers.slots_eq`). `accesses` lists the memory
operands of a listing. They are those of the program's reads and assignments, one for one and each
at the slot of its variable (`Lowers.placed`).
-/

namespace Kennel

open Asm Lower Machine

/-- A use of a place: a value is taken from it or put there. -/
inductive Access (α : Type)
  | load (place : α)
  | store (place : α)
  deriving DecidableEq

namespace Access

def place {α : Type} : Access α → α
  | .load a | .store a => a

def map {α β : Type} (g : α → β) : Access α → Access β
  | .load a => .load (g a)
  | .store a => .store (g a)

end Access

/-! ## Accesses of a program -/

/-- The variables that an expression reads, in the order of their evaluation. -/
def Expr.accesses (e : Expr) : List (Access String) := e.names.map .load

mutual

/-- The reads and assignments of variables in a statement and the blocks in it. -/
def Stmt.accesses : Stmt → List (Access String)
  | .assign x e => e.accesses ++ [.store x]
  | .branch _ c yes no => c.accesses ++ Stmt.accessesAll yes ++ Stmt.accessesAll no
  | .loop _ c body => c.accesses ++ Stmt.accessesAll body
  | .bare _ => []

def Stmt.accessesAll : List Stmt → List (Access String)
  | [] => []
  | s :: rest => s.accesses ++ Stmt.accessesAll rest

end

/-! ## Accesses of a listing -/

namespace Asm

/-- The operand, if it is in memory. -/
def Operand.memory : Operand → List Operand
  | .mem base offset => [.mem base offset]
  | .reg _ | .imm _ => []

/-- The memory operands of an instruction. -/
def Instr.accesses : Instr → List (Access Operand)
  | .mov source target => source.memory.map .load ++ target.memory.map .store
  | .add source _ | .sub source _ | .imul source _ | .cmp source _ => source.memory.map .load
  | .ret | .push _ | .pop _ | .xchg .. | .set .. | .movzb .. | .jump .. | .call _ => []

def Item.accesses : Item → List (Access Operand)
  | .instr i => i.accesses
  | .text | .global _ | .label _ => []

end Asm

namespace Machine

/-- The memory operands of a listing, from top to bottom. -/
def accesses (code : Listing) : List (Access Operand) := code.flatMap Item.accesses

theorem accesses_append (s t : Listing) : accesses (s ++ t) = accesses s ++ accesses t :=
  List.flatMap_append

/-- The slot of a variable among others that have slots. -/
def placeOf (slots : List String) (x : String) : Operand := slot (slots.idxOf x)

/-- The memory operands of the code are at the slots of the variables that are accessed. -/
structure Placed (slots : List String) (uses : List (Access String)) (code : Listing) : Prop where
  accesses : accesses code = uses.map (.map (placeOf slots))
  mem_slots : ∀ u ∈ uses, u.place ∈ slots

namespace Placed

variable {slots : List String} {uses uses' : List (Access String)} {s t : Listing}

theorem append (h : Placed slots uses s) (h' : Placed slots uses' t) :
    Placed slots (uses ++ uses') (s ++ t) := by
  refine ⟨?_, List.forall_mem_append.mpr ⟨h.mem_slots, h'.mem_slots⟩⟩
  rw [accesses_append, h.accesses, h'.accesses, List.map_append]

theorem silent (h : Machine.accesses s = []) : Placed slots [] s :=
  ⟨h, fun _ hu => absurd hu List.not_mem_nil⟩

theorem append_silent (h : Placed slots uses s) (ht : Machine.accesses t = []) :
    Placed slots uses (s ++ t) := by
  simpa using h.append (silent ht)

theorem silent_append (hs : Machine.accesses s = []) (h : Placed slots uses t) :
    Placed slots uses (s ++ t) :=
  (silent hs).append h

theorem testCode (h : Placed slots uses s) (target : Label) :
    Placed slots uses (testCode s target) :=
  h.append_silent rfl

theorem branchCode {test yes no : Listing} {first second : List (Access String)} (id : Nat)
    (htest : Placed slots uses test) (hyes : Placed slots first yes)
    (hno : Placed slots second no) :
    Placed slots (uses ++ first ++ second) (branchCode id test yes no) := by
  refine .append_silent (.append (.append_silent (.append ?_ hyes) rfl) hno) rfl
  exact htest.testCode _

theorem loopCode {test body : Listing} {inner : List (Access String)} (id : Nat)
    (htest : Placed slots uses test) (hbody : Placed slots inner body) :
    Placed slots (uses ++ inner) (loopCode id test body) := by
  refine .append_silent (.append ?_ hbody) rfl
  exact (htest.testCode _).silent_append (s := [_]) rfl

end Placed

theorem accesses_lower (op : Op) (q : Register) : accesses (op.lower q) = [] := by
  cases op <;> rfl

end Machine

theorem Expr.Code.placed {f : Frame} {pool : Pool} {e : Expr} {code : Listing}
    (h : e.Code f pool code) {slots : List String} (hf : f.slots <+: slots) :
    Placed slots e.accesses code := by
  induction h with
  | literal pool n => exact .silent rfl
  | @name pool x m hread =>
    obtain ⟨hx, -, rfl⟩ := Frame.read?_eq_some hread
    rw [hf.idxOf_eq_of_mem hx]
    exact ⟨rfl, List.forall_mem_singleton.mpr (hf.subset hx)⟩
  | @binary pool pool' op l r q first second _ _ _ ihl ihr =>
    have hmov : Machine.accesses [.instr (.mov (.reg accumulator) (.reg q))] = [] := rfl
    have huses : (Expr.binary op l r).accesses = l.accesses ++ r.accesses := by
      simp [Expr.accesses, Expr.names, Expr.atoms]
    rw [huses]
    exact ihl.append ((ihr.silent_append hmov).append_silent (accesses_lower op q))

namespace Lower

/-- The code of statements accesses the slots of the variables that they read and assign. -/
theorem Lowers.placed {pool : Pool} {f g : Frame} {p : List Stmt} {code : Listing}
    (h : Lowers pool f p code g) {slots : List String} (hg : g.slots <+: slots) :
    Placed slots (Stmt.accessesAll p) code := by
  induction h with
  | nil f => exact .silent rfl
  | bare _ ih => exact ih hg
  | @assign f g x e rest value code he hl ih =>
    have hslots := hl.slots_prefix.trans hg
    have hx : x ∈ (f.assign x).2.slots := f.mem_slots_assign x
    have hstore : Placed slots [.store x] [.instr (.mov (.reg accumulator) (f.assign x).1)] := by
      have hplace : (f.assign x).1 = placeOf slots x := by
        rw [placeOf, ← hslots.idxOf_eq_of_mem hx]
        rfl
      rw [hplace]
      exact ⟨rfl, List.forall_mem_singleton.mpr (hslots.subset hx)⟩
    have hvalue := he.placed ((f.slots_prefix_assign x).trans hslots)
    exact (hvalue.append hstore).append (ih hg)
  | @branch f f₁ f₂ g id c yes no rest test first second code hc hy hn hl ihy ihn ih =>
    have hslots₂ : f₂.slots <+: slots := hl.slots_prefix.trans hg
    have hslots₁ : f₁.slots <+: slots := hn.slots_prefix.trans hslots₂
    have htest := hc.placed (hy.slots_prefix.trans hslots₁)
    exact (htest.branchCode id (ihy hslots₁) (ihn hslots₂)).append (ih hg)
  | @loop f f₁ g id c body rest test inner code hc hb hl ihb ih =>
    have hslots₁ : f₁.slots <+: slots := hl.slots_prefix.trans hg
    have htest := hc.placed (hb.slots_prefix.trans hslots₁)
    exact (htest.loopCode id (ihb hslots₁)).append (ih hg)

/-! ## The order of the slots -/

/-- Slots with one more variable, unless it has a slot already. -/
def addSlot (slots : List String) (x : String) : List String :=
  if x ∈ slots then slots else slots ++ [x]

/-- Each assignment in the text adds its variable, on whichever paths that may be read. -/
theorem Lowers.slots_eq_foldl {pool : Pool} {f g : Frame} {p : List Stmt} {code : Listing}
    (h : Lowers pool f p code g) : g.slots = (Stmt.targetsAll p).foldl addSlot f.slots := by
  induction h with
  | nil f => rfl
  | bare _ ih => exact ih
  | assign _ _ ih => exact ih
  | @branch f f₁ f₂ g id c yes no rest test first second code _ _ _ _ ihy ihn ih =>
    have hno : f₂.slots = (Stmt.targetsAll no).foldl addSlot f₁.slots := ihn
    rw [Stmt.targetsAll, Stmt.targets, List.foldl_append, List.foldl_append, ← ihy, ← hno]
    exact ih
  | loop _ _ _ ihb ih =>
    rw [Stmt.targetsAll, Stmt.targets, List.foldl_append, ← ihb]
    exact ih

theorem foldl_addSlot (slots xs : List String) :
    xs.foldl addSlot slots = slots ++ (xs.removeAll slots).eraseDups := by
  induction xs generalizing slots with
  | nil => simp
  | cons x xs ih =>
    rw [List.foldl_cons, ih, addSlot]
    split
    · next hx => rw [List.cons_removeAll]; simp [hx]
    · next hx =>
      have hrest : xs.removeAll (slots ++ [x]) = (xs.removeAll slots).filter (!· == x) := by
        simp only [List.removeAll, List.filter_filter]
        refine List.filter_congr fun y _ => ?_
        simp [Bool.and_comm, beq_eq_decide]
      have hcons : (x :: xs).removeAll slots = x :: xs.removeAll slots := by
        rw [List.cons_removeAll]
        simp [hx]
      rw [hcons, List.eraseDups_cons, hrest, List.append_assoc]
      rfl

theorem nodup_foldl_addSlot {slots : List String} (h : slots.Nodup) (xs : List String) :
    (xs.foldl addSlot slots).Nodup := by
  induction xs generalizing slots with
  | nil => exact h
  | cons x xs ih =>
    refine ih ?_
    unfold addSlot
    split
    · exact h
    · next hx => exact List.nodup_append.mpr ⟨h, List.nodup_singleton x, by grind⟩

/-- The slots of a program are its variables, in the order of their first assignments. -/
theorem Lowers.slots_eq {pool : Pool} {g : Frame} {p : Program} {code : Listing}
    (h : Lowers pool .empty p code g) : g.slots = p.variables ∧ p.variables.Nodup := by
  have hfold : (Stmt.targetsAll p).foldl addSlot [] = p.variables := by
    rw [foldl_addSlot]
    simp [Program.variables, List.removeAll]
  refine ⟨h.slots_eq_foldl.trans hfold, ?_⟩
  rw [← hfold]
  exact nodup_foldl_addSlot List.nodup_nil _

/-! ## The stack pointer -/

/-- The code of statements takes nothing off the stack pointer. -/
theorem Lowers.not_mem_sub_rsp {pool : Pool} (hp : pool.Distinct)
    (hr : pool.registers ⊆ scratchRegisters) {f g : Frame} {p : List Stmt} {code : Listing}
    (h : Lowers pool f p code g) (source : Operand) : .instr (.sub source .rsp) ∉ code := by
  suffices hall : ∀ item ∈ code, item ≠ .instr (.sub source .rsp) from fun hmem => hall _ hmem rfl
  refine h.forall_mem ?_ ?_ ?_ ?_ ?_
  · rintro f e code hc item hi rfl
    obtain ⟨i, hi, -, hw⟩ := hc.confined hp _ hi
    cases hi
    rcases hw .rsp (List.mem_singleton.mpr rfl) with hrax | hfree
    · cases hrax
    · exact absurd (hr (List.mem_map_of_mem hfree)) (by decide)
  all_goals simp

end Lower

/-! ## Listings -/

namespace Machine

/-- The instruction that reserves the slots of `n` variables, an even number of them. -/
def reservation (n : Nat) : Listing :=
  if n = 0 then [] else [.instr (.sub (.imm (16 * ((n + 1) / 2) : Nat)) .rsp)]

theorem enterCode_eq (f : Frame) :
    enterCode f = [.instr (.push .rbp), .instr (.mov (.reg .rsp) (.reg .rbp))] ++
      reservation f.slots.length := by
  have hsize : f.size = 16 * ((f.slots.length + 1) / 2) := by
    unfold Frame.size
    omega
  have hzero : f.size = 0 ↔ f.slots.length = 0 := by omega
  unfold enterCode reservation
  by_cases hn : f.slots.length = 0
  · rw [if_pos (hzero.mpr hn), if_pos hn]
  · rw [if_neg (mt hzero.mp hn), if_neg hn, hsize]

/-- Where a listing keeps the variables of a program. -/
structure LaidOut (p : Program) (code : Listing) : Prop where
  /-- There is one memory operand for each read and each assignment of a variable, in the order of
  the text, and no other. -/
  accesses : accesses code = (Stmt.accessesAll p).map (.map (placeOf p.variables))
  mem_variables : ∀ u ∈ Stmt.accessesAll p, u.place ∈ p.variables
  place : ∀ i (h : i < p.variables.length),
    placeOf p.variables p.variables[i] = .mem .rbp (-(8 * (i + 1)))
  distinct : ∀ x ∈ p.variables, ∀ y ∈ p.variables,
    placeOf p.variables x = placeOf p.variables y → x = y
  /-- The frame is reserved as soon as the frame pointer is set, and never again. -/
  reserved : ∃ rest, code =
    [.text, .global "_main", .global "main", .label (.symbol "_main"), .label (.symbol "main"),
     .instr (.push .rbp), .instr (.mov (.reg .rsp) (.reg .rbp))] ++
      reservation p.variables.length ++ rest ∧ ∀ source, .instr (.sub source .rsp) ∉ rest

theorem placeOf_getElem {slots : List String} (h : slots.Nodup) (i : Nat)
    (hi : i < slots.length) : placeOf slots slots[i] = .mem .rbp (-(8 * (i + 1))) := by
  rw [placeOf, h.idxOf_getElem i hi]
  rfl

theorem placeOf_inj {slots : List String} {x y : String} (hx : x ∈ slots)
    (h : placeOf slots x = placeOf slots y) : x = y := by
  refine (List.idxOf_inj hx).mp ?_
  simp only [placeOf, slot, Operand.mem.injEq, true_and] at h
  omega

/-- The variables of a program with a listing stand in the frame in the order of their first
assignments, eight bytes each, and nothing else in memory is an operand. -/
theorem laidOut_of_generate {limit : Nat} {p : Program} {code : Listing}
    (h : generate limit p = .ok code) : LaidOut p code := by
  obtain ⟨body, f, hl, rfl⟩ := lowers_of_generate h
  obtain ⟨hslots, hnodup⟩ := hl.slots_eq
  have hregs : (Pool.ofLimit limit).registers ⊆ scratchRegisters := by
    rw [Pool.registers_ofLimit]
    exact List.take_subset ..
  have hbody : Placed p.variables (Stmt.accessesAll p) body :=
    hl.placed (hslots ▸ List.prefix_rfl)
  have hroutine : Placed p.variables (Stmt.accessesAll p) (routine f body) := by
    rw [routine_eq]
    refine .append_silent (.silent_append ?_ hbody) rfl
    unfold enterCode
    split <;> rfl
  refine ⟨hroutine.accesses, hroutine.mem_slots, placeOf_getElem hnodup,
    fun x hx y _ => placeOf_inj hx, body ++ leaveCode, ?_, fun source => ?_⟩
  · rw [routine_eq, enterCode_eq, hslots]
    simp
  · have hsub := hl.not_mem_sub_rsp (Pool.distinct_ofLimit limit) hregs source
    simp [leaveCode, hsub]

/-- Each block of the branch assigns another variable. Neither may be read after it, and the one
with the second slot is assigned again before it is read. -/
def crossing : Program :=
  [.branch 0 (.atom (.literal 1)) [.assign "b" (.atom (.literal 2))]
    [.assign "a" (.atom (.literal 3))],
   .assign "c" (.atom (.literal 4)), .assign "a" (.atom (.name "c")),
   .loop 1 (.atom (.name "a"))
    [.assign "a" (.binary .subtract (.atom (.name "a")) (.atom (.literal 1))),
     .assign "b" (.atom (.name "a"))]]

theorem laidOut_crossing :
    crossing.variables = ["b", "a", "c"] ∧
    ∃ code, generate 1 crossing = .ok code ∧ LaidOut crossing code := by
  obtain ⟨code, hc⟩ : ∃ code, generate 1 crossing = .ok code := ⟨_, rfl⟩
  exact ⟨rfl, code, hc, laidOut_of_generate hc⟩

end Machine

end Kennel
