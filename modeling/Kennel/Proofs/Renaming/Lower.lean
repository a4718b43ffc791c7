import Kennel.Lower.Program
import Kennel.Proofs.Renaming.Basic
import Mathlib.Data.List.Basic

/-!
# Lowering and renaming

Under an injective renaming a program has the same listing, or the same fault with the renamed name
in it (`generate_rename`). Slots are found by position and names are only compared with each other,
so each computation of the lowering does on a renamed state what it does on the state
(`Emit.Renames`); the combinators keep that.
-/

namespace Kennel

open Asm Lower

namespace Lower

def Cause.rename (r : String → String) : Cause → Cause
  | .unassigned x => .unassigned (r x)
  | .outOfRegisters n => .outOfRegisters n
  | .strayRelease q => .strayRelease q

def Fault.rename (r : String → String) (f : Fault) : Fault := f.map (Cause.rename r)

/-! ## Frames -/

namespace Frame

def rename (r : String → String) (f : Frame) : Frame := ⟨f.slots.map r, f.assigned.map r⟩

theorem size_rename (r : String → String) (f : Frame) : (f.rename r).size = f.size := by
  simp [size, rename]

variable {r : String → String} (hr : Function.Injective r)

include hr

theorem idxOf_map_of_injective (l : List String) (x : String) :
    (l.map r).idxOf (r x) = l.idxOf x := by
  induction l with
  | nil => rfl
  | cons y l ih =>
    by_cases h : y = x
    · subst h
      simp
    · rw [List.map_cons, List.idxOf_cons_ne _ (hr.ne h), List.idxOf_cons_ne _ h, ih]

theorem read?_rename (f : Frame) (x : String) : (f.rename r).read? (r x) = f.read? x := by
  simp only [read?, rename, List.mem_map_of_injective hr, idxOf_map_of_injective hr]

theorem slotsWith_rename (f : Frame) (x : String) :
    (f.rename r).slotsWith (r x) = (f.slotsWith x).map r := by
  simp only [slotsWith, rename, List.mem_map_of_injective hr]
  split
  · rfl
  · simp

theorem assign_rename (f : Frame) (x : String) :
    (f.rename r).assign (r x) = ((f.assign x).1, (f.assign x).2.rename r) := by
  simp only [assign, slotsWith_rename hr, idxOf_map_of_injective hr]
  simp only [rename, List.mem_map_of_injective hr]
  split
  · rfl
  · simp

theorem meet_rename (f : Frame) (names : List String) :
    (f.meet names).rename r = (f.rename r).meet (names.map r) := by
  have hmem : (fun x => decide (x ∈ names)) = (fun y => decide (y ∈ names.map r)) ∘ r := by
    funext x
    simp only [Function.comp, List.mem_map_of_injective hr]
  simp only [meet, rename, List.filter_map, hmem]

end Frame

theorem routine_rename (r : String → String) (f : Frame) (code : Listing) :
    routine (f.rename r) code = routine f code := by
  simp only [routine, Frame.reserve, Frame.size_rename]

def State.rename (r : String → String) (s : State) : State := ⟨s.pool, s.frame.rename r⟩

/-! ## Computations -/

namespace Emit

/-- A result and the state it leaves, renamed; `φ` renames what the result holds. -/
def renameResult {α β : Type} (r : String → String) (φ : α → β) :
    Except Fault α × State → Except Fault β × State
  | (.ok a, s) => (.ok (φ a), s.rename r)
  | (.error f, s) => (.error (f.rename r), s.rename r)

/-- On renamed states, `y` does what `x` does on the states, up to the renaming. -/
def Renames {α β : Type} (r : String → String) (φ : α → β) (x : Emit α) (y : Emit β) : Prop :=
  ∀ s, y (s.rename r) = renameResult r φ (x s)

namespace Renames

variable {α β γ δ : Type} {r : String → String} {φ : α → β} {ψ : γ → δ}

theorem pure (a : α) : Renames r φ (pure a) (pure (φ a)) := fun _ => rfl

theorem bind {x : Emit α} {y : Emit β} {f : α → Emit γ} {g : β → Emit δ}
    (hx : Renames r φ x y) (hf : ∀ a, Renames r ψ (f a) (g (φ a))) :
    Renames r ψ (x >>= f) (y >>= g) := by
  intro s
  rw [bind_apply, bind_apply, hx s]
  match x s with
  | (.ok a, t) => exact hf a t
  | (.error e, t) => rfl

theorem within {x : Emit α} {y : Emit β} (context : String) (hx : Renames r φ x y) :
    Renames r φ (within context x) (within context y) := by
  intro s
  rw [Emit.within, Emit.within, hx s]
  match x s with
  | (.ok a, t) => rfl
  | (.error e, t) => rfl

theorem acquire : Renames r id acquire acquire := by
  intro s
  rw [Lower.acquire, Lower.acquire, State.rename]
  match s.pool.acquire? with
  | some (q, pool) => rfl
  | none => rfl

theorem release (q : Register) : Renames r id (release q) (release q) := by
  intro s
  rw [Lower.release, Lower.release, State.rename]
  match s.pool.release? q with
  | some pool => rfl
  | none => rfl

theorem withScratch {body : Register → Emit α} {body' : Register → Emit β}
    (h : ∀ q, Renames r φ (body q) (body' q)) :
    Renames r φ (withScratch body) (withScratch body') := by
  intro s
  rw [Lower.withScratch, Lower.withScratch, acquire s]
  match Lower.acquire s with
  | (.error f, t) => rfl
  | (.ok q, t) =>
    simp only [renameResult, id, h q t]
    obtain ⟨result, u⟩ := body q t
    -- the register goes back in the same way after a result and after a fault
    cases result <;>
    · simp only [renameResult, release q u]
      match Lower.release q u with
      | (.ok (), v) => rfl
      | (.error f, v) => rfl

theorem readSlot (hr : Function.Injective r) (x : String) :
    Renames r id (readSlot x) (readSlot (r x)) := by
  intro s
  rw [Lower.readSlot, Lower.readSlot, State.rename, Frame.read?_rename hr]
  match s.frame.read? x with
  | some m => rfl
  | none => rfl

theorem assignSlot (hr : Function.Injective r) (x : String) :
    Renames r id (assignSlot x) (assignSlot (r x)) := by
  intro s
  rw [Lower.assignSlot, Lower.assignSlot, State.rename, Frame.assign_rename hr]
  rfl

theorem assignedNames : Renames r (List.map r) assignedNames assignedNames := fun _ => rfl

theorem modifyFrame {g g' : Frame → Frame} (h : ∀ f, (g f).rename r = g' (f.rename r)) :
    Renames r id (modifyFrame g) (modifyFrame g') := by
  intro s
  rw [Lower.modifyFrame, Lower.modifyFrame, State.rename, ← h]
  rfl

end Renames

end Emit

end Lower

/-! ## Programs -/

section

open Emit

variable {r : String → String}

theorem Atom.renames_lower (hr : Function.Injective r) (a : Atom) :
    Renames r id a.lower (a.rename r).lower := by
  cases a with
  | literal n => exact .pure _
  | name x => exact .bind (.readSlot hr x) fun _ => .pure _

theorem Expr.renames_lower (hr : Function.Injective r) (e : Expr) :
    Renames r id e.lower (e.rename r).lower := by
  induction e with
  | atom a => exact a.renames_lower hr
  | binary op lhs rhs ihl ihr =>
    refine .bind ihl fun _ => .bind (.withScratch fun _ => ?_) fun _ => .pure _
    exact .bind ihr fun _ => .pure _

theorem Expr.renames_lowerTest (hr : Function.Injective r) (c : Expr) (target : Label) :
    Renames r id (c.lowerTest target) ((c.rename r).lowerTest target) :=
  .bind (c.renames_lower hr) fun _ => .pure _

mutual

theorem Stmt.renames_lower (hr : Function.Injective r) :
    ∀ s : Stmt, Renames r id s.lower (s.rename r).lower
  | .bare _ => .pure _
  | .assign x e =>
    .bind (.within _ (e.renames_lower hr)) fun _ =>
    .bind (.assignSlot hr x) fun _ => .pure _
  | .branch _ c yes no =>
    .bind (.within _ (c.renames_lowerTest hr _)) fun _ =>
    .bind .assignedNames fun _ =>
    .bind (.within _ (Stmt.renames_lowerAll hr yes)) fun _ =>
    .bind .assignedNames fun after =>
    .bind (.modifyFrame fun _ => rfl) fun _ =>
    .bind (.within _ (Stmt.renames_lowerAll hr no)) fun _ =>
    .bind (.modifyFrame fun f => f.meet_rename hr after) fun _ => .pure _
  | .loop _ c body =>
    .bind .assignedNames fun _ =>
    .bind (.within _ (c.renames_lowerTest hr _)) fun _ =>
    .bind (.within _ (Stmt.renames_lowerAll hr body)) fun _ =>
    .bind (.modifyFrame fun _ => rfl) fun _ => .pure _

theorem Stmt.renames_lowerAll (hr : Function.Injective r) :
    ∀ p : List Stmt, Renames r id (Stmt.lowerAll p) (Stmt.lowerAll (Stmt.renameAll r p))
  | [] => .pure _
  | s :: rest =>
    .bind (Stmt.renames_lower hr s) fun _ =>
    .bind (Stmt.renames_lowerAll hr rest) fun _ => .pure _

end

theorem Lower.generate_rename (hr : Function.Injective r) (limit : Nat) (p : Program) :
    generate limit (Stmt.renameAll r p) = (generate limit p).mapError (Fault.rename r) := by
  have h := Stmt.renames_lowerAll hr p (.ofLimit limit)
  have hinit : (State.ofLimit limit).rename r = .ofLimit limit := rfl
  rw [hinit] at h
  rw [generate, generate, h]
  match Stmt.lowerAll p (.ofLimit limit) with
  | (.ok code, s) => exact congrArg Except.ok (routine_rename r s.frame code)
  | (.error f, s) => rfl

end

end Kennel
