import Kennel.Proofs.Lower.Code

/-!
# Frames along the code

Along the code of statements the slots only grow at their end, and every variable that may be read
stays so (`Lowers.slots_prefix`, `Lowers.assigned_subset`). The frame has room for every slot.
-/

namespace Kennel.Lower

open Asm

namespace Frame

theorem mem_assigned_assign {f : Frame} {x y : String} :
    y ∈ (f.assign x).2.assigned ↔ y = x ∨ y ∈ f.assigned := by
  simp only [assign]
  split
  · next hx =>
    constructor
    · exact .inr
    · rintro (rfl | hy)
      · exact hx
      · exact hy
  · simp [or_comm]

theorem mem_assigned_meet {f : Frame} {names : List String} {x : String} :
    x ∈ (f.meet names).assigned ↔ x ∈ f.assigned ∧ x ∈ names := by
  simp [meet]

theorem slots_prefix_assign (f : Frame) (x : String) : f.slots <+: (f.assign x).2.slots := by
  simp only [assign, slotsWith]
  split
  · exact List.prefix_rfl
  · exact List.prefix_append ..

theorem mem_slots_assign (f : Frame) (x : String) : x ∈ (f.assign x).2.slots := by
  simp only [assign, slotsWith]
  split
  · assumption
  · simp

theorem read?_eq_some {f : Frame} {x : String} {m : Operand} (h : f.read? x = some m) :
    x ∈ f.slots ∧ x ∈ f.assigned ∧ m = slot (f.slots.idxOf x) := by
  unfold read? at h
  split at h
  · next hx => cases h; exact ⟨hx.1, hx.2, rfl⟩
  · cases h

theorem size_mod (f : Frame) : f.size % 16 = 0 := by
  unfold Frame.size
  omega

theorem slots_le_size (f : Frame) : 8 * f.slots.length ≤ f.size := by
  unfold Frame.size
  omega

end Frame

namespace Lowers

variable {pool : Pool} {f g : Frame} {p : List Stmt} {code : Listing}

theorem slots_prefix (h : Lowers pool f p code g) : f.slots <+: g.slots := by
  induction h with
  | nil f => exact List.prefix_rfl
  | bare _ ih => exact ih
  | assign _ _ ih => exact (Frame.slots_prefix_assign ..).trans ih
  | branch _ _ _ _ ihy ihn ih => exact (ihy.trans ihn).trans ih
  | loop _ _ _ ihb ih => exact ihb.trans ih

theorem assigned_subset (h : Lowers pool f p code g) : f.assigned ⊆ g.assigned := by
  induction h with
  | nil f => exact fun _ hx => hx
  | bare _ ih => exact ih
  | assign _ _ ih => exact fun x hx => ih (Frame.mem_assigned_assign.mpr (.inr hx))
  | branch _ _ _ _ ihy ihn ih =>
    exact fun x hx => ih (Frame.mem_assigned_meet.mpr ⟨ihn hx, ihy hx⟩)
  | loop _ _ _ _ ih => exact ih

end Lowers

end Kennel.Lower
