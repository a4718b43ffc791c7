import Kennel.Proofs.Asm.Render
import Kennel.Proofs.Lower.Code
import Kennel.Proofs.Machine.Run
import Kennel.Proofs.Reading.Numbering
import Mathlib.Data.List.Nodup

/-!
# Labels

The labels of a listing are two for every branch and loop of the program, and those of the routine.
Where branches and loops have numbers of their own all these labels differ as texts, so that a jump
gets to the one place its label marks (`resolves_routine`).
-/

namespace Kennel

open Asm Lower

namespace Machine

def labels (code : Listing) : List Label :=
  code.filterMap fun
    | .label l => some l
    | _ => none

@[simp] theorem labels_nil : labels [] = [] := rfl

@[simp] theorem labels_append (s t : Listing) : labels (s ++ t) = labels s ++ labels t :=
  List.filterMap_append

@[simp] theorem labels_label (l : Label) (code : Listing) :
    labels (.label l :: code) = l :: labels code := rfl

@[simp] theorem labels_instr (i : Instr) (code : Listing) :
    labels (.instr i :: code) = labels code := rfl

/-- Every label is found where it stands. -/
def Resolves (code : Listing) : Prop :=
  ∀ k l, code[k]? = some (.label l) → labelAt? l.render code = some k

theorem labelAt?_eq_none {name : String} {code : Listing}
    (h : name ∉ (labels code).map Label.render) : labelAt? name code = none := by
  induction code with
  | nil => rfl
  | cons item code ih =>
    cases item with
    | label l =>
      simp only [labels_label, List.map_cons, List.mem_cons, not_or] at h
      simp [labelAt?, ih h.2, carries, Ne.symm h.1]
    | text | global _ | instr _ => simp [labelAt?, ih h, carries]

theorem resolves_of_nodup {code : Listing} (h : ((labels code).map Label.render).Nodup) :
    Resolves code := by
  induction code with
  | nil => intro k l hk; simp at hk
  | cons item code ih =>
    intro k l hk
    cases k with
    | zero =>
      obtain rfl : item = .label l := by simpa using hk
      simp only [labels_label, List.map_cons, List.nodup_cons] at h
      simp [labelAt?, labelAt?_eq_none h.1, carries]
    | succ k =>
      have hcode : ((labels code).map Label.render).Nodup := by
        cases item with
        | label _ => exact (List.nodup_cons.mp h).2
        | text | global _ | instr _ => exact h
      simp [labelAt?, ih hcode k l hk]

end Machine

/-! ## Labels of a program -/

namespace Machine

/-- The labels that the code of a branch or a loop defines. -/
def nodeLabels : Kind × Nat → List Label
  | (.branch, id) => [.numbered .otherwise id, .numbered .endBranch id]
  | (.loop, id) => [.numbered .loop id, .numbered .endLoop id]

@[simp] theorem labels_lower (op : Op) (q : Register) : labels (op.lower q) = [] := by
  cases op <;> rfl

theorem labels_code {f : Frame} {pool : Pool} {e : Expr} {code : Listing}
    (h : e.Code f pool code) : labels code = [] := by
  induction h with
  | literal pool n => rfl
  | name pool _ => rfl
  | binary _ _ _ ihl ihr => simp [ihl, ihr]

theorem labels_branchCode {f : Frame} {pool : Pool} {c : Expr} {test : Listing}
    (h : c.Code f pool test) (id : Nat) (yes no : Listing) :
    labels (branchCode id test yes no) =
      labels yes ++ .numbered .otherwise id :: (labels no ++ [.numbered .endBranch id]) := by
  simp [branchCode, testCode, labels_code h]

theorem labels_loopCode {f : Frame} {pool : Pool} {c : Expr} {test : Listing}
    (h : c.Code f pool test) (id : Nat) (body : Listing) :
    labels (loopCode id test body) =
      .numbered .loop id :: (labels body ++ [.numbered .endLoop id]) := by
  simp [loopCode, testCode, labels_code h]

/-- The labels of the code are those of the branches and loops, if in another order: a branch comes
before the nodes in it, but its labels between and after them. -/
theorem labels_perm {pool : Pool} {f g : Frame} {p : List Stmt} {code : Listing}
    (h : Lowers pool f p code g) :
    (labels code).Perm ((Stmt.nodesAll p).flatMap nodeLabels) := by
  induction h with
  | nil f => exact .nil
  | bare _ ih => exact ih
  | assign he _ ih => simpa [labels_code he, Stmt.nodesAll, Stmt.nodes] using ih
  | branch he _ _ _ ihy ihn ih =>
    rw [List.perm_iff_count] at ihy ihn ih ⊢
    intro l
    simp only [labels_append, labels_branchCode he, List.count_append, List.count_cons, ihy l,
      ihn l, ih l, Stmt.nodesAll, Stmt.nodes, List.flatMap_append, List.flatMap_cons, nodeLabels]
    omega
  | loop he _ _ ihb ih =>
    rw [List.perm_iff_count] at ihb ih ⊢
    intro l
    simp only [labels_append, labels_loopCode he, List.count_append, List.count_cons, ihb l, ih l,
      Stmt.nodesAll, Stmt.nodes, List.flatMap_append, List.flatMap_cons, nodeLabels]
    omega

/-- What the mark of a label belongs to. -/
def markKind : Mark → Kind
  | .otherwise | .endBranch => .branch
  | .loop | .endLoop => .loop

theorem mem_nodeLabels {kind : Kind} {id : Nat} {l : Label} (h : l ∈ nodeLabels (kind, id)) :
    ∃ mark, markKind mark = kind ∧ l = .numbered mark id := by
  cases kind <;> simp only [nodeLabels, List.mem_cons, List.not_mem_nil, or_false] at h
  · rcases h with rfl | rfl
    · exact ⟨.otherwise, rfl, rfl⟩
    · exact ⟨.endBranch, rfl, rfl⟩
  · rcases h with rfl | rfl
    · exact ⟨.loop, rfl, rfl⟩
    · exact ⟨.endLoop, rfl, rfl⟩

theorem nodup_nodeLabels {nodes : List (Kind × Nat)} (h : nodes.Nodup) :
    ((nodes.flatMap nodeLabels).map Label.render).Nodup := by
  rw [List.map_flatMap, List.nodup_flatMap]
  constructor
  · rintro ⟨kind, id⟩ -
    refine List.Nodup.map_on ?_ (by cases kind <;> simp [nodeLabels])
    intro l hl l' hl' he
    obtain ⟨mark, -, rfl⟩ := mem_nodeLabels hl
    obtain ⟨mark', -, rfl⟩ := mem_nodeLabels hl'
    rw [(Label.render_numbered_inj he).1]
  · refine h.imp ?_
    rintro ⟨kind, id⟩ ⟨kind', id'⟩ hne text ht ht'
    obtain ⟨l, hl, rfl⟩ := List.mem_map.mp ht
    obtain ⟨l', hl', he⟩ := List.mem_map.mp ht'
    obtain ⟨mark, rfl, rfl⟩ := mem_nodeLabels hl
    obtain ⟨mark', rfl, rfl⟩ := mem_nodeLabels hl'
    obtain ⟨rfl, rfl⟩ := Label.render_numbered_inj he
    exact hne rfl

theorem labels_routine (f : Frame) (body : Listing) :
    labels (routine f body) = .symbol "_main" :: .symbol "main" :: labels body := by
  unfold routine Frame.reserve
  split <;> simp [labels]

theorem nodup_labels_routine {pool : Pool} {p : Program} {body : Listing} {f g : Frame}
    (h : Lowers pool f p body g) (hn : (Stmt.nodesAll p).Nodup) :
    ((labels (routine g body)).map Label.render).Nodup := by
  have hbody := (labels_perm h).map Label.render
  have hsymbol : ∀ name : String, name.toList.head? ≠ some '.' →
      name ∉ (labels body).map Label.render := by
    intro name hname hmem
    obtain ⟨l, hl, rfl⟩ := List.mem_map.mp (hbody.mem_iff.mp hmem)
    obtain ⟨⟨kind, id⟩, -, hl⟩ := List.mem_flatMap.mp hl
    obtain ⟨mark, -, rfl⟩ := mem_nodeLabels hl
    exact Label.render_numbered_ne hname rfl
  rw [labels_routine, List.map_cons, List.map_cons, List.nodup_cons, List.nodup_cons]
  refine ⟨?_, hsymbol "main" (by decide), hbody.nodup_iff.mpr (nodup_nodeLabels hn)⟩
  rw [List.mem_cons, not_or]
  exact ⟨by decide, hsymbol "_main" (by decide)⟩

theorem resolves_routine {pool : Pool} {p : Program} {body : Listing} {f g : Frame}
    (h : Lowers pool f p body g) (hn : (Stmt.nodesAll p).Nodup) :
    Resolves (routine g body) :=
  resolves_of_nodup (nodup_labels_routine h hn)

end Machine

end Kennel
