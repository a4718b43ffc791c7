import Kennel.Proofs.Machine.Labels

/-!
# Jumps and their labels

A listing is `Linked` when its label lines differ as texts and every jump leads to a label that
exactly one line defines. Jumps are emitted beside the labels they lead to (`targets_subset`), so
the listing of every program is linked in which no two branches and no two loops share a number.
In a program that has been read no two nodes do (`Reading.nodes_nodup`).
-/

namespace Kennel

open Asm Lower

namespace Machine

/-- The labels that jumps lead to. -/
def targets (code : Listing) : List Label :=
  code.filterMap fun
    | .instr (.jump _ l) => some l
    | _ => none

@[simp] theorem targets_nil : targets [] = [] := rfl

@[simp] theorem targets_append (s t : Listing) : targets (s ++ t) = targets s ++ targets t :=
  List.filterMap_append

@[simp] theorem targets_label (l : Label) (code : Listing) :
    targets (.label l :: code) = targets code := rfl

@[simp] theorem targets_jump (c : Option Condition) (l : Label) (code : Listing) :
    targets (.instr (.jump c l) :: code) = l :: targets code := rfl

@[simp] theorem targets_mov (source target : Operand) (code : Listing) :
    targets (.instr (.mov source target) :: code) = targets code := rfl

theorem mem_targets {c : Option Condition} {l : Label} {code : Listing}
    (h : .instr (.jump c l) ∈ code) : l ∈ targets code :=
  List.mem_filterMap.mpr ⟨_, h, rfl⟩

/-- The lines that define a label. -/
def labelLines (code : Listing) : List String := (labels code).map fun l => (Item.label l).render

/-- The label lines differ, those of the entry points among them, and exactly one line defines the
label of a jump. -/
structure Linked (code : Listing) : Prop where
  distinct : (labelLines code).Nodup
  entries : ["_main:", "main:"] ⊆ labelLines code
  defined : ∀ c l, .instr (.jump c l) ∈ code → code.lines.count (Item.label l).render = 1

/-! ## Lines -/

/-- Only a label line can be a text that is not set off by a tab. -/
theorem count_lines {text : String} (ht : text.toList.head? ≠ some '\t') (code : Listing) :
    code.lines.count text = (labelLines code).count text := by
  have hne : ∀ rest : String, "\t" ++ rest ≠ text := by
    rintro rest rfl
    exact ht (by simp)
  induction code with
  | nil => rfl
  | cons item code ih =>
    cases item with
    | label l => simpa [Listing.lines, labelLines, List.count_cons] using ih
    | instr i =>
      have hi : (Item.instr i).render ≠ text := hne i.render
      simpa [Listing.lines, labelLines, List.count_cons, hi] using ih
    | global name =>
      have hi : (Item.global name).render ≠ text := by
        have := hne (".global " ++ name)
        rwa [← String.append_assoc] at this
      simpa [Listing.lines, labelLines, labels, List.count_cons, hi] using ih
    | text =>
      have hi : Item.text.render ≠ text := hne ".text"
      simpa [Listing.lines, labelLines, labels, List.count_cons, hi] using ih

/-! ## Targets -/

@[simp] theorem targets_lower (op : Op) (q : Register) : targets (op.lower q) = [] := by
  cases op <;> rfl

theorem targets_code {f : Frame} {pool : Pool} {e : Expr} {code : Listing}
    (h : e.Code f pool code) : targets code = [] := by
  induction h with
  | literal pool n => rfl
  | name pool _ => rfl
  | binary _ _ _ ihl ihr => simp [ihl, ihr]

theorem targets_testCode {f : Frame} {pool : Pool} {c : Expr} {test : Listing}
    (h : c.Code f pool test) (target : Label) : targets (testCode test target) = [target] := by
  rw [testCode, targets_append, targets_code h]
  rfl

theorem targets_branchCode {f : Frame} {pool : Pool} {c : Expr} {test : Listing}
    (h : c.Code f pool test) (id : Nat) (yes no : Listing) :
    targets (branchCode id test yes no) =
      .numbered .otherwise id :: (targets yes ++ .numbered .endBranch id :: targets no) := by
  simp [branchCode, targets_testCode h]

theorem targets_loopCode {f : Frame} {pool : Pool} {c : Expr} {test : Listing}
    (h : c.Code f pool test) (id : Nat) (body : Listing) :
    targets (loopCode id test body) =
      .numbered .endLoop id :: (targets body ++ [.numbered .loop id]) := by
  simp [loopCode, targets_testCode h]

/-- Every jump leads to a label of the same code. -/
theorem targets_subset {pool : Pool} {f g : Frame} {p : List Stmt} {code : Listing}
    (h : Lowers pool f p code g) : targets code ⊆ labels code := by
  induction h with
  | nil f => exact List.nil_subset _
  | bare _ ih => exact ih
  | assign he _ ih =>
    simp only [targets_append, targets_code he, targets_mov, targets_nil, List.nil_append,
      labels_append]
    exact List.subset_append_of_subset_right _ ih
  | branch he _ _ _ ihy ihn ih =>
    simp only [targets_append, targets_branchCode he, labels_append, labels_branchCode he]
    grind
  | loop he _ _ ihb ih =>
    simp only [targets_append, targets_loopCode he, labels_append, labels_loopCode he]
    grind

theorem targets_routine (f : Frame) (body : Listing) :
    targets (routine f body) = targets body := by
  unfold routine Frame.reserve
  split <;> simp [targets]

/-! ## Listings -/

theorem linked_routine {pool : Pool} {p : Program} {body : Listing} {f g : Frame}
    (h : Lowers pool f p body g) (hn : (Stmt.nodesAll p).Nodup) : Linked (routine g body) := by
  have hdistinct : (labelLines (routine g body)).Nodup := by
    have := (nodup_labels_routine h hn).map (f := (· ++ ":")) fun s t he => by simpa using he
    rwa [List.map_map] at this
  refine ⟨hdistinct, ?_, ?_⟩
  · intro line hline
    rw [labelLines, labels_routine]
    simp only [List.mem_cons, List.not_mem_nil, or_false] at hline
    rcases hline with rfl | rfl
    · exact List.mem_cons_self
    · exact List.mem_cons_of_mem _ List.mem_cons_self
  · intro c l hl
    have hmem := mem_targets hl
    rw [targets_routine] at hmem
    replace hmem := targets_subset h hmem
    obtain ⟨⟨kind, id⟩, -, hnode⟩ := List.mem_flatMap.mp ((labels_perm h).mem_iff.mp hmem)
    obtain ⟨mark, -, rfl⟩ := mem_nodeLabels hnode
    rw [count_lines (by simp [Item.render, Label.render])]
    refine List.count_eq_one_of_mem hdistinct (List.mem_map.mpr ⟨_, ?_, rfl⟩)
    rw [labels_routine]
    exact List.mem_cons_of_mem _ (List.mem_cons_of_mem _ hmem)

/-- Every listing of a source text is linked, and so is the listing of any program in which no two
branches share a number and no two loops do. -/
theorem linked_listing :
    (∀ (source : String) (limit : Nat) (code : Listing), compileWith limit source = .ok code →
      Linked code) ∧
    ∀ (p : Program) (limit : Nat) (code : Listing), (Stmt.nodesAll p).Nodup →
      generate limit p = .ok code → Linked code := by
  have hgen : ∀ (p : Program) (limit : Nat) (code : Listing), (Stmt.nodesAll p).Nodup →
      generate limit p = .ok code → Linked code := by
    intro p limit code hn h
    obtain ⟨body, f, hl, rfl⟩ := lowers_of_generate h
    exact linked_routine hl hn
  refine ⟨?_, hgen⟩
  intro source limit code h
  obtain ⟨p, hp, hg⟩ := generate_of_compileWith h
  exact hgen p limit code (Reading.nodes_nodup hp) hg

/-- A loop in a branch, and another branch after it. -/
def nodesSource : String := "RUF? 1 GRRR 0 BORF ROWH ARRUF RUF? 0 ROWH ARRUF"

def nestedNodes : Program :=
  [.branch 0 (.atom (.literal 1)) [.loop 1 (.atom (.literal 0)) []] [],
   .branch 2 (.atom (.literal 0)) [] []]

/-- The same, but the loop has the number of the branch around it. -/
def sharedNumber : Program :=
  [.branch 0 (.atom (.literal 1)) [.loop 0 (.atom (.literal 0)) []] [],
   .branch 2 (.atom (.literal 0)) [] []]

theorem linked_sharedNumber :
    (∃ code, compileWith 1 nodesSource = .ok code ∧ Linked code) ∧
    (Stmt.nodesAll sharedNumber).Nodup ∧ ∃ code, generate 1 sharedNumber = .ok code ∧
      Linked code := by
  have hp : Reading.parse nodesSource = .ok nestedNodes := rfl
  obtain ⟨code, hg⟩ : ∃ code, generate 1 nestedNodes = .ok code := ⟨_, rfl⟩
  obtain ⟨code', hg'⟩ : ∃ code, generate 1 sharedNumber = .ok code := ⟨_, rfl⟩
  have hc : compileWith 1 nodesSource = .ok code := by simp only [compileWith, hp, hg]
  have hn : (Stmt.nodesAll sharedNumber).Nodup := by decide
  exact ⟨⟨code, hc, linked_listing.1 _ _ _ hc⟩, hn, code', hg', linked_listing.2 _ _ _ hn hg'⟩

end Machine

end Kennel
