import Kennel.Proofs.Renaming.Basic
import Kennel.Reading.Reader

/-!
# Reading and renaming

A map of plain words to plain words acts on all words, leaving keywords and integers as they are
(`renameWord`). Reading the renamed words gives the renamed program, or the very same fault
(`program_renameWord`): a fault quotes keywords and integers only. One word is looked at in
`State.step_rename`; the reading follows by induction on the words.
-/

namespace Kennel

abbrev PlainWord := { w : String // classify w = .plain }

def renameWord (r : PlainWord → PlainWord) (w : String) : String :=
  if h : classify w = .plain then (r ⟨w, h⟩).1 else w

section

variable {r : PlainWord → PlainWord} {w : String}

theorem renameWord_of_plain (h : classify w = .plain) : renameWord r w = (r ⟨w, h⟩).1 :=
  dif_pos h

theorem renameWord_of_ne (h : classify w ≠ .plain) : renameWord r w = w :=
  dif_neg h

@[simp] theorem classify_renameWord : classify (renameWord r w) = classify w := by
  by_cases h : classify w = .plain
  · rw [renameWord_of_plain h, h, (r ⟨w, h⟩).2]
  · rw [renameWord_of_ne h]

theorem renameWord_injective (hr : Function.Injective r) :
    Function.Injective (renameWord r) := by
  intro x y h
  have hc : classify x = classify y := by
    rw [← classify_renameWord (r := r) (w := x), h, classify_renameWord]
  by_cases hx : classify x = .plain
  · have hy : classify y = .plain := hc ▸ hx
    rw [renameWord_of_plain hx, renameWord_of_plain hy] at h
    exact congrArg Subtype.val (hr (Subtype.ext h))
  · have hy : classify y ≠ .plain := hc ▸ hx
    rwa [renameWord_of_ne hx, renameWord_of_ne hy] at h

end

/-! ## Chains -/

theorem Expr.rename_prepend (r : String → String) (lhs : Expr) (op : Op) (e : Expr) :
    (prepend lhs op e).rename r = prepend (lhs.rename r) op (e.rename r) := by
  induction e with
  | atom a => rfl
  | binary op' lhs' rhs' ih =>
    rw [prepend, Expr.rename, prepend]
    split
    · rw [Expr.rename, ih]
    · rfl

/-- The operands of a chain but the last, renamed. -/
def renameFront (r : String → String) (front : List (Atom × Op)) : List (Atom × Op) :=
  front.map fun p => (p.1.rename r, p.2)

theorem Expr.rename_ofChain (r : String → String) (front : List (Atom × Op)) (last : Atom) :
    (ofChain front last).rename r = ofChain (renameFront r front) (last.rename r) := by
  induction front with
  | nil => rfl
  | cons p front ih => exact (rename_prepend r _ p.2 _).trans (congrArg (prepend _ p.2) ih)

namespace Reading

def Purpose.rename (r : String → String) : Purpose → Purpose
  | .value x => .value (r x)
  | .branchTest id => .branchTest id
  | .loopTest id => .loopTest id

def Construct.rename (r : String → String) : Construct → Construct
  | .thenBlock id c => .thenBlock id (c.rename r)
  | .elseBlock id c yes => .elseBlock id (c.rename r) (Stmt.renameAll r yes)
  | .loopBlock id c => .loopBlock id (c.rename r)

def Level.rename (r : String → String) (l : Level) : Level :=
  ⟨Stmt.renameAll r l.before, l.construct.rename r⟩

def Phase.rename (r : String → String) : Phase → Phase
  | .statement => .statement
  | .operand p front => .operand (p.rename r) (renameFront r front)
  | .operator p front last => .operator (p.rename r) (renameFront r front) (last.rename r)

def State.rename (r : String → String) (s : State) : State :=
  ⟨s.levels.map (Level.rename r), Stmt.renameAll r s.block, s.phase.rename r, s.nextId⟩

/-! ## Contexts name no variable -/

section

variable (r : String → String)

@[simp] theorem Purpose.context_rename (p : Purpose) : (p.rename r).context = p.context := by
  cases p <;> rfl

@[simp] theorem Purpose.wanted_rename (p : Purpose) : (p.rename r).wanted = p.wanted := by
  cases p <;> rfl

@[simp] theorem Construct.context_rename (c : Construct) : (c.rename r).context = c.context := by
  cases c <;> rfl

@[simp] theorem Phase.contexts_rename (p : Phase) : (p.rename r).contexts = p.contexts := by
  cases p <;> simp [Phase.rename, Phase.contexts]

end

namespace State

section

variable (r : String → String) (s : State)

@[simp] theorem contexts_rename : (s.rename r).contexts = s.contexts := by
  have hlevels : (s.levels.map (Level.rename r)).map (·.construct.context) =
      s.levels.map (·.construct.context) := by
    rw [List.map_map]
    exact List.map_congr_left fun l _ => Construct.context_rename r l.construct
  rw [contexts, contexts, rename, hlevels, Phase.contexts_rename]

theorem fault_rename (cause : Cause) : (s.rename r).fault cause = s.fault cause := by
  rw [fault, fault, contexts_rename]

theorem reject_rename (cause : Cause) :
    (s.rename r).reject cause = (s.reject cause).map (rename r) := by
  rw [reject, reject, fault_rename, Except.map]

theorem refuse_rename (cause : Cause) :
    (s.rename r).refuse cause = (s.refuse cause).map (rename r) := by
  rw [refuse, refuse, fault_rename, Except.map]

/-! ## One word -/

theorem close_rename (e : Expr) (p : Purpose) :
    (s.rename r).close (e.rename r) (p.rename r) = (s.close e p).rename r := by
  cases p <;> rfl

/-- The end of an expression. -/
theorem close_ofChain_rename (front : List (Atom × Op)) (last : Atom) (p : Purpose) :
    (s.rename r).close (.ofChain (renameFront r front).reverse (last.rename r)) (p.rename r) =
      (s.close (.ofChain front.reverse last) p).rename r := by
  have hreverse : (renameFront r front).reverse = renameFront r front.reverse :=
    List.map_reverse.symm
  rw [hreverse, ← Expr.rename_ofChain, close_rename]

theorem assign_rename : (s.rename r).assign = s.assign.map (rename r) := by
  obtain ⟨levels, block, phase, n⟩ := s
  cases block with
  | nil => exact reject_rename r _ _
  | cons t rest =>
    cases t with
    | bare x => rfl
    | assign x e => exact reject_rename r _ _
    | branch id c yes no => exact reject_rename r _ _
    | loop id c body => exact reject_rename r _ _

theorem terminate_rename (k : Keyword) :
    (s.rename r).terminate k = (s.terminate k).map (rename r) := by
  obtain ⟨levels, block, phase, n⟩ := s
  cases levels with
  | nil => exact reject_rename r _ _
  | cons l outer =>
    obtain ⟨before, construct⟩ := l
    cases construct <;>
      simp [terminate, rename, Level.rename, Construct.rename, Except.map, Stmt.renameAll,
        Stmt.rename]

end

section

variable (r : PlainWord → PlainWord) (s : State) (w : String)

theorem inBlock_rename :
    (s.rename (renameWord r)).inBlock (renameWord r w) =
      (s.inBlock w).map (rename (renameWord r)) := by
  rw [inBlock, inBlock, classify_renameWord]
  cases hw : classify w with
  | integer => rfl
  | plain => rfl
  | keyword k =>
    rw [renameWord_of_ne (by simp [hw])]
    cases k with
    | assign => exact assign_rename _ s
    | op o => exact reject_rename _ s _
    | otherwise => exact terminate_rename _ s _
    | close => exact terminate_rename _ s _
    | branch => rfl
    | loop => rfl
    | thenMark => rfl
    | doMark => rfl

theorem inOperand_rename (p : Purpose) (front : List (Atom × Op)) :
    (s.rename (renameWord r)).inOperand (p.rename (renameWord r))
        (renameFront (renameWord r) front) (renameWord r w) =
      (s.inOperand p front w).map (rename (renameWord r)) := by
  rw [inOperand, inOperand, classify_renameWord]
  cases hw : classify w with
  | plain => rfl
  | integer =>
    rw [renameWord_of_ne (by simp [hw])]
    dsimp only
    split
    · rfl
    · exact reject_rename _ s _
  | keyword k =>
    have hempty : (renameFront (renameWord r) front).isEmpty = front.isEmpty := by
      simp [renameFront]
    rw [hempty, Purpose.wanted_rename]
    cases k with
    | op o => exact reject_rename _ s _
    | _ => exact refuse_rename _ s _

theorem step_rename :
    (s.rename (renameWord r)).step (renameWord r w) =
      (s.step w).map (rename (renameWord r)) := by
  obtain ⟨levels, block, phase, n⟩ := s
  cases phase with
  | statement => exact inBlock_rename r _ w
  | operand p front => exact inOperand_rename r _ w p front
  | operator p front last =>
    have hend := inBlock_rename r (close ⟨levels, block, .operator p front last, n⟩
      (.ofChain front.reverse last) p) w
    rw [← close_ofChain_rename] at hend
    simp only [step, rename, Phase.rename, classify_renameWord]
    cases hw : classify w with
    | integer => exact hend
    | plain => exact hend
    | keyword k =>
      cases k with
      | op o => rfl
      | _ => exact hend

end

/-! ## The end of the words -/

section

variable (r : String → String) (s : State)

theorem program_rename : (s.rename r).program = s.program.map (Stmt.renameAll r) := by
  obtain ⟨levels, block, phase, n⟩ := s
  have hfault := fault_rename r ⟨levels, block, phase, n⟩ .exhausted
  cases phase with
  | statement =>
    cases levels with
    | nil => exact congrArg Except.ok (Stmt.renameAll_reverse r block).symm
    | cons l outer => exact congrArg Except.error hfault
  | operand p front => exact congrArg Except.error hfault
  | operator p front last => exact congrArg Except.error hfault

theorem finish_rename : (s.rename r).finish = s.finish.map (Stmt.renameAll r) := by
  obtain ⟨levels, block, phase, n⟩ := s
  cases phase with
  | statement => exact program_rename r ⟨levels, block, .statement, n⟩
  | operand p front => exact program_rename r ⟨levels, block, .operand p front, n⟩
  | operator p front last =>
    have hend := program_rename r (close ⟨levels, block, .operator p front last, n⟩
      (.ofChain front.reverse last) p)
    rwa [← close_ofChain_rename] at hend

end

end State

theorem readFrom_rename (r : PlainWord → PlainWord) (ws : List String) :
    ∀ (s : State) (passed passed' : List String),
      (readFrom (s.rename (renameWord r)) passed' (ws.map (renameWord r))).1 =
        (readFrom s passed ws).1.map (Stmt.renameAll (renameWord r)) := by
  induction ws with
  | nil => exact fun s _ _ => s.finish_rename (renameWord r)
  | cons w ws ih =>
    intro s passed passed'
    have hstep := s.step_rename r w
    rw [List.map_cons, readFrom, readFrom]
    match hs : s.step w with
    | .ok s' =>
      rw [hs] at hstep
      simp only [hstep, Except.map]
      exact ih s' _ _
    | .error ⟨fault, true⟩ =>
      rw [hs] at hstep
      simp only [hstep, Except.map]
    | .error ⟨fault, false⟩ =>
      rw [hs] at hstep
      simp only [hstep, Except.map]

theorem program_renameWord (r : PlainWord → PlainWord) (ws : List String) :
    (Reader.ofWords (ws.map (renameWord r))).program.1 =
      (Reader.ofWords ws).program.1.map (Stmt.renameAll (renameWord r)) :=
  readFrom_rename r ws (.start 0) [] []

end Reading

end Kennel
