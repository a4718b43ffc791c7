import Kennel.Proofs.Reading.Numbering

/-!
# Where the numbering starts

`Stmt.shiftAll n` raises the numbers of all branches and loops of a program by `n`. A reader that
has passed words before and handed out numbers before reads the words ahead as a reader in front of
them would, shifted (`readFrom_shift`): a word is taken without a look at the numbers
(`State.step_shift`), and the reading follows by induction on the words. The same holds of
derivations (`Items.shift`), so programs may be put one after the other (`program_append`).
-/

namespace Kennel

mutual

/-- Raise the numbers of a statement and of the blocks in it. -/
def Stmt.shift (n : Nat) : Stmt → Stmt
  | .assign x e => .assign x e
  | .branch id c yes no => .branch (n + id) c (Stmt.shiftAll n yes) (Stmt.shiftAll n no)
  | .loop id c body => .loop (n + id) c (Stmt.shiftAll n body)
  | .bare x => .bare x

def Stmt.shiftAll (n : Nat) : List Stmt → List Stmt
  | [] => []
  | s :: rest => s.shift n :: Stmt.shiftAll n rest

end

theorem Stmt.shiftAll_eq_map (n : Nat) (p : List Stmt) :
    Stmt.shiftAll n p = p.map (Stmt.shift n) := by
  induction p with
  | nil => rfl
  | cons s p ih => rw [Stmt.shiftAll, ih, List.map_cons]

@[simp] theorem Stmt.shiftAll_reverse (n : Nat) (p : List Stmt) :
    Stmt.shiftAll n p.reverse = (Stmt.shiftAll n p).reverse := by
  simp only [Stmt.shiftAll_eq_map, List.map_reverse]

namespace Reading

/-! ## Derivations -/

theorem Items.shift {n m : Nat} {ws : List String} {p : List Stmt} (h : Items n ws p m)
    (c : Nat) : Items (c + n) ws (Stmt.shiftAll c p) (c + m) := by
  -- `c` is added from the left, so that the number after `c + n` is `c + (n + 1)` as it stands.
  induction h with
  | nil n => exact .nil _
  | separator hw _ ih => exact .separator hw ih
  | name hx _ ih => exact .name hx ih
  | assign hx hseps he _ ih => exact .assign hx hseps he ih
  | branch hc _ ht _ hu _ ihy ihn ih => exact .branch hc ihy ht ihn hu ih
  | loop hc _ ht _ ihb ih => exact .loop hc ihb ht ih

/-- Each branch and each loop takes one number. -/
theorem Items.eq_add_length {n m : Nat} {ws : List String} {p : List Stmt} (h : Items n ws p m) :
    m = n + (Stmt.nodesAll p).length := by
  obtain ⟨hle, hnumbers⟩ := h.numbers
  have hlen := congrArg List.length hnumbers
  rw [List.length_map, List.length_range'] at hlen
  omega

/-- What two lists of words say is said by the one after the other, with the numbers of the second
program behind those of the first. -/
theorem program_append {ws vs : List String} {p q : Program}
    (hp : (Reader.ofWords ws).program.1 = .ok p) (hq : (Reader.ofWords vs).program.1 = .ok q) :
    (Reader.ofWords (ws ++ vs)).program.1 =
      .ok (p ++ Stmt.shiftAll (Stmt.nodesAll p).length q) := by
  obtain ⟨m, hws⟩ := items_of_program hp
  obtain ⟨k, hvs⟩ := items_of_program hq
  have hm : m = (Stmt.nodesAll p).length := by
    rw [hws.eq_add_length, Nat.zero_add]
  rw [← hm]
  exact (hws.append (hvs.shift m)).program_eq_ok

/-- A loop, and an assignment that a further operator would make longer. -/
def loopFirst : List String := ["GRRR", "x", "BOW", "ARRUF", "y", "AWOO", "x"]

/-- A name that a preceding operator would take as its operand, and a branch. -/
def branchNext : List String := ["z", "RUF?", "z", "ROWH", "ARRUF"]

theorem program_loopFirst_branchNext :
    (Reader.ofWords loopFirst).program.1 =
      .ok [.loop 0 (.atom (.name "x")) [], .assign "y" (.atom (.name "x"))] ∧
    (Reader.ofWords branchNext).program.1 =
      .ok [.bare "z", .branch 0 (.atom (.name "z")) [] []] ∧
    (Reader.ofWords (loopFirst ++ branchNext)).program.1 =
      .ok [.loop 0 (.atom (.name "x")) [], .assign "y" (.atom (.name "x")), .bare "z",
        .branch 1 (.atom (.name "z")) [] []] := by
  have hfirst : (Reader.ofWords loopFirst).program.1 =
      .ok [.loop 0 (.atom (.name "x")) [], .assign "y" (.atom (.name "x"))] := rfl
  have hnext : (Reader.ofWords branchNext).program.1 =
      .ok [.bare "z", .branch 0 (.atom (.name "z")) [] []] := rfl
  exact ⟨hfirst, hnext, program_append hfirst hnext⟩

/-! ## States -/

def Purpose.shift (n : Nat) : Purpose → Purpose
  | .value x => .value x
  | .branchTest id => .branchTest (n + id)
  | .loopTest id => .loopTest (n + id)

def Construct.shift (n : Nat) : Construct → Construct
  | .thenBlock id c => .thenBlock (n + id) c
  | .elseBlock id c yes => .elseBlock (n + id) c (Stmt.shiftAll n yes)
  | .loopBlock id c => .loopBlock (n + id) c

def Level.shift (n : Nat) (l : Level) : Level :=
  ⟨Stmt.shiftAll n l.before, l.construct.shift n⟩

def Phase.shift (n : Nat) : Phase → Phase
  | .statement => .statement
  | .operand p front => .operand (p.shift n) front
  | .operator p front last => .operator (p.shift n) front last

/-- Raise all the numbers that a state holds, the next one among them. -/
def State.shift (n : Nat) (s : State) : State :=
  ⟨s.levels.map (Level.shift n), Stmt.shiftAll n s.block, s.phase.shift n, n + s.nextId⟩

section

variable (n : Nat)

theorem Purpose.context_shift (p : Purpose) : (p.shift n).context = p.context := by
  cases p <;> rfl

theorem Purpose.wanted_shift (p : Purpose) : (p.shift n).wanted = p.wanted := by
  cases p <;> rfl

theorem Construct.context_shift (c : Construct) : (c.shift n).context = c.context := by
  cases c <;> rfl

theorem Phase.contexts_shift (p : Phase) : (p.shift n).contexts = p.contexts := by
  cases p with
  | statement => rfl
  | operand p front => rw [shift, contexts, contexts, p.context_shift]
  | operator p front last => rw [shift, contexts, contexts, p.context_shift]

namespace State

variable (s : State)

theorem fault_shift (cause : Cause) : (s.shift n).fault cause = s.fault cause := by
  have hlevels : (s.levels.map (Level.shift n)).map (·.construct.context) =
      s.levels.map (·.construct.context) := by
    rw [List.map_map]
    exact List.map_congr_left fun l _ => l.construct.context_shift n
  unfold fault contexts
  rw [shift, hlevels, Phase.contexts_shift]

theorem reject_shift (cause : Cause) :
    (s.shift n).reject cause = (s.reject cause).map (shift n) := by
  rw [reject, reject, fault_shift, Except.map]

theorem refuse_shift (cause : Cause) :
    (s.shift n).refuse cause = (s.refuse cause).map (shift n) := by
  rw [refuse, refuse, fault_shift, Except.map]

theorem close_shift (e : Expr) (p : Purpose) :
    (s.shift n).close e (p.shift n) = (s.close e p).shift n := by
  cases p <;> rfl

theorem assign_shift : (s.shift n).assign = s.assign.map (shift n) := by
  obtain ⟨levels, block, phase, id⟩ := s
  cases block with
  | nil => exact reject_shift n _ _
  | cons t rest =>
    cases t with
    | bare x => rfl
    | assign x e => exact reject_shift n _ _
    | branch id c yes no => exact reject_shift n _ _
    | loop id c body => exact reject_shift n _ _

theorem terminate_shift (k : Keyword) :
    (s.shift n).terminate k = (s.terminate k).map (shift n) := by
  obtain ⟨levels, block, phase, id⟩ := s
  cases levels with
  | nil => exact reject_shift n _ _
  | cons l outer =>
    obtain ⟨before, construct⟩ := l
    cases construct <;>
      simp [terminate, shift, Level.shift, Construct.shift, Except.map, Stmt.shiftAll, Stmt.shift]

variable (w : String)

theorem inBlock_shift : (s.shift n).inBlock w = (s.inBlock w).map (shift n) := by
  unfold inBlock
  cases classify w with
  | integer => rfl
  | plain => rfl
  | keyword k =>
    cases k with
    | assign => exact s.assign_shift n
    | op o => exact s.reject_shift n _
    | otherwise => exact s.terminate_shift n _
    | close => exact s.terminate_shift n _
    | branch => rfl
    | loop => rfl
    | thenMark => rfl
    | doMark => rfl

theorem inOperand_shift (p : Purpose) (front : List (Atom × Op)) :
    (s.shift n).inOperand (p.shift n) front w = (s.inOperand p front w).map (shift n) := by
  unfold inOperand
  rw [p.wanted_shift]
  cases classify w with
  | plain => rfl
  | integer =>
    by_cases hfits : Text.digitsValue w.toList ≤ maxLiteral
    · simp only [if_pos hfits]
      rfl
    · simp only [if_neg hfits]
      exact s.reject_shift n _
  | keyword k =>
    cases k with
    | op o => exact s.reject_shift n _
    | _ => exact s.refuse_shift n _

/-- A word is taken in the same way, whatever the numbers. -/
theorem step_shift : (s.shift n).step w = (s.step w).map (shift n) := by
  obtain ⟨levels, block, phase, id⟩ := s
  cases phase with
  | statement => exact inBlock_shift n _ w
  | operand p front => exact inOperand_shift n _ w p front
  | operator p front last =>
    -- Any word but an operator ends the expression and is taken from the state with it closed.
    have hend := inBlock_shift n (close ⟨levels, block, .operator p front last, id⟩
      (.ofChain front.reverse last) p) w
    rw [← close_shift] at hend
    simp only [step, shift, Phase.shift]
    cases classify w with
    | integer => exact hend
    | plain => exact hend
    | keyword k =>
      cases k with
      | op o => rfl
      | _ => exact hend

theorem program_shift : (s.shift n).program = s.program.map (Stmt.shiftAll n) := by
  obtain ⟨levels, block, phase, id⟩ := s
  have hfault := fault_shift n ⟨levels, block, phase, id⟩ .exhausted
  cases phase with
  | statement =>
    cases levels with
    | nil => exact congrArg Except.ok (Stmt.shiftAll_reverse n block).symm
    | cons l outer => exact congrArg Except.error hfault
  | operand p front => exact congrArg Except.error hfault
  | operator p front last => exact congrArg Except.error hfault

theorem settle_shift : (s.shift n).settle = s.settle.shift n := by
  obtain ⟨levels, block, phase, id⟩ := s
  cases phase with
  | statement => rfl
  | operand p front => rfl
  | operator p front last => exact close_shift n _ _ p

theorem finish_shift : (s.shift n).finish = s.finish.map (Stmt.shiftAll n) := by
  rw [finish_eq, settle_shift, program_shift, finish_eq]

end State

end

/-! ## Readers -/

/-- The same reader when `before` has been passed, last first, and `n` numbers have been handed out
before its own. -/
def Reader.behind (before : List String) (n : Nat) (r : Reader) : Reader :=
  ⟨⟨r.cursor.passed ++ before, r.cursor.ahead⟩, n + r.nextId⟩

theorem readFrom_shift (n : Nat) (s : State) (passed before ws : List String) :
    readFrom (s.shift n) (passed ++ before) ws =
      ((readFrom s passed ws).1.map (Stmt.shiftAll n),
        (readFrom s passed ws).2.behind before n) := by
  induction ws generalizing s passed with
  | nil =>
    rw [readFrom, readFrom, s.finish_shift]
    rfl
  | cons w ws ih =>
    have hstep := s.step_shift n w
    unfold readFrom
    cases hs : s.step w with
    | ok t =>
      rw [hs] at hstep
      simp only [hstep, Except.map]
      exact ih t (w :: passed)
    | error halt =>
      rw [hs] at hstep
      simp only [hstep, Except.map]
      obtain ⟨fault, taken⟩ := halt
      cases taken <;> rfl

theorem program_eq_behind (r : Reader) :
    r.program = ((Reader.ofWords r.cursor.ahead).program.1.map (Stmt.shiftAll r.nextId),
      (Reader.ofWords r.cursor.ahead).program.2.behind r.cursor.passed r.nextId) :=
  readFrom_shift r.nextId (.start 0) [] r.cursor.passed r.cursor.ahead

theorem items_of_reader {r : Reader} {p : Program} (h : r.program.1 = .ok p) :
    ∃ m, Items r.nextId r.cursor.ahead p m := by
  rw [program_eq_behind] at h
  cases hfresh : (Reader.ofWords r.cursor.ahead).program.1 with
  | error f =>
    rw [hfresh] at h
    cases h
  | ok q =>
    rw [hfresh] at h
    cases h
    obtain ⟨m, hi⟩ := items_of_program hfresh
    exact ⟨r.nextId + m, hi.shift r.nextId⟩

/-- A program that is read leaves no word ahead. -/
theorem Items.program_eq {r : Reader} {p : Program} {m : Nat}
    (h : Items r.nextId r.cursor.ahead p m) :
    r.program = (.ok p, ⟨⟨r.cursor.ahead.reverse ++ r.cursor.passed, []⟩, m⟩) := by
  obtain ⟨s, hfeed, hset⟩ := h.feed (s := .start r.nextId) rfl
  have hid : s.nextId = m := by rw [← s.settle_nextId, hset]
  have hfinish : s.finish = .ok p := by
    rw [s.finish_eq, hset]
    simp [State.program]
  have hread := readFrom_feed hfeed r.cursor.passed []
  rw [List.append_nil] at hread
  show readFrom (.start r.nextId) r.cursor.passed r.cursor.ahead = _
  rw [hread, readFrom, hfinish, hid]

end Reading

end Kennel
