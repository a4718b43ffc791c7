import Kennel.Proofs.Reading.Shift

/-!
# Sessions with a reader

A session is any sequence of calls on one reader: moving by a word either way, asking for a word
ahead, taking a number, reading a program. A reading that fails has taken numbers all the same and
leaves the reader inside the words, from where it may go back and read them again. The numbers that
a session shows are `Rising`: each call shows numbers from between the next number before it and the
one after it (`Reader.rising_call`), so no number is shown twice (`program_reused`).
-/

namespace Kennel.Reading

/-- What a reader may be asked for. -/
inductive Call
  | next
  | back
  | hasNext
  | freshId
  | program
  deriving DecidableEq

inductive Reply
  | word (result : Except Fault String)
  /-- Whether there was a word to go back over. -/
  | moved (done : Bool)
  | hasNext (more : Bool)
  | id (n : Nat)
  | program (result : Except Fault Program)

/-- The numbers in a reply; those of a program in the order of the opening words. -/
def Reply.ids : Reply → List Nat
  | .id n => [n]
  | .program (.ok p) => (Stmt.nodesAll p).map (·.2)
  | _ => []

namespace Reader

/-- Answer a call. A move that is not possible leaves the reader as it is. -/
def call (r : Reader) : Call → Reply × Reader
  | .next =>
    match r.cursor.next with
    | .ok (w, c) => (.word (.ok w), { r with cursor := c })
    | .error f => (.word (.error f), r)
  | .back =>
    match r.cursor.back? with
    | some c => (.moved true, { r with cursor := c })
    | none => (.moved false, r)
  | .hasNext => (.hasNext r.cursor.hasNext, r)
  | .freshId => (.id r.freshId.1, r.freshId.2)
  | .program => (.program r.program.1, r.program.2)

/-- Answer calls one after another. -/
def session (r : Reader) : List Call → List Reply × Reader
  | [] => ([], r)
  | c :: calls =>
    let (replies, r') := (r.call c).2.session calls
    ((r.call c).1 :: replies, r')

/-- The numbers that a session shows, in the order of the calls. -/
def shown (r : Reader) (calls : List Call) : List Nat := (r.session calls).1.flatMap Reply.ids

end Reader

/-- The numbers increase, from `n` on and below `m`. -/
structure Rising (n m : Nat) (ids : List Nat) : Prop where
  le : n ≤ m
  increasing : ids.Pairwise (· < ·)
  within : ∀ id ∈ ids, n ≤ id ∧ id < m

namespace Rising

theorem nil {n m : Nat} (h : n ≤ m) : Rising n m [] := ⟨h, .nil, by simp⟩

theorem range' {n m : Nat} (h : n ≤ m) : Rising n m (List.range' n (m - n)) := by
  refine ⟨h, List.pairwise_lt_range', fun id hid => ?_⟩
  rw [List.mem_range'_1] at hid
  omega

theorem append {n k m : Nat} {ids ids' : List Nat} (h : Rising n k ids) (h' : Rising k m ids') :
    Rising n m (ids ++ ids') := by
  refine ⟨Nat.le_trans h.le h'.le, ?_, ?_⟩
  · rw [List.pairwise_append]
    refine ⟨h.increasing, h'.increasing, fun id hid id' hid' => ?_⟩
    have := h.within id hid
    have := h'.within id' hid'
    omega
  · intro id hid
    rcases List.mem_append.mp hid with hid | hid
    · have := h.within id hid
      have := h'.le
      omega
    · have := h'.within id hid
      have := h.le
      omega

end Rising

namespace Reader

/-- The numbers of a program that is read are those handed out meanwhile. -/
theorem rising_program (r : Reader) :
    Rising r.nextId r.program.2.nextId (Reply.program r.program.1).ids := by
  cases h : r.program.1 with
  | error f =>
    -- Nothing is shown, but the next number may have moved on.
    refine .nil ?_
    rw [program_eq_behind]
    exact Nat.le_add_right ..
  | ok p =>
    obtain ⟨m, hi⟩ := items_of_reader h
    obtain ⟨hle, hnumbers⟩ := hi.numbers
    rw [hi.program_eq]
    show Rising r.nextId m ((Stmt.nodesAll p).map (·.2))
    rw [hnumbers]
    exact .range' hle

theorem rising_call (r : Reader) (c : Call) :
    Rising r.nextId (r.call c).2.nextId (r.call c).1.ids := by
  cases c with
  | next =>
    unfold call
    cases r.cursor.next with
    | ok => exact .nil (Nat.le_refl _)
    | error => exact .nil (Nat.le_refl _)
  | back =>
    unfold call
    cases r.cursor.back? with
    | some => exact .nil (Nat.le_refl _)
    | none => exact .nil (Nat.le_refl _)
  | hasNext => exact .nil (Nat.le_refl _)
  | freshId =>
    show Rising r.nextId (r.nextId + 1) [r.nextId]
    exact ⟨Nat.le_succ _, List.pairwise_singleton .., by simp⟩
  | program => exact r.rising_program

theorem rising_session (r : Reader) (calls : List Call) :
    Rising r.nextId (r.session calls).2.nextId (r.shown calls) := by
  induction calls generalizing r with
  | nil => exact .nil (Nat.le_refl _)
  | cons c calls ih => exact (r.rising_call c).append (ih (r.call c).2)

end Reader

/-- A reader at any place of any words, with any next number, reads a program as a reader in front
of the words ahead does: with the same fault or the same program with its numbers raised, and it
ends at the same place, counted from its own. A program takes a number for each branch and loop, and
all words. So whatever is asked of a reader in whatever order, the numbers it shows increase. -/
theorem program_reused (r : Reader) :
    (r.program.1 = (Reader.ofWords r.cursor.ahead).program.1.map (Stmt.shiftAll r.nextId) ∧
      r.program.2.cursor.position =
        r.cursor.position + (Reader.ofWords r.cursor.ahead).program.2.cursor.position ∧
      r.program.2.nextId = r.nextId + (Reader.ofWords r.cursor.ahead).program.2.nextId) ∧
    (∀ p, r.program.1 = .ok p →
      r.program.2.nextId = r.nextId + (Stmt.nodesAll p).length ∧
      r.program.2.cursor.position = r.cursor.position + r.cursor.ahead.length) ∧
    ∀ calls, Rising r.nextId (r.session calls).2.nextId (r.shown calls) := by
  refine ⟨?_, ?_, r.rising_session⟩
  · rw [program_eq_behind]
    refine ⟨rfl, ?_, rfl⟩
    show (_ ++ r.cursor.passed).length = _
    rw [List.length_append, Nat.add_comm]
    rfl
  · intro p hp
    obtain ⟨m, hi⟩ := items_of_reader hp
    rw [hi.program_eq]
    refine ⟨hi.eq_add_length, ?_⟩
    show (r.cursor.ahead.reverse ++ r.cursor.passed).length = r.cursor.passed.length + _
    rw [List.length_append, List.length_reverse, Nat.add_comm]

/-- In front of a branch, after two other words and three numbers. -/
def beforeBranch : Reader := ⟨⟨["x", "GRRR"], ["RUF?", "y", "ROWH", "ARRUF"]⟩, 3⟩

/-- The same words from the start: a loop that is not closed, with a branch in it. -/
def unclosedLoop : Reader := .ofWords ["GRRR", "x", "RUF?", "y", "ROWH", "ARRUF"]

/-- Fail to read the loop, and read the branch in it after going back. -/
def secondTry : List Call := [.program, .back, .back, .back, .back, .freshId, .program]

theorem program_reused_secondTry :
    beforeBranch.program.1 = .ok [.branch 3 (.atom (.name "y")) [] []] ∧
    beforeBranch.program.2.nextId = 4 ∧ beforeBranch.program.2.cursor.position = 6 ∧
    unclosedLoop.program.1 =
      .error ⟨.exhausted, ["parsing while loop's body", "parsing program"]⟩ ∧
    unclosedLoop.shown secondTry = [2, 3] ∧
    Rising 0 4 (unclosedLoop.shown secondTry) := by
  have hread : beforeBranch.program.1 = .ok [.branch 3 (.atom (.name "y")) [] []] := rfl
  obtain ⟨hid, hend⟩ := (program_reused beforeBranch).2.1 _ hread
  exact ⟨hread, hid, hend, rfl, rfl, (program_reused unclosedLoop).2.2 secondTry⟩

end Kennel.Reading
