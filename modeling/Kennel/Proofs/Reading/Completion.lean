import Kennel.Proofs.Reading.Grammar

/-!
# What a fault says about the words to come

A fault at a word stays the same whatever words follow. A fault at the end of the words means that
something is still open, and its contexts tell what: each of them is closed by the words that
`completion` gives for it. So the end of the words is the fault exactly where the words can be
completed to a program (`program_eq_error`).
-/

namespace Kennel.Reading

/-- The words that complete what is read in a context. -/
def completion : String → List String
  | "parsing assigned value" => ["1"]
  | "parsing if statement's condition" => ["1", "ARRUF", "ARRUF"]
  | "parsing while loop's condition" => ["1", "ARRUF"]
  | "parsing if statement's then branch" => ["ARRUF", "ARRUF"]
  | "parsing if statement's else branch" => ["ARRUF"]
  | "parsing while loop's body" => ["ARRUF"]
  | _ => []

theorem not_isOperator_of_mem_completion {context w : String} (h : w ∈ completion context) :
    ¬ IsOperator w := by
  have hw : w = "1" ∨ w = "ARRUF" := by
    unfold completion at h
    split at h <;> simp at h <;> simp [h]
  rintro ⟨o, ho⟩
  rcases hw with rfl | rfl <;> cases ho

/-! ## Faults at a word -/

namespace State

variable {s : State} {w : String} {halt : Halt}

theorem assign_cause (h : s.assign = .error halt) : halt.fault.cause ≠ .exhausted := by
  unfold assign reject at h
  split at h <;> cases h <;> exact Cause.noConfusion

theorem terminate_cause {k : Keyword} (h : s.terminate k = .error halt) :
    halt.fault.cause ≠ .exhausted := by
  unfold terminate reject at h
  split at h <;> cases h
  exact Cause.noConfusion

theorem inBlock_cause (h : s.inBlock w = .error halt) : halt.fault.cause ≠ .exhausted := by
  unfold inBlock at h
  split at h
  case h_3 => exact assign_cause h
  case h_8 => exact terminate_cause h
  case h_9 => exact terminate_cause h
  case h_10 => cases h; exact Cause.noConfusion
  all_goals cases h

theorem inOperand_cause {p : Purpose} {front : List (Atom × Op)}
    (h : s.inOperand p front w = .error halt) : halt.fault.cause ≠ .exhausted := by
  unfold inOperand reject refuse at h
  split at h
  · cases h
  · simp only at h
    split at h <;> cases h
    exact Cause.noConfusion
  · cases h; exact Cause.noConfusion
  · cases h; exact Cause.noConfusion

/-- At a word nothing is missing yet. -/
theorem step_cause (h : s.step w = .error halt) : halt.fault.cause ≠ .exhausted := by
  unfold step at h
  split at h
  · exact inBlock_cause h
  · exact inOperand_cause h
  · split at h
    · cases h
    · exact inBlock_cause h

theorem finish_eq_error {f : Fault} (h : s.finish = .error f) : f = s.settle.fault .exhausted := by
  rw [finish_eq] at h
  unfold program at h
  split at h <;> cases h
  rfl

end State

/-- A fault at a word is found whatever follows, and leaves the reader at the same place. -/
theorem readFrom_append_of_error {s : State} {passed ws : List String} {f : Fault} {r : Reader}
    (h : readFrom s passed ws = (.error f, r)) (hf : f.cause ≠ .exhausted) (us : List String) :
    readFrom s passed (ws ++ us) =
      (.error f, ⟨⟨r.cursor.passed, r.cursor.ahead ++ us⟩, r.nextId⟩) := by
  induction ws generalizing s passed with
  | nil =>
    simp only [readFrom, Prod.mk.injEq] at h
    rw [State.finish_eq_error h.1] at hf
    exact absurd rfl hf
  | cons w ws ih =>
    simp only [List.cons_append, readFrom] at h ⊢
    split at h
    · exact ih h
    · cases h; rfl
    · cases h; rfl

/-- Where the words end too early, all of them have been taken. -/
theorem feed_of_readFrom_error {s : State} {passed ws : List String} {f : Fault} {r : Reader}
    (h : readFrom s passed ws = (.error f, r)) (hf : f.cause = .exhausted) :
    ∃ s', s.feed ws = .ok s' ∧ f = s'.settle.fault .exhausted := by
  induction ws generalizing s passed with
  | nil =>
    simp only [readFrom, Prod.mk.injEq] at h
    exact ⟨s, rfl, State.finish_eq_error h.1⟩
  | cons w ws ih =>
    unfold readFrom at h
    split at h
    · next t ht =>
      obtain ⟨s', hfeed, hs'⟩ := ih h
      exact ⟨s', by rw [State.feed_cons ht, hfeed], hs'⟩
    · next ht => cases h; exact absurd hf (State.step_cause ht)
    · next ht => cases h; exact absurd hf (State.step_cause ht)

/-! ## Closing what is open -/

/-- Between two statements the words close the open constructs from the inside out. -/
theorem readFrom_levels (levels : List Level) (block : List Stmt) (n : Nat)
    (passed : List String) :
    ∃ p, (readFrom ⟨levels, block, .statement, n⟩ passed
      ((State.contexts ⟨levels, block, .statement, n⟩).flatMap completion)).1 = .ok p := by
  induction levels generalizing block passed with
  | nil => exact ⟨block.reverse, rfl⟩
  | cons level outer ih =>
    obtain ⟨before, construct⟩ := level
    cases construct with
    | thenBlock id c =>
      exact ih (.branch id c block.reverse [] :: before) ("ARRUF" :: "ARRUF" :: passed)
    | elseBlock id c yes =>
      exact ih (.branch id c yes block.reverse :: before) ("ARRUF" :: passed)
    | loopBlock id c =>
      exact ih (.loop id c block.reverse :: before) ("ARRUF" :: passed)

/-- An operand that is due can be the number one; then the state is closed as the one with the
expression put to its purpose. -/
theorem completion_operand {s : State} {p : Purpose} {front : List (Atom × Op)}
    (hs : s.phase = .operand p front) (e : Expr) :
    s.contexts.flatMap completion = "1" :: (s.close e p).contexts.flatMap completion := by
  cases p <;> simp [State.contexts, hs, Phase.contexts, State.close] <;> rfl

theorem readFrom_completion (s : State) (passed : List String) :
    ∃ p, (readFrom s passed (s.settle.contexts.flatMap completion)).1 = .ok p := by
  have hhead : ∀ t : State, ∀ w ∈ (t.contexts.flatMap completion).head?, ¬ IsOperator w := by
    intro t w hw
    obtain ⟨context, -, hmem⟩ := List.mem_flatMap.mp (List.mem_of_mem_head? hw)
    exact not_isOperator_of_mem_completion hmem
  have hstatement : ∀ (t : State) (passed : List String), t.settle.phase = .statement →
      ∃ p, (readFrom t passed (t.settle.contexts.flatMap completion)).1 = .ok p := by
    intro t passed ht
    rw [← readFrom_settle t passed (hhead t.settle)]
    generalize t.settle = u at ht
    obtain ⟨levels, block, phase, n⟩ := u
    subst ht
    exact readFrom_levels levels block n passed
  cases hs : s.phase with
  | statement => exact hstatement s passed (by rw [State.settle_of_statement hs, hs])
  | operator p front last =>
    exact hstatement s passed (by rw [State.settle_of_operator hs, State.close_phase])
  | operand p front =>
    let t : State := { s with phase := .operator p front (.literal 1) }
    have ht : t.settle = s.close (.ofChain front.reverse (.literal 1)) p := by
      cases p <;> simp [t, State.settle, State.close]
    have hsettle : s.settle = s := by simp only [State.settle, hs]
    have hstep : s.step "1" = .ok t := State.step_operand hs rfl
    rw [hsettle, completion_operand hs (.ofChain front.reverse (.literal 1)), ← ht]
    simp only [readFrom, hstep]
    exact hstatement t _ (by rw [ht, State.close_phase])

/-- What a fault means: one at a word is there whatever words follow, and one at the end of the
words goes away when the words that its contexts call for are added. -/
theorem program_eq_error {ws : List String} {f : Fault}
    (h : (Reader.ofWords ws).program.1 = .error f) :
    (f.cause ≠ .exhausted → ∀ us,
      (Reader.ofWords (ws ++ us)).program.1 = .error f ∧
      (Reader.ofWords (ws ++ us)).program.2.cursor.position =
        (Reader.ofWords ws).program.2.cursor.position ∧
      (Reader.ofWords (ws ++ us)).program.2.nextId = (Reader.ofWords ws).program.2.nextId) ∧
    (f.cause = .exhausted →
      ∃ p, (Reader.ofWords (ws ++ f.contexts.flatMap completion)).program.1 = .ok p) ∧
    (f.cause = .exhausted ↔ ∃ us p, (Reader.ofWords (ws ++ us)).program.1 = .ok p) := by
  obtain ⟨r, hr⟩ : ∃ r, (Reader.ofWords ws).program = (.error f, r) := ⟨_, Prod.ext h rfl⟩
  have hkept : f.cause ≠ .exhausted → ∀ us, (Reader.ofWords (ws ++ us)).program =
      (.error f, ⟨⟨r.cursor.passed, r.cursor.ahead ++ us⟩, r.nextId⟩) :=
    fun hf us => readFrom_append_of_error hr hf us
  have hclosed : f.cause = .exhausted →
      ∃ p, (Reader.ofWords (ws ++ f.contexts.flatMap completion)).program.1 = .ok p := by
    intro hf
    obtain ⟨s, hs, rfl⟩ : ∃ s, (State.start 0).feed ws = .ok s ∧ f = s.settle.fault .exhausted :=
      feed_of_readFrom_error hr hf
    obtain ⟨p, hp⟩ := readFrom_completion s (ws.reverse ++ [])
    refine ⟨p, ?_⟩
    rw [← readFrom_feed hs] at hp
    exact hp
  refine ⟨fun hf us => ?_, hclosed, fun hf => ⟨_, hclosed hf⟩, ?_⟩
  · rw [hkept hf us, hr]
    exact ⟨rfl, rfl, rfl⟩
  · rintro ⟨us, p, hp⟩
    apply Decidable.byContradiction
    intro hf
    rw [hkept hf us] at hp
    cases hp

/-- A loop whose body ends inside an assignment. -/
def openLoop : List String := ["GRRR", "x", "YIP", "3", "BOW", "x", "AWOO", "x", "WOOF"]

theorem program_openLoop :
    (Reader.ofWords openLoop).program.1 = .error ⟨.exhausted,
      ["parsing assigned value", "parsing while loop's body", "parsing program"]⟩ ∧
    ∃ p, (Reader.ofWords (openLoop ++ ["1", "ARRUF"])).program.1 = .ok p := by
  have h : (Reader.ofWords openLoop).program.1 = .error ⟨.exhausted,
      ["parsing assigned value", "parsing while loop's body", "parsing program"]⟩ := rfl
  exact ⟨h, (program_eq_error h).2.1 rfl⟩

end Kennel.Reading
