import Kennel.Proofs.Reading.Grammar

/-!
# Spellings that do not matter

The two words that close a block stand for each other, and so do the two separators: with others of
them at any places a list of words is read in the same way, to the same program or the same fault
(`Exchanged.outcome_readFrom`). Where the words make up a program, more is free. A block may be
closed by any terminator, and separators may be left out (`Respelled.feed`).

What a separator does is to end the expression before it. Left out, it leaves the expression open
(`Trails`), but the next word ends it just as well: behind the separator it has been taken, so it is
no operator.
-/

namespace Kennel.Reading

/-- The words that only close blocks. -/
def IsClosing (w : String) : Prop := w = "ARRUF" ∨ w = "BORF"

/-- Words with some closing words and some separators exchanged for others of their kind. -/
inductive Exchanged : List String → List String → Prop
  | nil : Exchanged [] []
  | keep {ws vs : List String} (w : String) : Exchanged ws vs → Exchanged (w :: ws) (w :: vs)
  | closing {ws vs : List String} {w v : String} : IsClosing w → IsClosing v →
      Exchanged ws vs → Exchanged (w :: ws) (v :: vs)
  | separator {ws vs : List String} {w v : String} : IsSeparator w → IsSeparator v →
      Exchanged ws vs → Exchanged (w :: ws) (v :: vs)

/-- Words with some terminators replaced by others and some separators left out. -/
inductive Respelled : List String → List String → Prop
  | nil : Respelled [] []
  | keep {ws vs : List String} (w : String) : Respelled ws vs → Respelled (w :: ws) (w :: vs)
  | terminator {ws vs : List String} {w v : String} : IsTerminator w → IsTerminator v →
      Respelled ws vs → Respelled (w :: ws) (v :: vs)
  | leaveOut {ws vs : List String} {w : String} : IsSeparator w →
      Respelled ws vs → Respelled (w :: ws) vs

/-! ## One word -/

/-- A keyword that is no operator. -/
def IsMark (w : String) : Prop := ∃ k, classify w = .keyword k ∧ ∀ o, k ≠ .op o

theorem IsMark.not_isOperator {w : String} (h : IsMark w) : ¬ IsOperator w := by
  obtain ⟨k, hc, hk⟩ := h
  exact not_isOperator_of_classify hc hk

theorem IsSeparator.isMark {w : String} (h : IsSeparator w) : IsMark w := by
  rcases isSeparator_iff.mp h with hc | hc
  · exact ⟨_, hc, fun _ => Keyword.noConfusion⟩
  · exact ⟨_, hc, fun _ => Keyword.noConfusion⟩

theorem IsTerminator.isMark {w : String} (h : IsTerminator w) : IsMark w := by
  rcases isTerminator_iff.mp h with hc | hc
  · exact ⟨_, hc, fun _ => Keyword.noConfusion⟩
  · exact ⟨_, hc, fun _ => Keyword.noConfusion⟩

theorem IsClosing.classify_eq {w : String} (h : IsClosing w) : classify w = .keyword .close := by
  rcases h with rfl | rfl <;> rfl

theorem IsClosing.isMark {w : String} (h : IsClosing w) : IsMark w :=
  ⟨_, h.classify_eq, fun _ => Keyword.noConfusion⟩

namespace State

theorem settle_phase_of_operator {s : State} {p : Purpose} {front : List (Atom × Op)}
    {last : Atom} (h : s.phase = .operator p front last) : s.settle.phase = .statement := by
  rw [settle_of_operator h, close_phase]

/-- No mark stands for an operand, whichever it is. -/
theorem inOperand_mark (s : State) (p : Purpose) (front : List (Atom × Op)) {w : String}
    (hw : IsMark w) :
    s.inOperand p front w =
      s.refuse (.missingOperand (if front.isEmpty then p.wanted else "a right operand")) := by
  obtain ⟨k, hc, hk⟩ := hw
  unfold inOperand
  rw [hc]
  cases k with
  | op o => exact absurd rfl (hk o)
  | _ => rfl

/-- Marks are told apart between statements only. -/
theorem step_congr {w v : String} (hw : IsMark w) (hv : IsMark v)
    (hblock : ∀ s : State, s.inBlock w = s.inBlock v) (s : State) : s.step w = s.step v := by
  cases hp : s.phase with
  | statement => rw [step_of_statement hp, step_of_statement hp, hblock]
  | operand p front =>
    simp only [step, hp]
    rw [s.inOperand_mark p front hw, s.inOperand_mark p front hv]
  | operator p front last =>
    have hset := settle_phase_of_operator hp
    rw [← step_settle hw.not_isOperator s, ← step_settle hv.not_isOperator s,
      step_of_statement hset, step_of_statement hset, hblock]

/-- A mark that is taken is taken between two statements. -/
theorem inBlock_of_step {s s' : State} {w : String} (hw : IsMark w) (h : s.step w = .ok s') :
    s.settle.phase = .statement ∧ s.settle.inBlock w = .ok s' := by
  have hset : s.settle.phase = .statement := by
    cases hp : s.phase with
    | statement => rw [settle_of_statement hp, hp]
    | operator p front last => exact settle_phase_of_operator hp
    | operand p front =>
      simp only [step, hp] at h
      rw [s.inOperand_mark p front hw] at h
      cases h
  rw [← step_settle hw.not_isOperator, step_of_statement hset] at h
  exact ⟨hset, h⟩

/-- Between statements an operator is a fault. -/
theorem not_isOperator_of_inBlock {s s' : State} {w : String} (h : s.inBlock w = .ok s') :
    ¬ IsOperator w := by
  rintro ⟨o, ho⟩
  unfold inBlock at h
  rw [ho] at h
  cases h

theorem step_closing {w v : String} (hw : IsClosing w) (hv : IsClosing v) (s : State) :
    s.step v = s.step w := by
  apply step_congr hv.isMark hw.isMark
  intro t
  unfold inBlock
  rw [hw.classify_eq, hv.classify_eq]

theorem step_separators {w v : String} (hw : IsSeparator w) (hv : IsSeparator v) (s : State) :
    s.step v = s.step w := by
  apply step_congr hv.isMark hw.isMark
  intro t
  rw [t.inBlock_separator hw, t.inBlock_separator hv]

/-- A separator that is taken ends the expression before it and does nothing else. -/
theorem step_separator {s s' : State} {w : String} (hw : IsSeparator w) (h : s.step w = .ok s') :
    s' = s.settle ∧ s'.phase = .statement := by
  obtain ⟨hp, hblock⟩ := inBlock_of_step hw.isMark h
  rw [inBlock_separator _ hw] at hblock
  cases hblock
  exact ⟨rfl, hp⟩

theorem terminate_congr {s s' : State} {k : Keyword} (h : s.terminate k = .ok s') (l : Keyword) :
    s.terminate l = .ok s' := by
  unfold terminate at h ⊢
  split at h
  · cases h
  · exact h
  · exact h
  · exact h

/-- A block that one terminator closes is closed by every other in the same way. -/
theorem step_terminators {s s' : State} {w v : String} (hw : IsTerminator w)
    (hv : IsTerminator v) (h : s.step w = .ok s') : s.step v = .ok s' := by
  obtain ⟨hp, hblock⟩ := inBlock_of_step hw.isMark h
  obtain ⟨k, hk⟩ := s.settle.inBlock_terminator hw
  obtain ⟨l, hl⟩ := s.settle.inBlock_terminator hv
  rw [← step_settle hv.not_isOperator, step_of_statement hp, hl]
  exact terminate_congr (hk.symm.trans hblock) l

theorem step_of_feed_cons {s s' : State} {w : String} {ws : List String}
    (h : s.feed (w :: ws) = .ok s') : ∃ s₁, s.step w = .ok s₁ ∧ s₁.feed ws = .ok s' := by
  unfold feed at h
  split at h
  · next s₁ hs₁ => exact ⟨s₁, hs₁, h⟩
  · cases h

end State

/-! ## Exchanged words -/

/-- The result of reading, the position it ends at and the next number. -/
def outcome (r : Except Fault Program × Reader) : Except Fault Program × Nat × Nat :=
  (r.1, r.2.cursor.position, r.2.nextId)

theorem outcome_readFrom_cons {s : State} {w v : String} {ws vs : List String}
    (hstep : s.step v = s.step w) {passed passed' : List String}
    (hlen : passed'.length = passed.length)
    (hrest : ∀ (t : State) {passed passed' : List String}, passed'.length = passed.length →
      outcome (readFrom t passed' vs) = outcome (readFrom t passed ws)) :
    outcome (readFrom s passed' (v :: vs)) = outcome (readFrom s passed (w :: ws)) := by
  unfold readFrom
  rw [hstep]
  cases s.step w with
  | ok t => exact hrest t (by simp [hlen])
  | error halt =>
    obtain ⟨fault, taken⟩ := halt
    cases taken <;> simp [outcome, Cursor.position, hlen]

theorem Exchanged.outcome_readFrom {ws vs : List String} (h : Exchanged ws vs) :
    ∀ (s : State) {passed passed' : List String}, passed'.length = passed.length →
      outcome (readFrom s passed' vs) = outcome (readFrom s passed ws) := by
  induction h with
  | nil =>
    intro s passed passed' hlen
    simp [readFrom, outcome, Cursor.position, hlen]
  | keep w _ ih => exact fun s _ _ hlen => outcome_readFrom_cons rfl hlen ih
  | closing hw hv _ ih =>
    exact fun s _ _ hlen => outcome_readFrom_cons (s.step_closing hw hv) hlen ih
  | separator hw hv _ ih =>
    exact fun s _ _ hlen => outcome_readFrom_cons (s.step_separators hw hv) hlen ih

/-! ## Respelled programs -/

/-- `t` has read what `s` has read, without separators that have ended an expression. -/
def Trails (t s : State) : Prop := s = t ∨ s = t.settle ∧ s.phase = .statement

theorem Trails.step {t s s' : State} {w : String} (h : Trails t s) (hw : s.step w = .ok s') :
    ∃ t', t.step w = .ok t' ∧ Trails t' s' := by
  rcases h with rfl | ⟨rfl, hp⟩
  · exact ⟨s', hw, .inl rfl⟩
  · have hop := State.not_isOperator_of_inBlock ((State.step_of_statement hp w).symm.trans hw)
    exact ⟨s', (State.step_settle hop t).symm.trans hw, .inl rfl⟩

theorem Trails.leaveOut {t s s' : State} {w : String} (h : Trails t s) (hw : IsSeparator w)
    (hs : s.step w = .ok s') : Trails t s' := by
  obtain ⟨rfl, hp⟩ := State.step_separator hw hs
  rcases h with rfl | ⟨rfl, -⟩
  · exact .inr ⟨rfl, hp⟩
  · exact .inr ⟨t.settle_settle, hp⟩

theorem Trails.finish_eq {t s : State} (h : Trails t s) : t.finish = s.finish := by
  rcases h with rfl | ⟨rfl, -⟩
  · rfl
  · exact t.finish_settle.symm

theorem Respelled.feed {ws vs : List String} (h : Respelled ws vs) :
    ∀ {t s s' : State}, Trails t s → s.feed ws = .ok s' →
      ∃ t', t.feed vs = .ok t' ∧ Trails t' s' := by
  induction h with
  | nil =>
    intro t s s' hts hs
    cases hs
    exact ⟨t, rfl, hts⟩
  | keep w _ ih =>
    intro t s s' hts hs
    obtain ⟨s₁, hs₁, hrest⟩ := State.step_of_feed_cons hs
    obtain ⟨t₁, ht₁, hts₁⟩ := hts.step hs₁
    rw [State.feed_cons ht₁]
    exact ih hts₁ hrest
  | terminator hw hv _ ih =>
    intro t s s' hts hs
    obtain ⟨s₁, hs₁, hrest⟩ := State.step_of_feed_cons hs
    obtain ⟨t₁, ht₁, hts₁⟩ := hts.step (State.step_terminators hw hv hs₁)
    rw [State.feed_cons ht₁]
    exact ih hts₁ hrest
  | leaveOut hw _ ih =>
    intro t s s' hts hs
    obtain ⟨s₁, hs₁, hrest⟩ := State.step_of_feed_cons hs
    exact ih (hts.leaveOut hw hs₁) hrest

theorem Respelled.program_eq_ok {ws vs : List String} (h : Respelled ws vs) {p : Program}
    (hp : (Reader.ofWords ws).program.1 = .ok p) : (Reader.ofWords vs).program.1 = .ok p := by
  obtain ⟨s, hs, hfinish⟩ : ∃ s, (State.start 0).feed ws = .ok s ∧ s.finish = .ok p :=
    readFrom_eq_ok hp
  obtain ⟨t, ht, hts⟩ := h.feed (.inl rfl) hs
  have hread := readFrom_feed ht [] []
  rw [List.append_nil] at hread
  show (readFrom (.start 0) [] vs).1 = .ok p
  rw [hread]
  show t.finish = .ok p
  rw [hts.finish_eq, hfinish]

/-- Words in which closing words or separators are exchanged among themselves are read to the same
end, be it a program or a fault. Words that make up a program make up the same one with any
terminators in the places of theirs and with any of their separators left out. -/
theorem program_respelled {ws vs : List String} :
    (Exchanged ws vs →
      outcome (Reader.ofWords vs).program = outcome (Reader.ofWords ws).program) ∧
    (Respelled ws vs → ∀ p, (Reader.ofWords ws).program.1 = .ok p →
      (Reader.ofWords vs).program.1 = .ok p) :=
  ⟨fun h => h.outcome_readFrom (.start 0) rfl, fun h _ hp => h.program_eq_ok hp⟩

/-- The last word closes nothing. -/
def oneTooMany : List String := ["RUF?", "x", "VUH", "y", "ROWH", "BORF", "BOW", "ARRUF"]

/-- Without the separator the condition stands right in front of the target of an assignment. -/
def closeCondition : List String :=
  ["RUF?", "x", "VUH", "y", "BOW", "AWOO", "x", "ROWH", "BORF", "VUH"]

theorem program_oneTooMany_closeCondition :
    outcome (Reader.ofWords ["RUF?", "x", "BOW", "y", "ROWH", "ARRUF", "BOW", "BORF"]).program =
      outcome (Reader.ofWords oneTooMany).program ∧
    (Reader.ofWords oneTooMany).program.1 = .error ⟨.unbalanced .close, ["parsing program"]⟩ ∧
    (Reader.ofWords closeCondition).program.1 =
      .ok [.branch 0 (.atom (.name "x")) [.assign "y" (.atom (.name "x"))] []] ∧
    (Reader.ofWords ["RUF?", "x", "y", "AWOO", "x", "ARRUF", "ROWH", "VUH"]).program.1 =
      .ok [.branch 0 (.atom (.name "x")) [.assign "y" (.atom (.name "x"))] []] := by
  have hclose : (Reader.ofWords closeCondition).program.1 =
      .ok [.branch 0 (.atom (.name "x")) [.assign "y" (.atom (.name "x"))] []] := rfl
  refine ⟨program_respelled.1 ?_, rfl, hclose, program_respelled.2 ?_ _ hclose⟩
  · exact .keep _ (.keep _ (.separator (.inl rfl) (.inr rfl) (.keep _ (.keep _
      (.closing (.inr rfl) (.inl rfl) (.keep _ (.closing (.inl rfl) (.inr rfl) .nil)))))))
  · exact .keep _ (.keep _ (.leaveOut (.inl rfl) (.keep _ (.leaveOut (.inr rfl) (.keep _ (.keep _
      (.terminator (.inl rfl) (.inr (.inl rfl)) (.terminator (.inr (.inr rfl)) (.inl rfl)
      (.keep _ .nil)))))))))

end Kennel.Reading
