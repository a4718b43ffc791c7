import Kennel.Proofs.Reading.Descent
import Kennel.Proofs.Reading.Expression

/-!
# Descent and single words

Reading by descent comes to the same end as taking one word after the other. `Follows total` says of
a descent that it has not lost track of what the words come to in the end, `total`: either it
returns a value, with which the rest of the words still come to `total`, or it fails with the very
fault of `total`. Each function is shown to follow, from what the functions that it calls do.
-/

namespace Kennel.Reading

/-- What taking the words ahead one by one comes to, inside these constructs and behind these
statements. -/
def Course.read (m : Course) (levels : List Level) (block : List Stmt) (phase : Phase) :
    Except Fault Program × Reader :=
  readFrom ⟨levels, block, phase, m.reader.nextId⟩ m.reader.cursor.passed m.reader.cursor.ahead

/-- What is being read in a block inside these constructs. -/
def blockContexts (levels : List Level) : List String :=
  levels.map (·.construct.context) ++ ["parsing program"]

/-- The descent from `m` returns a value with the property `Q`, or the fault in `total`, to which
the contexts outside are still to be added. -/
inductive Follows {α : Type} (total : Except Fault Program × Reader) (outer : List String)
    (m : Course) (Q : α → Course → Prop) : Except Stop α × Course → Prop
  | value {a : α} {m' : Course} : m.Extends m' → Q a m' → Follows total outer m Q (.ok a, m')
  | fault {f : Fault} {m' : Course} : m.Extends m' →
      total = (.error ⟨f.cause, f.contexts ++ outer⟩, m'.reader) →
      Follows total outer m Q (.error (.fault f), m')

namespace Follows

variable {α β : Type} {total : Except Fault Program × Reader} {outer : List String}
  {m : Course} {Q : α → Course → Prop} {Q' : β → Course → Prop}

theorem of_extends {m' : Course} {r : Except Stop α × Course} (hext : m.Extends m')
    (h : Follows total outer m' Q r) : Follows total outer m Q r := by
  cases h with
  | value h hq => exact .value (hext.trans h) hq
  | fault h htotal => exact .fault (hext.trans h) htotal

theorem bind {x : Descent α} {f : α → Descent β} (hx : Follows total outer m Q (x m))
    (hf : ∀ a m', m.Extends m' → Q a m' → Follows total outer m' Q' (f a m')) :
    Follows total outer m Q' ((x >>= f) m) := by
  rw [Descent.bind_apply]
  generalize x m = r at hx
  cases hx with
  | value hext hq => exact of_extends hext (hf _ _ hext hq)
  | fault hext htotal => exact .fault hext htotal

theorem within {context : String} {x : Descent α}
    (hx : Follows total (context :: outer) m Q (x m)) :
    Follows total outer m Q (Descent.within context x m) := by
  unfold Descent.within
  generalize x m = r at hx
  cases hx with
  | value hext hq => exact .value hext hq
  | fault hext htotal =>
    refine .fault hext ?_
    rw [htotal]
    simp [Fault.within]

theorem mono {R : α → Course → Prop} {r : Except Stop α × Course}
    (h : Follows total outer m Q r) (hQ : ∀ a m', Q a m' → R a m') :
    Follows total outer m R r := by
  cases h with
  | value hext hq => exact .value hext (hQ _ _ hq)
  | fault hext htotal => exact .fault hext htotal

theorem fail {cause : Cause} (h : total = (.error ⟨cause, outer⟩, m.reader)) :
    Follows total outer m Q (Descent.fail cause m) :=
  .fault (.refl m) h

end Follows

/-! ## Words taken and given back -/

section

variable {passed ws : List String} {w : String} {id calls : Nat} {moves : List Move}

theorem extends_next (call : Nat) :
    Course.Extends ⟨⟨⟨passed, w :: ws⟩, id⟩, calls, moves⟩
      ⟨⟨⟨w :: passed, ws⟩, id⟩, calls, .next call passed.length :: moves⟩ :=
  ⟨Nat.le_succ _, [.next call passed.length], rfl, .next _ _ .nil⟩

theorem extends_back (call : Nat) :
    Course.Extends ⟨⟨⟨passed, w :: ws⟩, id⟩, calls, moves⟩
      ⟨⟨⟨passed, w :: ws⟩, id⟩, calls,
        .back call (passed.length + 1) :: .next call passed.length :: moves⟩ :=
  ⟨Nat.le_refl _, [.back call (passed.length + 1), .next call passed.length], rfl, .back _ _ .nil⟩

theorem extends_enter (m : Course) : m.Extends { m with calls := m.calls + 1 } :=
  ⟨Nat.le_refl _, [], rfl, .nil⟩

variable {levels levels' : List Level} {block block' : List Stmt} {phase phase' : Phase}

theorem read_cons_ok {id' calls' : Nat} {moves' : List Move}
    (h : State.step ⟨levels, block, phase, id⟩ w = .ok ⟨levels', block', phase', id'⟩) :
    Course.read ⟨⟨⟨passed, w :: ws⟩, id⟩, calls, moves⟩ levels block phase =
      Course.read ⟨⟨⟨w :: passed, ws⟩, id'⟩, calls', moves'⟩ levels' block' phase' := by
  simp only [Course.read, readFrom, h]

theorem read_cons_reject {cause : Cause}
    (h : State.step ⟨levels, block, phase, id⟩ w =
      State.reject ⟨levels, block, phase, id⟩ cause) :
    Course.read ⟨⟨⟨passed, w :: ws⟩, id⟩, calls, moves⟩ levels block phase =
      (.error ⟨cause, phase.contexts ++ blockContexts levels⟩, ⟨⟨w :: passed, ws⟩, id⟩) := by
  simp only [Course.read, readFrom, h, State.reject, State.fault, State.contexts, blockContexts,
    List.append_assoc]

end

/-! ## Expressions -/

section

variable {total : Except Fault Program × Reader} {levels : List Level} {block : List Stmt}
  {p : Purpose}

/-- `e` has been read to its end, behind the operands `front`. -/
def Complete (total : Except Fault Program × Reader) (levels : List Level) (block : List Stmt)
    (p : Purpose) (front : List (Atom × Op)) (e : Expr) (m : Course) : Prop :=
  ∃ chain last, e = .ofChain chain last ∧
    (∀ w ∈ m.reader.cursor.ahead.head?, ¬ IsOperator w) ∧
    total = m.read levels block (.operator p (chain.reverse ++ front) last)

/-- No expression begins with the next word. -/
def Absent (total : Except Fault Program × Reader) (levels : List Level) (block : List Stmt)
    (p : Purpose) (front : List (Atom × Op)) (m : Course) : Prop :=
  (∀ w ∈ m.reader.cursor.ahead.head?, ∃ k, classify w = .keyword k ∧ ¬ IsOperator w) ∧
    total = m.read levels block (.operand p front)

def Tried (total : Except Fault Program × Reader) (levels : List Level) (block : List Stmt)
    (p : Purpose) (front : List (Atom × Op)) : Option Expr → Course → Prop
  | some e, m => Complete total levels block p front e m
  | none, m => Absent total levels block p front m

theorem Absent.total_eq {front : List (Atom × Op)} {m : Course}
    (h : Absent total levels block p front m) :
    total =
      (.error ⟨if m.reader.cursor.hasNext then
          .missingOperand (if front.isEmpty then p.wanted else "a right operand")
        else .exhausted, p.context :: blockContexts levels⟩, m.reader) := by
  obtain ⟨⟨⟨passed, ahead⟩, id⟩, calls, moves⟩ := m
  obtain ⟨hhead, rfl⟩ := h
  cases ahead with
  | nil => rfl
  | cons w ws =>
    obtain ⟨k, hk, hw⟩ := hhead w rfl
    have hstep : State.step ⟨levels, block, .operand p front, id⟩ w =
        State.refuse ⟨levels, block, .operand p front, id⟩
          (.missingOperand (if front.isEmpty then p.wanted else "a right operand")) := by
      simp only [State.step, State.inOperand, hk]
      split
      · next h => cases h
      · next h => cases h
      · next o h => exact absurd ⟨o, hk.trans h⟩ hw
      · rfl
    simp only [Course.read, readFrom, hstep, State.refuse]
    rfl

theorem required_follows {front : List (Atom × Op)} {x : Descent (Option Expr)} {m : Course}
    (hx : Follows total (p.context :: blockContexts levels) m (Tried total levels block p front)
      (x m)) :
    Follows total (p.context :: blockContexts levels) m (Complete total levels block p front)
      (Descent.required x (if front.isEmpty then p.wanted else "a right operand") m) := by
  refine hx.bind fun e m' _ hq => ?_
  cases e with
  | some e => exact .value (.refl _) hq
  | none =>
    have htotal := Absent.total_eq hq
    cases hnext : m'.reader.cursor.hasNext <;>
    · rw [hnext] at htotal
      simp only [Descent.bind_apply, Descent.hasNext, hnext]
      exact .fail htotal

theorem expressionFrom_nil (n call : Nat) (sofar : Option Expr) (passed : List String)
    (id calls : Nat) (moves : List Move) :
    Descent.expressionFrom (n + 1) call sofar ⟨⟨⟨passed, []⟩, id⟩, calls, moves⟩ =
      (.ok sofar, ⟨⟨⟨passed, []⟩, id⟩, calls, moves⟩) := rfl

theorem expressionFrom_cons (n call : Nat) (sofar : Option Expr) (passed : List String)
    (w : String) (ws : List String) (id calls : Nat) (moves : List Move) :
    Descent.expressionFrom (n + 1) call sofar ⟨⟨⟨passed, w :: ws⟩, id⟩, calls, moves⟩ =
      Descent.expressionTurn (Descent.expressionFrom n) call w sofar
        ⟨⟨⟨w :: passed, ws⟩, id⟩, calls, .next call passed.length :: moves⟩ := rfl

/-- The word that ends an expression is given back. -/
theorem expressionTurn_end {w : String} {sofar : Option Expr} (hw : ¬ IsOperator w)
    (h : sofar.isSome ∨ ∃ k, classify w = .keyword k)
    (go : Nat → Option Expr → Descent (Option Expr)) (call : Nat) :
    Descent.expressionTurn go call w sofar = (Descent.back call >>= fun _ => pure sofar) := by
  cases sofar with
  | some e =>
    simp only [Descent.expressionTurn]
    split
    · next o ho => exact absurd ⟨o, ho⟩ hw
    · rfl
  | none =>
    obtain ⟨k, hk⟩ := h.resolve_left Bool.false_ne_true
    simp only [Descent.expressionTurn, hk]
    split
    · next h => cases h
    · next h => cases h
    · next o h => exact absurd ⟨o, hk.trans h⟩ hw
    · rfl

/-- What has been read is the expression where no operator comes next. -/
theorem expressionFrom_some (call : Nat) (e : Expr) {m : Course}
    (h : ∀ w ∈ m.reader.cursor.ahead.head?, ¬ IsOperator w) :
    ∃ m', (∀ n, Descent.expressionFrom (n + 1) call (some e) m = (.ok (some e), m')) ∧
      m.Extends m' ∧ m'.reader = m.reader := by
  obtain ⟨⟨⟨passed, ahead⟩, id⟩, calls, moves⟩ := m
  cases ahead with
  | nil => exact ⟨_, fun n => rfl, .refl _, rfl⟩
  | cons w ws =>
    refine ⟨_, fun n => ?_, extends_back call, rfl⟩
    rw [expressionFrom_cons, expressionTurn_end (h w rfl) (.inl rfl)]
    rfl

variable (total levels block p) in
/-- With this much fuel, reading follows where an operand is due. -/
def OperandFollows (n : Nat) : Prop :=
  ∀ (call : Nat) (m : Course) (front : List (Atom × Op)),
    m.reader.cursor.ahead.length < n → total = m.read levels block (.operand p front) →
    Follows total (p.context :: blockContexts levels) m (Tried total levels block p front)
      (Descent.expressionFrom n call none m)

variable (total levels block p) in
/-- With this much fuel, reading follows behind an operand. -/
def OperatorFollows (n : Nat) : Prop :=
  ∀ (call : Nat) (m : Course) (front : List (Atom × Op)) (a : Atom),
    m.reader.cursor.ahead.length < n → total = m.read levels block (.operator p front a) →
    Follows total (p.context :: blockContexts levels) m (Tried total levels block p front)
      (Descent.expressionFrom n call (some (.atom a)) m)

theorem OperandFollows.expression {n : Nat} (ih : OperandFollows total levels block p n)
    {m : Course} {front : List (Atom × Op)} (hlen : m.reader.cursor.ahead.length < n)
    (htotal : total = m.read levels block (.operand p front)) :
    Follows total (p.context :: blockContexts levels) m (Tried total levels block p front)
      (Descent.expression n m) :=
  .of_extends (extends_enter m) (ih _ _ front hlen htotal)

theorem operatorFollows_succ {n : Nat} (ih : OperandFollows total levels block p n) :
    OperatorFollows total levels block p (n + 1) := by
  intro call m front a hlen htotal
  by_cases hop : ∀ w ∈ m.reader.cursor.ahead.head?, ¬ IsOperator w
  · obtain ⟨m', hm', hext, hreader⟩ := expressionFrom_some call (.atom a) hop
    rw [hm']
    refine .value hext ⟨[], a, rfl, ?_, ?_⟩
    · rw [hreader]
      exact hop
    · rw [htotal, Course.read, Course.read, hreader]
      rfl
  · obtain ⟨⟨⟨passed, ahead⟩, id⟩, calls, moves⟩ := m
    cases ahead with
    | nil => exact absurd (fun w hw => by cases hw) hop
    | cons w ws =>
      obtain ⟨o, ho⟩ : IsOperator w := by simpa using hop
      rw [expressionFrom_cons]
      simp only [Descent.expressionTurn, ho]
      refine .of_extends (extends_next call) ?_
      have hws : ws.length < n := Nat.lt_of_succ_lt_succ hlen
      have hrhs : Follows total (p.context :: blockContexts levels) _
          (Complete total levels block p ((a, o) :: front))
          (Descent.required (Descent.expression n) "a right operand"
            ⟨⟨⟨w :: passed, ws⟩, id⟩, calls, .next call passed.length :: moves⟩) :=
        required_follows (ih.expression hws
          (htotal.trans (read_cons_ok (State.step_operator rfl (symbol?_operator.mpr ho)))))
      refine hrhs.bind fun rhs m' _ hcomplete => ?_
      -- The operand on the right has taken all operators, so that the loop ends in its next turn.
      obtain ⟨chain, last, rfl, hhead, htotal'⟩ := hcomplete
      obtain ⟨k, rfl⟩ : ∃ k, n = k + 1 := ⟨n - 1, by omega⟩
      obtain ⟨m'', hm'', hext, hreader⟩ :=
        expressionFrom_some call (.ofChain ((a, o) :: chain) last) hhead
      refine hm'' k ▸ .value hext ⟨(a, o) :: chain, last, rfl, ?_, ?_⟩
      · rw [hreader]
        exact hhead
      · rw [htotal', Course.read, Course.read, hreader, List.reverse_cons, List.append_assoc]
        rfl

theorem operandFollows_succ {n : Nat} (ih : OperatorFollows total levels block p n) :
    OperandFollows total levels block p (n + 1) := by
  intro call m front hlen htotal
  obtain ⟨⟨⟨passed, ahead⟩, id⟩, calls, moves⟩ := m
  cases ahead with
  | nil =>
    rw [expressionFrom_nil]
    exact .value (.refl _) ⟨fun w hw => (by cases hw), htotal⟩
  | cons w ws =>
    have hws : ws.length < n := Nat.lt_of_succ_lt_succ hlen
    have hoperand {a : Atom} (ha : symbol? w = some (.operand a)) :=
      Follows.of_extends (extends_next call) (ih call
        ⟨⟨⟨w :: passed, ws⟩, id⟩, calls, .next call passed.length :: moves⟩ front a hws
        (htotal.trans (read_cons_ok (State.step_operand rfl ha))))
    rw [expressionFrom_cons]
    cases hw : classify w with
    | plain =>
      simp only [Descent.expressionTurn, hw]
      exact hoperand (by simp only [symbol?, hw])
    | integer =>
      simp only [Descent.expressionTurn, hw]
      by_cases hmax : Text.digitsValue w.toList ≤ maxLiteral
      · rw [if_pos hmax]
        exact hoperand (by simp only [symbol?, hw, if_pos hmax])
      · rw [if_neg hmax]
        refine .of_extends (extends_next call) (.fail (htotal.trans (read_cons_reject ?_)))
        simp only [State.step, State.inOperand, hw, if_neg hmax]
    | keyword k =>
      by_cases hop : IsOperator w
      · obtain ⟨o, ho⟩ := hop
        simp only [Descent.expressionTurn, ho]
        refine .of_extends (extends_next call) (.fail (htotal.trans (read_cons_reject ?_)))
        simp only [State.step, State.inOperand, ho]
      · rw [expressionTurn_end hop (.inr ⟨k, hw⟩)]
        refine .value (extends_back call) ⟨?_, htotal⟩
        intro v hv
        cases hv
        exact ⟨k, hw, hop⟩

theorem operandFollows (n : Nat) :
    OperandFollows total levels block p n ∧ OperatorFollows total levels block p n := by
  induction n with
  | zero => exact ⟨fun _ _ _ h => absurd h (Nat.not_lt_zero _),
      fun _ _ _ _ h => absurd h (Nat.not_lt_zero _)⟩
  | succ n ih => exact ⟨operandFollows_succ ih.2, operatorFollows_succ ih.1⟩

/-- An expression that is read for a purpose goes to it. -/
theorem purpose_follows {n : Nat} {m : Course} (hlen : m.reader.cursor.ahead.length < n)
    (htotal : total = m.read levels block (.operand p [])) :
    Follows total (blockContexts levels) m
      (fun e m' => total = readFrom (State.close ⟨levels, block, .statement, m'.reader.nextId⟩ e p)
        m'.reader.cursor.passed m'.reader.cursor.ahead)
      (Descent.within p.context (Descent.required (Descent.expression n) p.wanted) m) := by
  have hread := required_follows ((operandFollows n).1.expression hlen htotal)
  refine hread.within.mono ?_
  rintro e m' ⟨chain, last, rfl, hhead, rfl⟩
  rw [Course.read, ← readFrom_settle _ _ hhead, State.settle_of_operator rfl, List.append_nil,
    List.reverse_reverse]
  cases p <;> rfl

end

/-! ## Blocks -/

/-- What the words ahead come to behind a word. -/
def Course.resume (m : Course) : Except Halt State → Except Fault Program × Reader
  | .ok s => readFrom s m.reader.cursor.passed m.reader.cursor.ahead
  | .error halt => (.error halt.fault, m.reader)

/-- The statements of a block have been read, and the words have ended or its terminator has been
taken. -/
def BlockRead (total : Except Fault Program × Reader) (levels : List Level) :
    List Stmt × Descent.Ending → Course → Prop
  | (block, .words), m =>
    levels = [] ∧ m.reader.cursor.ahead = [] ∧ total = m.read levels block .statement
  | (block, .terminator k), m =>
    total = m.resume (State.terminate ⟨levels, block, .statement, m.reader.nextId⟩ k)

/-- With this much fuel, reading a block follows. -/
def BlockFollows (n : Nat) : Prop :=
  ∀ (total : Except Fault Program × Reader) (levels : List Level) (block : List Stmt) (call : Nat)
    (m : Course), m.reader.cursor.ahead.length < n → total = m.read levels block .statement →
    Follows total (blockContexts levels) m (BlockRead total levels)
      (Descent.blockFrom n call (!levels.isEmpty) block m)

section

variable {total : Except Fault Program × Reader} {levels : List Level} {block : List Stmt}
  {n : Nat} {m : Course}

/-- A block inside a construct ends with its terminator. -/
theorem BlockFollows.inner (ih : BlockFollows n) (before : List Stmt) (construct : Construct)
    (hlen : m.reader.cursor.ahead.length < n)
    (htotal : total = m.read (⟨before, construct⟩ :: levels) [] .statement) :
    Follows total (blockContexts levels) m
      (fun b m' => ∃ k, total = m'.resume
        (State.terminate ⟨⟨before, construct⟩ :: levels, b.1, .statement, m'.reader.nextId⟩ k))
      (Descent.within construct.context (Descent.enter >>= (Descent.blockFrom n · true [])) m) := by
  refine .within (.of_extends (extends_enter m) ?_)
  refine (ih total (⟨before, construct⟩ :: levels) [] m.calls { m with calls := m.calls + 1 } hlen
    htotal).mono ?_
  rintro ⟨block, ending⟩ m' hread
  cases ending with
  | words => cases hread.1
  | terminator k => exact ⟨k, hread⟩

theorem extends_freshId (m : Course) : m.Extends { m with reader := m.reader.freshId.2 } :=
  ⟨Nat.le_refl _, [], rfl, .nil⟩

theorem branch_follows (ih : BlockFollows n) (hlen : m.reader.cursor.ahead.length < n)
    (htotal : total = Course.read { m with reader := m.reader.freshId.2 } levels block
      (.operand (.branchTest m.reader.nextId) [])) :
    Follows total (blockContexts levels) m
      (fun s m' => total = m'.read levels (s :: block) .statement)
      (Descent.branch (Descent.expression n) (Descent.enter >>= (Descent.blockFrom n · true []))
        m) := by
  refine .of_extends (extends_freshId m) ?_
  refine (purpose_follows (m := { m with reader := m.reader.freshId.2 }) hlen htotal).bind
    fun c m₁ h₁ htotal₁ => ?_
  have hlen₁ := Nat.lt_of_le_of_lt h₁.ahead hlen
  refine (ih.inner block (.thenBlock m.reader.nextId c) hlen₁ htotal₁).bind
    fun yes m₂ h₂ htotal₂ => ?_
  obtain ⟨k, htotal₂⟩ := htotal₂
  refine (ih.inner block (.elseBlock m.reader.nextId c yes.1.reverse)
    (Nat.lt_of_le_of_lt h₂.ahead hlen₁) htotal₂).bind fun no m₃ _ htotal₃ => ?_
  obtain ⟨k', htotal₃⟩ := htotal₃
  exact .value (.refl _) htotal₃

theorem loop_follows (ih : BlockFollows n) (hlen : m.reader.cursor.ahead.length < n)
    (htotal : total = Course.read { m with reader := m.reader.freshId.2 } levels block
      (.operand (.loopTest m.reader.nextId) [])) :
    Follows total (blockContexts levels) m
      (fun s m' => total = m'.read levels (s :: block) .statement)
      (Descent.loop (Descent.expression n) (Descent.enter >>= (Descent.blockFrom n · true []))
        m) := by
  refine .of_extends (extends_freshId m) ?_
  refine (purpose_follows (m := { m with reader := m.reader.freshId.2 }) hlen htotal).bind
    fun c m₁ h₁ htotal₁ => ?_
  refine (ih.inner block (.loopBlock m.reader.nextId c) (Nat.lt_of_le_of_lt h₁.ahead hlen)
    htotal₁).bind fun body m₂ _ htotal₂ => ?_
  obtain ⟨k, htotal₂⟩ := htotal₂
  exact .value (.refl _) htotal₂

/-- The assignment follows behind its sign, and the statement before it is given to it. -/
theorem assignment_follows {passed ws : List String} {w : String} {id calls calls' : Nat}
    {moves moves' : List Move} (hw : classify w = .keyword .assign) (hlen : ws.length < n)
    (htotal : total = Course.read ⟨⟨⟨passed, w :: ws⟩, id⟩, calls, moves⟩ levels block .statement) :
    Follows total (blockContexts levels) ⟨⟨⟨w :: passed, ws⟩, id⟩, calls', moves'⟩
      (fun s m' => total = m'.read levels (s :: block.tail) .statement)
      (Descent.assignment (Descent.expression n) block.head?
        ⟨⟨⟨w :: passed, ws⟩, id⟩, calls', moves'⟩) := by
  have hstep : State.step ⟨levels, block, .statement, id⟩ w =
      State.assign ⟨levels, block, .statement, id⟩ := by
    simp only [State.step, State.inBlock, hw]
  cases block with
  | nil => exact .fail (htotal.trans (read_cons_reject hstep))
  | cons s rest =>
    cases s with
    | bare x =>
      refine (purpose_follows hlen (htotal.trans (read_cons_ok hstep))).bind
        fun e m' _ htotal' => ?_
      exact .value (.refl _) htotal'
    | assign | branch | loop => exact .fail (htotal.trans (read_cons_reject hstep))

theorem blockFrom_cons (n call : Nat) (nested : Bool) (block : List Stmt) (passed : List String)
    (w : String) (ws : List String) (id calls : Nat) (moves : List Move) :
    Descent.blockFrom (n + 1) call nested block ⟨⟨⟨passed, w :: ws⟩, id⟩, calls, moves⟩ =
      Descent.blockTurn (Descent.expression n) (Descent.enter >>= (Descent.blockFrom n · true []))
        (Descent.blockFrom n call nested) w block
        ⟨⟨⟨w :: passed, ws⟩, id⟩, calls, .next call passed.length :: moves⟩ := by
  cases nested <;> rfl

theorem read_cons_terminator {passed ws : List String} {w : String} {id calls calls' : Nat}
    {moves moves' : List Move} {k : Keyword}
    (h : State.step ⟨levels, block, .statement, id⟩ w =
      State.terminate ⟨levels, block, .statement, id⟩ k) :
    Course.read ⟨⟨⟨passed, w :: ws⟩, id⟩, calls, moves⟩ levels block .statement =
      Course.resume ⟨⟨⟨w :: passed, ws⟩, id⟩, calls', moves'⟩
        (State.terminate ⟨levels, block, .statement, id⟩ k) := by
  simp only [Course.read, readFrom, h]
  obtain _ | ⟨⟨before, _ | _ | _⟩, outer⟩ := levels <;> rfl

theorem blockFollows_succ (ih : BlockFollows n) : BlockFollows (n + 1) := by
  intro total levels block call m hlen htotal
  obtain ⟨⟨⟨passed, ahead⟩, id⟩, calls, moves⟩ := m
  cases ahead with
  | nil =>
    cases levels with
    | nil => exact .value (.refl _) ⟨rfl, rfl, htotal⟩
    | cons l levels => exact .fault (.refl _) htotal
  | cons w ws =>
    have hws : ws.length < n := Nat.lt_of_succ_lt_succ hlen
    have hstep : State.step ⟨levels, block, .statement, id⟩ w =
      State.inBlock ⟨levels, block, .statement, id⟩ w := rfl
    rw [blockFrom_cons]
    refine .of_extends (extends_next call) ?_
    unfold Descent.blockTurn
    unfold State.inBlock at hstep
    cases hw : classify w with
    | integer | plain =>
      simp only [hw] at hstep
      exact ih _ _ _ _ _ hws (htotal.trans (read_cons_ok hstep))
    | keyword k =>
      simp only [hw] at hstep
      cases k with
      | assign =>
        refine (assignment_follows hw hws htotal).bind fun s m' h htotal' => ?_
        exact ih _ _ _ _ _ (Nat.lt_of_le_of_lt h.ahead hws) htotal'
      | branch =>
        refine (branch_follows ih hws (htotal.trans (read_cons_ok hstep))).bind
          fun s m' h htotal' => ?_
        exact ih _ _ _ _ _ (Nat.lt_of_le_of_lt h.ahead hws) htotal'
      | loop =>
        refine (loop_follows ih hws (htotal.trans (read_cons_ok hstep))).bind
          fun s m' h htotal' => ?_
        exact ih _ _ _ _ _ (Nat.lt_of_le_of_lt h.ahead hws) htotal'
      | thenMark | doMark => exact ih _ _ _ _ _ hws (htotal.trans (read_cons_ok hstep))
      | otherwise | close =>
        exact .value (.refl _) (htotal.trans (read_cons_terminator hstep))
      | op o => exact .fail (htotal.trans (read_cons_reject hstep))

end

theorem blockFollows (n : Nat) : BlockFollows n := by
  induction n with
  | zero => exact fun _ _ _ _ _ h => absurd h (Nat.not_lt_zero _)
  | succ n ih => exact blockFollows_succ ih

theorem program_follows (r : Reader) {fuel : Nat} (hfuel : r.cursor.ahead.length < fuel) :
    Follows r.program [] ⟨r, 0, []⟩ (fun p m => r.program = (.ok p, m.reader))
      (r.descend fuel) := by
  refine .within (.of_extends (extends_enter _) ?_)
  refine (blockFollows fuel r.program [] [] 0 ⟨r, 1, []⟩ hfuel rfl).bind ?_
  rintro ⟨block, ending⟩ ⟨⟨⟨passed, ahead⟩, id⟩, calls, moves⟩ - hread
  cases ending with
  | words =>
    obtain ⟨-, rfl, htotal⟩ := hread
    exact .value (.refl _) htotal
  | terminator k => exact .fail hread

/-! ## Positions -/

/-- All words, passed and ahead. -/
def Cursor.words (c : Cursor) : List String := c.passed.reverse ++ c.ahead

/-- The words taken are passed in their order. -/
theorem readFrom_taken (s : State) (passed ws : List String) :
    ∃ taken left, ws = taken ++ left ∧
      (readFrom s passed ws).2.cursor = ⟨taken.reverse ++ passed, left⟩ ∧
      ∀ p, (readFrom s passed ws).1 = .ok p → left = [] := by
  induction ws generalizing s passed with
  | nil => exact ⟨[], [], rfl, rfl, fun _ _ => rfl⟩
  | cons w ws ih =>
    unfold readFrom
    cases hs : s.step w with
    | ok s' =>
      obtain ⟨taken, left, hws, hcursor, hleft⟩ := ih s' (w :: passed)
      refine ⟨w :: taken, left, by rw [hws, List.cons_append], ?_, hleft⟩
      rw [hcursor, List.reverse_cons, List.append_assoc]
      rfl
    | error halt =>
      obtain ⟨fault, taken⟩ := halt
      cases taken with
      | true => exact ⟨[w], ws, rfl, rfl, fun p h => by cases h⟩
      | false => exact ⟨[], w :: ws, rfl, rfl, fun p h => by cases h⟩

theorem words_program (r : Reader) : r.program.2.cursor.words = r.cursor.words := by
  obtain ⟨taken, left, hahead, hcursor, -⟩ :=
    readFrom_taken (.start r.nextId) r.cursor.passed r.cursor.ahead
  rw [Reader.program, hcursor]
  simp only [Cursor.words, hahead, List.reverse_append, List.reverse_reverse, List.append_assoc]

theorem position_program (r : Reader) :
    r.cursor.position ≤ r.program.2.cursor.position ∧
      r.program.2.cursor.position ≤ r.cursor.words.length ∧
      ∀ p, r.program.1 = .ok p → r.program.2.cursor.position = r.cursor.words.length := by
  obtain ⟨taken, left, hahead, hcursor, hleft⟩ :=
    readFrom_taken (.start r.nextId) r.cursor.passed r.cursor.ahead
  have hposition : r.program.2.cursor.position = taken.length + r.cursor.position := by
    rw [Reader.program, hcursor]
    simp [Cursor.position]
  have hlength : r.cursor.words.length = r.cursor.position + taken.length + left.length := by
    simp [Cursor.words, Cursor.position, hahead, Nat.add_assoc]
  refine ⟨by omega, by omega, fun p hp => ?_⟩
  have hnil := congrArg List.length (hleft p hp)
  simp only [List.length_nil] at hnil
  omega

theorem exists_descend (r : Reader) :
    ∃ m : Course, r.descend (r.cursor.ahead.length + 1) =
        (r.program.1.mapError .fault, ⟨r.program.2, m.calls, m.moves⟩) ∧
      Course.Extends ⟨r, 0, []⟩ m := by
  have hfollows := program_follows r (Nat.lt_succ_self _)
  generalize r.descend (r.cursor.ahead.length + 1) = result at hfollows
  cases hfollows with
  | @value p m hext hprogram =>
    rw [hprogram]
    exact ⟨m, rfl, hext⟩
  | @fault f m hext hprogram =>
    rw [hprogram, List.append_nil]
    exact ⟨m, rfl, hext⟩

theorem mapError_fault_ne (result : Except Fault Program) :
    result.mapError Stop.fault ≠ .error .unfinished := by
  cases result with
  | ok p => exact fun h => by cases h
  | error f => exact fun h => by cases h

/-- From every position, and with every number next, reading by descent comes to the answer of
`Reader.program`, with one more unit of fuel than there are words ahead or any fuel beyond that. So
no move back is tried in front of the first word, and no unreachable case arises. Each move back
undoes the move just before it, which the same call has made. -/
theorem descend_eq_program (r : Reader) :
    ∃ calls moves,
      (∀ extra, r.descend (r.cursor.ahead.length + 1 + extra) =
        (r.program.1.mapError .fault, ⟨r.program.2, calls, moves⟩)) ∧
      (∀ later call position earlier, moves = later ++ .back call position :: earlier →
        ∃ start rest, earlier = .next call start :: rest ∧ position = start + 1) ∧
      r.program.2.cursor.words = r.cursor.words ∧
      r.cursor.position ≤ r.program.2.cursor.position ∧
      r.program.2.cursor.position ≤ r.cursor.words.length ∧
      ∀ p, r.program.1 = .ok p → r.program.2.cursor.position = r.cursor.words.length := by
  obtain ⟨m, hdescend, -, new, hmoves, hpaired⟩ := exists_descend r
  have hended : (r.descend (r.cursor.ahead.length + 1)).1 ≠ .error .unfinished := by
    rw [hdescend]
    exact mapError_fault_ne _
  rw [List.append_nil] at hmoves
  refine ⟨m.calls, m.moves, fun extra => ?_, ?_, words_program r, position_program r⟩
  · rw [Reader.descend_add hended, hdescend]
  · intro later call position earlier h
    exact hpaired.before_back (hmoves ▸ h)

end Kennel.Reading
