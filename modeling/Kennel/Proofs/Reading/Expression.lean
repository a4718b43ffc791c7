import Kennel.Proofs.Precedence
import Kennel.Reading.Reader

/-!
# Reading expressions

`State.feed` takes words one after another. Where an operand is due, the words of a chain are taken
to their end (`State.feed_chain`), and from then on the state does what it would do with the tree of
the chain already put to its purpose (`State.settle`): at the end of the words, and at any word that
is no operator (`readFrom_settle`).
-/

namespace Kennel.Reading

open Kennel.Expr (chainSymbols)

/-- What a word is inside an expression, if it can stand there. -/
def symbol? (w : String) : Option Symbol :=
  match classify w with
  | .plain => some (.operand (.name w))
  | .integer =>
    if Text.digitsValue w.toList ≤ maxLiteral then
      some (.operand (.literal (Int64.ofNat (Text.digitsValue w.toList))))
    else none
  | .keyword (.op o) => some (.operator o)
  | .keyword _ => none

/-- Each word of `ws` is the symbol of `xs` at its place. -/
def Spells (ws : List String) (xs : List Symbol) : Prop := ws.map symbol? = xs.map some

instance (ws : List String) (xs : List Symbol) : Decidable (Spells ws xs) :=
  inferInstanceAs (Decidable (_ = _))

/-- `w` is an operator. -/
def IsOperator (w : String) : Prop := ∃ o, classify w = .keyword (.op o)

theorem Spells.cons_iff {w : String} {ws : List String} {x : Symbol} {xs : List Symbol} :
    Spells (w :: ws) (x :: xs) ↔ symbol? w = some x ∧ Spells ws xs := by
  simp [Spells]

theorem Spells.append {ws vs : List String} {xs ys : List Symbol} (h : Spells ws xs)
    (h' : Spells vs ys) : Spells (ws ++ vs) (xs ++ ys) := by
  simp only [Spells, List.map_append] at *
  rw [h, h']

theorem Spells.singleton {w : String} {x : Symbol} (h : symbol? w = some x) : Spells [w] [x] :=
  cons_iff.mpr ⟨h, rfl⟩

theorem Spells.of_cons {ws : List String} {x : Symbol} {xs : List Symbol}
    (h : Spells ws (x :: xs)) :
    ∃ w vs, ws = w :: vs ∧ symbol? w = some x ∧ Spells vs xs := by
  cases ws with
  | nil => simp [Spells] at h
  | cons w vs => exact ⟨w, vs, rfl, cons_iff.mp h⟩

theorem symbol?_operator {w : String} {o : Op} :
    symbol? w = some (.operator o) ↔ classify w = .keyword (.op o) := by
  unfold symbol?
  split <;> simp_all

namespace State

/-- Take words one after another. -/
def feed (s : State) : List String → Except Halt State
  | [] => .ok s
  | w :: ws =>
    match s.step w with
    | .ok s' => s'.feed ws
    | .error h => .error h

@[simp] theorem feed_nil (s : State) : s.feed [] = .ok s := rfl

theorem feed_cons {s s' : State} {w : String} (h : s.step w = .ok s') (ws : List String) :
    s.feed (w :: ws) = s'.feed ws := by
  simp only [feed, h]

theorem feed_append {s s' : State} {ws : List String} (h : s.feed ws = .ok s')
    (vs : List String) : s.feed (ws ++ vs) = s'.feed vs := by
  induction ws generalizing s with
  | nil => cases h; rfl
  | cons w ws ih =>
    simp only [feed, List.cons_append] at h ⊢
    split at h
    · exact ih h
    · cases h

/-- Put the expression that may be complete to its purpose. -/
def settle (s : State) : State :=
  match s.phase with
  | .operator p front last => s.close (.ofChain front.reverse last) p
  | _ => s

theorem close_phase (s : State) (e : Expr) (p : Purpose) : (s.close e p).phase = .statement := by
  cases p <;> rfl

theorem close_nextId (s : State) (e : Expr) (p : Purpose) : (s.close e p).nextId = s.nextId := by
  cases p <;> rfl

theorem step_of_statement {s : State} (h : s.phase = .statement) (w : String) :
    s.step w = s.inBlock w := by
  simp only [step, h]

theorem settle_of_statement {s : State} (h : s.phase = .statement) : s.settle = s := by
  simp only [settle, h]

theorem settle_nextId (s : State) : s.settle.nextId = s.nextId := by
  unfold settle
  split
  · exact close_nextId ..
  · rfl

theorem settle_of_operator {s : State} {p : Purpose} {front : List (Atom × Op)} {last : Atom}
    (h : s.phase = .operator p front last) :
    s.settle = s.close (.ofChain front.reverse last) p := by
  simp only [settle, h]

theorem settle_settle (s : State) : s.settle.settle = s.settle := by
  cases h : s.phase with
  | operator p front last => rw [settle_of_operator h, settle_of_statement (close_phase ..)]
  | statement | operand => simp only [settle, h]

theorem finish_eq (s : State) : s.finish = s.settle.program := by
  cases h : s.phase <;> simp only [finish, settle, h]

theorem finish_settle (s : State) : s.settle.finish = s.finish := by
  rw [finish_eq, settle_settle, finish_eq]

theorem step_settle {w : String} (hw : ¬ IsOperator w) (s : State) :
    s.settle.step w = s.step w := by
  unfold settle
  split
  · next p front last hp =>
    rw [step_of_statement (close_phase ..)]
    simp only [step, hp]
    split
    · next o ho => exact absurd ⟨o, ho⟩ hw
    · rfl
  · rfl

/-! ## Words of a chain -/

theorem step_operand {s : State} {p : Purpose} {front : List (Atom × Op)} {w : String} {a : Atom}
    (hs : s.phase = .operand p front) (hw : symbol? w = some (.operand a)) :
    s.step w = .ok { s with phase := .operator p front a } := by
  simp only [step, hs, inOperand]
  unfold symbol? at hw
  split at hw <;> simp_all

theorem step_operator {s : State} {p : Purpose} {front : List (Atom × Op)} {last : Atom}
    {w : String} {o : Op} (hs : s.phase = .operator p front last)
    (hw : symbol? w = some (.operator o)) :
    s.step w = .ok { s with phase := .operand p ((last, o) :: front) } := by
  simp only [step, hs, symbol?_operator.mp hw]

theorem feed_chain {p : Purpose} (front : List (Atom × Op)) {last : Atom} {s : State}
    {before : List (Atom × Op)} {ws : List String} (hs : s.phase = .operand p before)
    (hw : Spells ws (chainSymbols front last)) :
    s.feed ws = .ok { s with phase := .operator p (front.reverse ++ before) last } := by
  induction front generalizing s before ws with
  | nil =>
    obtain ⟨w, vs, rfl, h1, h2⟩ := hw.of_cons
    obtain rfl : vs = [] := by simpa [Spells] using h2
    rw [feed_cons (step_operand hs h1)]; rfl
  | cons q front ih =>
    obtain ⟨a, o⟩ := q
    obtain ⟨w, vs, rfl, h1, h2⟩ := hw.of_cons
    obtain ⟨v, us, rfl, h3, h4⟩ := Spells.of_cons h2
    rw [feed_cons (step_operand hs h1), feed_cons (step_operator rfl h3), ih rfl h4]
    simp

end State

/-! ## Reading -/

theorem readFrom_feed {s s' : State} {ws : List String} (h : s.feed ws = .ok s')
    (passed rest : List String) :
    readFrom s passed (ws ++ rest) = readFrom s' (ws.reverse ++ passed) rest := by
  induction ws generalizing s passed with
  | nil => cases h; rfl
  | cons w ws ih =>
    simp only [State.feed] at h
    split at h
    · next t ht =>
      simp only [List.cons_append, readFrom, ht, ih h, List.reverse_cons, List.append_assoc]
      rfl
    · cases h

theorem readFrom_settle (s : State) (passed : List String) {rest : List String}
    (hr : ∀ w ∈ rest.head?, ¬ IsOperator w) :
    readFrom s.settle passed rest = readFrom s passed rest := by
  cases rest with
  | nil => simp only [readFrom, s.finish_settle, s.settle_nextId]
  | cons w ws =>
    simp only [readFrom, State.step_settle (hr w rfl) s, s.settle_nextId]

end Kennel.Reading
