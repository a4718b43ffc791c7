import Kennel.Reading.Reader

/-!
# Reading by descent

A program can also be read by functions for expressions, statements and blocks that call each other.
They look ahead by taking a word and moving back over it. Nothing in them bounds the calls and the
turns of the loops, so they run on fuel, and they may end without an answer: where a move back is
not possible, where a case arises that should not, and where the fuel runs out (`Stop`). A descent
that ends in another way does the same with more fuel (`Reader.descend_add`).

A `Course` keeps the moves of the cursor, each with the call that made it and the position before
it. `Course.Extends` says of the moves made on the way from one course to another that each move
back is paired with the move just before it.
-/

namespace Kennel.Reading

/-- A move of the cursor by a word, made by a call from a position. -/
inductive Move
  | next (call position : Nat)
  | back (call position : Nat)
  deriving DecidableEq

/-- A reader on its way. -/
structure Course where
  reader : Reader
  /-- How many calls there have been. -/
  calls : Nat
  /-- The moves so far, last first. -/
  moves : List Move

/-- Why a descent ends without a value. -/
inductive Stop
  | fault (f : Fault)
  /-- A move back in front of the first word. -/
  | atStart
  /-- A case that has been dealt with before. -/
  | unreachable
  /-- The fuel has run out. -/
  | unfinished

def Descent (α : Type) : Type := Course → Except Stop α × Course

namespace Descent

variable {α β : Type}

def bind (x : Descent α) (f : α → Descent β) : Descent β := fun m =>
  match x m with
  | (.ok a, m) => f a m
  | (.error e, m) => (.error e, m)

instance : Monad Descent where
  pure a := fun m => (.ok a, m)
  bind := Descent.bind

theorem bind_apply (x : Descent α) (f : α → Descent β) (m : Course) :
    (x >>= f) m = match x m with
      | (.ok a, m) => f a m
      | (.error e, m) => (.error e, m) := rfl

def stop (why : Stop) : Descent α := fun m => (.error why, m)

def fail (cause : Cause) : Descent α := stop (.fault (.of cause))

/-- Add a context to the faults of a descent. -/
def within (context : String) (x : Descent α) : Descent α := fun m =>
  match x m with
  | (.error (.fault f), m) => (.error (.fault (f.within context)), m)
  | r => r

/-- The number of a new call. -/
def enter : Descent Nat := fun m => (.ok m.calls, { m with calls := m.calls + 1 })

def hasNext : Descent Bool := fun m => (.ok m.reader.cursor.hasNext, m)

def next (call : Nat) : Descent String := fun m =>
  match m.reader.cursor.next with
  | .ok (w, c) =>
    (.ok w, ⟨{ m.reader with cursor := c }, m.calls,
      .next call m.reader.cursor.position :: m.moves⟩)
  | .error f => (.error (.fault f), m)

def back (call : Nat) : Descent Unit := fun m =>
  match m.reader.cursor.back? with
  | some c =>
    (.ok (), ⟨{ m.reader with cursor := c }, m.calls,
      .back call m.reader.cursor.position :: m.moves⟩)
  | none => (.error .atStart, m)

def freshId : Descent Nat := fun m =>
  (.ok m.reader.freshId.1, { m with reader := m.reader.freshId.2 })

/-! ## Expressions -/

/-- An expression that has to be there. -/
def required (expression : Descent (Option Expr)) (wanted : String) : Descent Expr := do
  match ← expression with
  | some e => pure e
  | none => if ← hasNext then fail (.missingOperand wanted) else fail .exhausted

/-- One turn of the loop for an expression, at a word that has been taken. What has been read before
is given last, and `go` is the loop. -/
def expressionTurn (go : Nat → Option Expr → Descent (Option Expr)) (call : Nat) (w : String) :
    Option Expr → Descent (Option Expr)
  | none =>
    match classify w with
    | .plain => go call (some (.atom (.name w)))
    | .integer =>
      if Text.digitsValue w.toList ≤ maxLiteral then
        go call (some (.atom (.literal (Int64.ofNat (Text.digitsValue w.toList)))))
      else fail (.outOfRange w)
    | .keyword (.op _) => fail (.missingOperand "a left operand")
    | .keyword _ => do
      back call
      pure none
  | some lhs =>
    match classify w with
    | .keyword (.op o) => do
      let rhs ← required (enter >>= (go · none)) "a right operand"
      go call (some (Expr.regroup (.binary o lhs rhs)))
    | _ => do
      back call
      pure (some lhs)

def expressionFrom : Nat → Nat → Option Expr → Descent (Option Expr)
  | 0, _, _ => stop .unfinished
  | fuel + 1, call, sofar => do
    if ← hasNext then
      let w ← next call
      expressionTurn (expressionFrom fuel) call w sofar
    else pure sofar

/-- The expression ahead, if the next word can begin one. -/
def expression (fuel : Nat) : Descent (Option Expr) := enter >>= (expressionFrom fuel · none)

/-! ## Statements and blocks -/

/-- What ends a block. -/
inductive Ending
  | words
  | terminator (k : Keyword)

/-- The assignment to the statement before. -/
def assignment (expression : Descent (Option Expr)) : Option Stmt → Descent Stmt
  | some (.bare x) => do
    let e ← within "parsing assigned value" (required expression "a value to assign")
    pure (.assign x e)
  | other =>
    match other with
    | none => fail (.malformedAssignment "nothing")
    | some (.assign ..) => fail (.malformedAssignment "another assignment")
    | some (.branch ..) => fail (.malformedAssignment "an if statement")
    | some (.loop ..) => fail (.malformedAssignment "a while loop")
    | some (.bare _) => stop .unreachable

def branch (expression : Descent (Option Expr)) (block : Descent (List Stmt × Ending)) :
    Descent Stmt := do
  let id ← freshId
  let c ← within "parsing if statement's condition" (required expression "a condition")
  let yes ← within "parsing if statement's then branch" block
  let no ← within "parsing if statement's else branch" block
  pure (.branch id c yes.1.reverse no.1.reverse)

def loop (expression : Descent (Option Expr)) (block : Descent (List Stmt × Ending)) :
    Descent Stmt := do
  let id ← freshId
  let c ← within "parsing while loop's condition" (required expression "a condition")
  let body ← within "parsing while loop's body" block
  pure (.loop id c body.1.reverse)

/-- One turn of the loop for a block, at a word that has been taken. `go` is the loop, and
`inner` reads a block inside this one. -/
def blockTurn (expression : Descent (Option Expr)) (inner : Descent (List Stmt × Ending))
    (go : List Stmt → Descent (List Stmt × Ending)) (w : String) (block : List Stmt) :
    Descent (List Stmt × Ending) :=
  match classify w with
  | .keyword .otherwise => pure (block, .terminator .otherwise)
  | .keyword .close => pure (block, .terminator .close)
  | .keyword .thenMark | .keyword .doMark => go block
  | .keyword .assign => do
    let s ← assignment expression block.head?
    go (s :: block.tail)
  | .keyword .branch => do
    let s ← branch expression inner
    go (s :: block)
  | .keyword .loop => do
    let s ← loop expression inner
    go (s :: block)
  | .keyword (.op _) => fail (.unexpectedToken w)
  | .integer | .plain => go (.bare w :: block)

/-- Read statements, last first, until the block ends. Only the outermost block may end with the
words. -/
def blockFrom : Nat → Nat → Bool → List Stmt → Descent (List Stmt × Ending)
  | 0, _, _, _ => stop .unfinished
  | fuel + 1, call, nested, block => do
    if !nested && !(← hasNext) then pure (block, .words)
    else
      let w ← next call
      blockTurn (expression fuel) (enter >>= (blockFrom fuel · true []))
        (blockFrom fuel call nested) w block

def program (fuel : Nat) : Descent Program :=
  within "parsing program" do
    let call ← enter
    match ← blockFrom fuel call false [] with
    | (block, .words) => pure block.reverse
    | (_, .terminator k) => fail (.unbalanced k)

end Descent

/-- Read a program by descent from the words ahead. -/
def Reader.descend (fuel : Nat) (r : Reader) : Except Stop Program × Course :=
  Descent.program fuel ⟨r, 0, []⟩

/-! ## Fuel -/

namespace Descent

/-- Where the first descent does not run out of fuel, the second does the same. -/
def Approximates {α : Type} (x y : Descent α) : Prop :=
  ∀ m, (x m).1 = .error .unfinished ∨ x m = y m

namespace Approximates

variable {α β : Type} {x y z : Descent α} {f g : α → Descent β}

theorem eq_unfinished {r : Except Stop α × Course} (h : r.1 = .error .unfinished) :
    r = (.error .unfinished, r.2) :=
  Prod.ext h rfl

theorem refl (x : Descent α) : Approximates x x := fun _ => .inr rfl

theorem trans (h : Approximates x y) (h' : Approximates y z) : Approximates x z := by
  intro m
  rcases h m with hx | hx
  · exact .inl hx
  · rw [hx]
    exact h' m

theorem bind (hx : Approximates x y) (hf : ∀ a, Approximates (f a) (g a)) :
    Approximates (x >>= f) (y >>= g) := by
  intro m
  rw [bind_apply, bind_apply]
  rcases hx m with h | h
  · rw [eq_unfinished h]
    exact .inl rfl
  · rw [← h]
    obtain ⟨r, m'⟩ := x m
    cases r with
    | ok a => exact hf a m'
    | error e => exact .inr rfl

theorem within (context : String) (h : Approximates x y) :
    Approximates (Descent.within context x) (Descent.within context y) := by
  intro m
  unfold Descent.within
  rcases h m with h | h
  · rw [eq_unfinished h]
    exact .inl rfl
  · rw [h]
    exact .inr rfl

end Approximates

theorem required_approximates {x y : Descent (Option Expr)} (h : Approximates x y)
    (wanted : String) : Approximates (required x wanted) (required y wanted) :=
  h.bind fun _ => .refl _

theorem expressionFrom_approximates (n call : Nat) (sofar : Option Expr) :
    Approximates (expressionFrom n call sofar) (expressionFrom (n + 1) call sofar) := by
  induction n generalizing call sofar with
  | zero => exact fun _ => .inl rfl
  | succ n ih =>
    refine .bind (.refl _) fun more => ?_
    cases more with
    | false => exact .refl _
    | true =>
      refine .bind (.refl _) fun w => ?_
      cases sofar with
      | none =>
        simp only [expressionTurn]
        cases classify w with
        | plain => exact ih _ _
        | integer =>
          by_cases hmax : Text.digitsValue w.toList ≤ maxLiteral
          · simp only [if_pos hmax]
            exact ih _ _
          · simp only [if_neg hmax]
            exact .refl _
        | keyword k => cases k <;> exact .refl _
      | some lhs =>
        simp only [expressionTurn]
        split
        · exact .bind (required_approximates (.bind (.refl _) fun _ => ih _ _) _) fun _ => ih _ _
        · exact .refl _

theorem expression_approximates (n : Nat) : Approximates (expression n) (expression (n + 1)) :=
  .bind (.refl _) fun _ => expressionFrom_approximates n _ _

section

variable {e e' : Descent (Option Expr)} {inner inner' : Descent (List Stmt × Ending)}
  (he : Approximates e e') (hinner : Approximates inner inner')
include he

theorem assignment_approximates (before : Option Stmt) :
    Approximates (assignment e before) (assignment e' before) := by
  unfold assignment
  split
  · exact .bind ((required_approximates he _).within _) fun _ => .refl _
  · exact .refl _

include hinner

theorem branch_approximates : Approximates (branch e inner) (branch e' inner') := by
  refine .bind (.refl _) fun id => ?_
  refine .bind ((required_approximates he _).within _) fun c => ?_
  refine .bind (hinner.within _) fun yes => ?_
  exact .bind (hinner.within _) fun no => .refl _

theorem loop_approximates : Approximates (loop e inner) (loop e' inner') := by
  refine .bind (.refl _) fun id => ?_
  refine .bind ((required_approximates he _).within _) fun c => ?_
  exact .bind (hinner.within _) fun body => .refl _

theorem blockTurn_approximates {go go' : List Stmt → Descent (List Stmt × Ending)}
    (hgo : ∀ block, Approximates (go block) (go' block)) (w : String) (block : List Stmt) :
    Approximates (blockTurn e inner go w block) (blockTurn e' inner' go' w block) := by
  unfold blockTurn
  cases classify w with
  | integer | plain => exact hgo _
  | keyword k =>
    cases k with
    | assign => exact .bind (assignment_approximates he _) fun _ => hgo _
    | branch => exact .bind (branch_approximates he hinner) fun _ => hgo _
    | loop => exact .bind (loop_approximates he hinner) fun _ => hgo _
    | thenMark | doMark => exact hgo _
    | otherwise | close | op => exact .refl _

end

theorem blockFrom_approximates (n call : Nat) (nested : Bool) (block : List Stmt) :
    Approximates (blockFrom n call nested block) (blockFrom (n + 1) call nested block) := by
  induction n generalizing call nested block with
  | zero => exact fun _ => .inl rfl
  | succ n ih =>
    refine .bind (.refl _) fun more => ?_
    split
    · exact .refl _
    · refine .bind (.refl _) fun w => ?_
      exact blockTurn_approximates (expression_approximates n) (.bind (.refl _) fun _ => ih _ _ _)
        (fun _ => ih _ _ _) w block

theorem program_approximates (n extra : Nat) : Approximates (program n) (program (n + extra)) := by
  induction extra with
  | zero => exact .refl _
  | succ extra ih =>
    refine ih.trans (.within _ (.bind (.refl _) fun call => ?_))
    exact .bind (blockFrom_approximates _ call false []) fun _ => .refl _

end Descent

/-- A descent that has not run out of fuel does the same with more. -/
theorem Reader.descend_add {r : Reader} {fuel : Nat}
    (h : (r.descend fuel).1 ≠ .error .unfinished) (extra : Nat) :
    r.descend (fuel + extra) = r.descend fuel :=
  ((Descent.program_approximates fuel extra ⟨r, 0, []⟩).resolve_left h).symm

/-! ## Moves -/

/-- Each move back comes right after a move over a word by the same call, and undoes it. -/
inductive Paired : List Move → Prop
  | nil : Paired []
  | next (call position : Nat) {moves : List Move} :
      Paired moves → Paired (.next call position :: moves)
  | back (call position : Nat) {moves : List Move} :
      Paired moves → Paired (.back call (position + 1) :: .next call position :: moves)

theorem Paired.append {moves moves' : List Move} (h : Paired moves) (h' : Paired moves') :
    Paired (moves ++ moves') := by
  induction h with
  | nil => exact h'
  | next call position _ ih => exact .next call position ih
  | back call position _ ih => exact .back call position ih

theorem Paired.before_back {moves : List Move} (h : Paired moves) {later earlier : List Move}
    {call position : Nat} (hmoves : moves = later ++ .back call position :: earlier) :
    ∃ start rest, earlier = .next call start :: rest ∧ position = start + 1 := by
  induction h generalizing later with
  | nil => simp at hmoves
  | next call' start _ ih =>
    cases later with
    | nil => cases hmoves
    | cons move later => exact ih (List.cons.inj hmoves).2
  | back call' start _ ih =>
    cases later with
    | nil =>
      cases hmoves
      exact ⟨start, _, rfl, rfl⟩
    | cons move later =>
      cases later with
      | nil => cases (List.cons.inj hmoves).2
      | cons move' later => exact ih (List.cons.inj (List.cons.inj hmoves).2).2

namespace Course

/-- The moves from `m` to `m'` are paired, and have not led back. -/
structure Extends (m m' : Course) : Prop where
  ahead : m'.reader.cursor.ahead.length ≤ m.reader.cursor.ahead.length
  moves : ∃ new, m'.moves = new ++ m.moves ∧ Paired new

theorem Extends.refl (m : Course) : m.Extends m := ⟨Nat.le_refl _, [], rfl, .nil⟩

theorem Extends.trans {m m' m'' : Course} (h : m.Extends m') (h' : m'.Extends m'') :
    m.Extends m'' := by
  obtain ⟨hle, new, hnew, hpaired⟩ := h
  obtain ⟨hle', new', hnew', hpaired'⟩ := h'
  refine ⟨Nat.le_trans hle' hle, new' ++ new, ?_, hpaired'.append hpaired⟩
  rw [hnew', hnew, List.append_assoc]

end Course

end Kennel.Reading
