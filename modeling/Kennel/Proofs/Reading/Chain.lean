import Kennel.Proofs.Reading.Agreement

/-!
# The tree of a chain

Operands with operators between them are read as one tree, the only well-shaped one with these
operands and operators in this order (`expression_chain`). By descent, the right operand of the
first operator is the rest of the chain, read in the same way, and the new tree is regrouped; word
by word, the chain is kept until it ends.
-/

namespace Kennel.Reading

open Kennel.Expr (chainSymbols)

theorem expressionTurn_operand {w : String} {a : Atom} (hw : symbol? w = some (.operand a))
    (go : Nat → Option Expr → Descent (Option Expr)) (call : Nat) :
    Descent.expressionTurn go call w none = go call (some (.atom a)) := by
  unfold symbol? at hw
  simp only [Descent.expressionTurn]
  cases hc : classify w with
  | plain =>
    simp only [hc] at hw
    cases hw
    rfl
  | integer =>
    simp only [hc] at hw ⊢
    split at hw
    · next hmax =>
      cases hw
      rw [if_pos hmax]
    · cases hw
  | keyword k =>
    simp only [hc] at hw
    cases k <;> cases hw

theorem expressionTurn_operator {w : String} {o : Op} (hw : symbol? w = some (.operator o))
    (go : Nat → Option Expr → Descent (Option Expr)) (call : Nat) (lhs : Expr) :
    Descent.expressionTurn go call w (some lhs) =
      (Descent.required (Descent.enter >>= (go · none)) "a right operand" >>= fun rhs =>
        go call (some (Expr.regroup (.binary o lhs rhs)))) := by
  simp only [Descent.expressionTurn, symbol?_operator.mp hw]

theorem required_of_some {x : Descent (Option Expr)} {m m' : Course} {e : Expr}
    (h : x m = (.ok (some e), m')) (wanted : String) :
    Descent.required x wanted m = (.ok e, m') := by
  rw [Descent.required, Descent.bind_apply, h]
  rfl

/-- A chain is taken to its end, and the word behind it is left. -/
theorem expressionFrom_chain {rest : List String} (hrest : ∀ w ∈ rest.head?, ¬ IsOperator w)
    (front : List (Atom × Op)) {last : Atom} {ws : List String}
    (hw : Spells ws (chainSymbols front last)) (call : Nat) (passed : List String)
    (id calls : Nat) (moves : List Move) :
    ∃ calls' moves', ∀ n, (ws ++ rest).length < n →
      Descent.expressionFrom n call none ⟨⟨⟨passed, ws ++ rest⟩, id⟩, calls, moves⟩ =
        (.ok (some (.ofChain front last)),
          ⟨⟨⟨ws.reverse ++ passed, rest⟩, id⟩, calls', moves'⟩) := by
  induction front generalizing ws call passed calls moves with
  | nil =>
    obtain ⟨w, vs, rfl, hlast, hvs⟩ := hw.of_cons
    obtain rfl : vs = [] := by simpa [Spells] using hvs
    obtain ⟨m, hend, -, hreader⟩ := expressionFrom_some call (.atom last)
      (m := ⟨⟨⟨w :: passed, rest⟩, id⟩, calls, .next call passed.length :: moves⟩) hrest
    refine ⟨m.calls, m.moves, fun n hn => ?_⟩
    obtain ⟨k, rfl⟩ : ∃ k, n = k + 2 := ⟨n - 2, by simp at hn; omega⟩
    rw [List.singleton_append, expressionFrom_cons, expressionTurn_operand hlast, hend k]
    obtain ⟨reader, calls', moves'⟩ := m
    cases hreader
    rfl
  | cons q front ih =>
    obtain ⟨a, o⟩ := q
    obtain ⟨w, vs, rfl, ha, hvs⟩ := hw.of_cons
    obtain ⟨v, us, rfl, ho, hus⟩ := Spells.of_cons hvs
    -- The call takes the first operand and the operator, and a new call the rest of the chain.
    obtain ⟨calls', moves', hrhs⟩ := ih hus calls (v :: w :: passed) (calls + 1)
      (.next call (passed.length + 1) :: .next call passed.length :: moves)
    obtain ⟨m, hend, -, hreader⟩ := expressionFrom_some call (.ofChain ((a, o) :: front) last)
      (m := ⟨⟨⟨us.reverse ++ v :: w :: passed, rest⟩, id⟩, calls', moves'⟩) hrest
    refine ⟨m.calls, m.moves, fun n hn => ?_⟩
    obtain ⟨k, rfl⟩ : ∃ k, n = k + 3 := ⟨n - 3, by simp at hn; omega⟩
    have hlen : (us ++ rest).length < k + 1 := by
      simp only [List.length_append, List.length_cons] at hn ⊢
      omega
    have hright : Descent.required (Descent.enter >>= (Descent.expressionFrom (k + 1) · none))
        "a right operand" ⟨⟨⟨v :: w :: passed, us ++ rest⟩, id⟩, calls,
          .next call (passed.length + 1) :: .next call passed.length :: moves⟩ =
        (.ok (.ofChain front last),
          ⟨⟨⟨us.reverse ++ v :: w :: passed, rest⟩, id⟩, calls', moves'⟩) :=
      required_of_some (hrhs (k + 1) hlen) _
    rw [List.cons_append, List.cons_append, expressionFrom_cons, expressionTurn_operand ha,
      expressionFrom_cons, expressionTurn_operator ho, Descent.bind_apply, List.length_cons, hright]
    refine (hend k).trans ?_
    obtain ⟨reader, calls'', moves''⟩ := m
    cases hreader
    simp

/-- A chain of operands and operators is read as its one well-shaped tree, which is also the tree
that climbing over the priorities finds. By descent the tree is returned with the cursor behind the
chain; word by word it is put to the purpose for which an operand was due. -/
theorem expression_chain {front : List (Atom × Op)} {last : Atom} {ws : List String}
    (hw : Spells ws (chainSymbols front last)) :
    ∃ e : Expr,
      (∀ (m : Course) (rest : List String), m.reader.cursor.ahead = ws ++ rest →
        (∀ w ∈ rest.head?, ¬ IsOperator w) →
        ∃ calls moves, ∀ extra, Descent.expression ((ws ++ rest).length + 1 + extra) m =
          (.ok (some e), ⟨⟨⟨ws.reverse ++ m.reader.cursor.passed, rest⟩, m.reader.nextId⟩,
            calls, moves⟩)) ∧
      (∀ (s : State) (p : Purpose), s.phase = .operand p [] →
        (∃ s', s.feed ws = .ok s' ∧ s'.settle = s.close e p) ∧
        ∀ passed rest, (∀ w ∈ rest.head?, ¬ IsOperator w) →
          readFrom s passed (ws ++ rest) =
            readFrom (s.close e p) (ws.reverse ++ passed) rest) ∧
      e.WellShaped ∧ e.symbols = chainSymbols front last ∧
      (∀ e' : Expr, e'.WellShaped → e'.symbols = chainSymbols front last → e' = e) ∧
      Expr.climbing (chainSymbols front last) = some e := by
  refine ⟨.ofChain front last, ?_, ?_, Expr.wellShaped_ofChain .., Expr.symbols_ofChain ..,
    fun e' => Expr.eq_ofChain, Expr.climbing_chainSymbols ..⟩
  · rintro ⟨⟨⟨passed, ahead⟩, id⟩, calls, moves⟩ rest rfl hrest
    obtain ⟨calls', moves', hread⟩ :=
      expressionFrom_chain hrest front hw calls passed id (calls + 1) moves
    exact ⟨calls', moves', fun extra => hread _ (by omega)⟩
  · intro s p hs
    have hfeed := State.feed_chain front hs hw
    have hset : ({ s with phase := .operator p (front.reverse ++ []) last } : State).settle =
        s.close (.ofChain front last) p := by
      cases p <;> simp [State.settle, State.close]
    refine ⟨⟨_, hfeed, hset⟩, fun passed rest hrest => ?_⟩
    rw [readFrom_feed hfeed, ← readFrom_settle _ _ hrest, hset]

theorem expression_chain_sum :
    Spells ["3", "WOOF", "x", "ARF", "2"]
      (chainSymbols [(.literal 3, .add), (.name "x", .multiply)] (.literal 2)) ∧
    ∃ e : Expr,
      (∃ calls moves, ∀ extra, Descent.expression (7 + extra)
          ⟨⟨⟨["AWOO", "y"], ["3", "WOOF", "x", "ARF", "2", "z"]⟩, 4⟩, 1, []⟩ =
        (.ok (some e), ⟨⟨⟨["2", "ARF", "x", "WOOF", "3", "AWOO", "y"], ["z"]⟩, 4⟩,
          calls, moves⟩)) ∧
      e = .binary .add (.atom (.literal 3)) (.binary .multiply (.atom (.name "x"))
        (.atom (.literal 2))) := by
  have hw : Spells ["3", "WOOF", "x", "ARF", "2"]
      (chainSymbols [(.literal 3, .add), (.name "x", .multiply)] (.literal 2)) := by decide
  have hnext : ∀ w ∈ ["z"].head?, ¬ IsOperator w := by
    rintro w ⟨⟩ ⟨o, ho⟩
    cases ho
  obtain ⟨e, hdescent, -, -, -, hunique, -⟩ := expression_chain hw
  refine ⟨hw, e, hdescent _ ["z"] rfl hnext, (hunique _ ?_ ?_).symm⟩
  · decide
  · decide

end Kennel.Reading
