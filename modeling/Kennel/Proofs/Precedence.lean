import Kennel.Expr.Precedence

/-!
# Shapes of expression trees

`Expr.symbols` reads a tree off from left to right. A tree is `WellShaped` when looser operators
stand above tighter ones and equal ones group to the left; such a tree is known from its symbols
(`WellShaped.eq_of_symbols_eq`). Grouping a chain gives the well-shaped tree with the symbols of
the chain, which is also what climbing over the priorities finds (`climbing_chainSymbols`). Of any
tree, `Expr.regroup` repairs the topmost operator and keeps the symbols (`regroup_repairs`).
-/

namespace Kennel

inductive Symbol
  | operand (a : Atom)
  | operator (o : Op)
  deriving DecidableEq

theorem Op.priority_pos (o : Op) : 0 < o.priority := by cases o <;> decide

/-- The loosest priority of all operators. -/
def Op.loosest : Nat := 3

theorem Op.priority_le_loosest (o : Op) : o.priority ≤ Op.loosest := by cases o <;> decide

namespace Expr

/-- The operands and operators of a tree, from left to right. -/
def symbols : Expr → List Symbol
  | .atom a => [.operand a]
  | .binary op l r => l.symbols ++ .operator op :: r.symbols

/-- The priority of the topmost operator; zero, below every priority, for an atom. -/
def rank : Expr → Nat
  | .atom _ => 0
  | .binary op _ _ => op.priority

/-- To the left of an operator stands nothing looser, to its right only what binds tighter. -/
def WellShaped : Expr → Prop
  | .atom _ => True
  | .binary op l r =>
    l.rank ≤ op.priority ∧ r.rank < op.priority ∧ l.WellShaped ∧ r.WellShaped

instance WellShaped.decidable : (e : Expr) → Decidable e.WellShaped
  | .atom _ => inferInstanceAs (Decidable True)
  | .binary op l r =>
    have := WellShaped.decidable l
    have := WellShaped.decidable r
    inferInstanceAs (Decidable (l.rank ≤ op.priority ∧ r.rank < op.priority ∧
      l.WellShaped ∧ r.WellShaped))

/-- The symbols of operands that each have an operator after them. -/
def frontSymbols (front : List (Atom × Op)) : List Symbol :=
  front.flatMap fun p => [.operand p.1, .operator p.2]

/-- The symbols of the chain whose operands but the last, each with the operator after it, are
`front`. -/
def chainSymbols (front : List (Atom × Op)) (last : Atom) : List Symbol :=
  frontSymbols front ++ [.operand last]

theorem frontSymbols_snoc (front : List (Atom × Op)) (last : Atom) (o : Op) :
    frontSymbols (front ++ [(last, o)]) = chainSymbols front last ++ [.operator o] := by
  simp [frontSymbols, chainSymbols]

/-! ## One tree for each chain -/

/-- No operator of a well-shaped tree is looser than the topmost one. -/
theorem WellShaped.priority_le_rank {o : Op} {e : Expr} (h : e.WellShaped)
    (ho : .operator o ∈ e.symbols) : o.priority ≤ e.rank := by
  induction e with
  | atom a => simp [symbols] at ho
  | binary op l r ihl ihr =>
    obtain ⟨hl, hr, wl, wr⟩ := h
    simp only [symbols, List.mem_append, List.mem_cons, Symbol.operator.injEq] at ho
    simp only [rank]
    rcases ho with ho | rfl | ho
    · have := ihl wl ho; omega
    · exact Nat.le_refl _
    · have := ihr wr ho; omega

theorem operator_mem_binary (op : Op) (l r : Expr) : .operator op ∈ (binary op l r).symbols := by
  simp [symbols]

/-- The left operands of two well-shaped trees with the same symbols: the first is no shorter.
Otherwise its operator would be among the left symbols of the second, and the operator of the
second among the right ones of the first. -/
theorem WellShaped.left_length_le {op op' : Op} {l r l' r' : Expr}
    (h : (binary op l r).WellShaped) (h' : (binary op' l' r').WellShaped)
    (hs : (binary op l r).symbols = (binary op' l' r').symbols) :
    l'.symbols.length ≤ l.symbols.length := by
  apply Nat.le_of_not_lt
  intro hlt
  obtain ⟨-, hr, -, wr⟩ := h
  obtain ⟨hl', -, wl', -⟩ := h'
  simp only [symbols] at hs
  rcases List.append_eq_append_iff.mp hs with ⟨mid, hl, hmid⟩ | ⟨mid, hl, -⟩
  · cases mid with
    | nil => simp [hl] at hlt
    | cons x mid =>
      simp only [List.cons_append, List.cons.injEq] at hmid
      obtain ⟨rfl, hrs⟩ := hmid
      have h1 : op.priority ≤ l'.rank := wl'.priority_le_rank (by simp [hl])
      have h2 : op'.priority ≤ r.rank := wr.priority_le_rank (by simp [hrs])
      omega
  · rw [hl, List.length_append] at hlt; omega

theorem WellShaped.eq_of_symbols_eq {e e' : Expr} (h : e.WellShaped) (h' : e'.WellShaped)
    (hs : e.symbols = e'.symbols) : e = e' := by
  induction e generalizing e' with
  | atom a =>
    cases e' with
    | atom b => simpa [symbols] using hs
    | binary op' l' r' =>
      have := operator_mem_binary op' l' r'
      rw [← hs] at this
      simp [symbols] at this
  | binary op l r ihl ihr =>
    cases e' with
    | atom b =>
      have := operator_mem_binary op l r
      rw [hs] at this
      simp [symbols] at this
    | binary op' l' r' =>
      have hlen := Nat.le_antisymm (h'.left_length_le h hs.symm) (h.left_length_le h' hs)
      obtain ⟨-, -, wl, wr⟩ := h
      obtain ⟨-, -, wl', wr'⟩ := h'
      obtain ⟨hl, hr⟩ := List.append_inj hs hlen
      simp only [List.cons.injEq, Symbol.operator.injEq] at hr
      rw [hr.1, ihl wl wl' hl, ihr wr wr' hr.2]

/-! ## Grouping -/

theorem symbols_prepend (lhs : Expr) (op : Op) (e : Expr) :
    (prepend lhs op e).symbols = lhs.symbols ++ .operator op :: e.symbols := by
  induction e with
  | atom a => rfl
  | binary op' l r ihl _ =>
    unfold prepend
    split
    · simp [symbols, ihl]
    · rfl

theorem rank_prepend (lhs : Expr) (op : Op) (e : Expr) :
    (prepend lhs op e).rank = max op.priority e.rank := by
  cases e with
  | atom a => simp [prepend, rank]
  | binary op' l r =>
    unfold prepend
    split <;> simp only [rank] <;> omega

theorem WellShaped.prepend {lhs : Expr} {op : Op} (hl : lhs.WellShaped)
    (hr : lhs.rank ≤ op.priority) {e : Expr} (he : e.WellShaped) :
    (Expr.prepend lhs op e).WellShaped := by
  induction e with
  | atom a => exact ⟨hr, op.priority_pos, hl, he⟩
  | binary op' l r ihl _ =>
    obtain ⟨h1, h2, wl, wr⟩ := he
    unfold Expr.prepend
    split
    · refine ⟨?_, h2, ihl wl, wr⟩
      rw [rank_prepend]; omega
    · refine ⟨hr, ?_, hl, h1, h2, wl, wr⟩
      simp only [rank]; omega

theorem symbols_ofChain (front : List (Atom × Op)) (last : Atom) :
    (ofChain front last).symbols = chainSymbols front last := by
  induction front with
  | nil => rfl
  | cons p front ih =>
    have hs : (ofChain (p :: front) last).symbols =
        .operand p.1 :: .operator p.2 :: (ofChain front last).symbols := by
      simp [ofChain, symbols_prepend, symbols]
    rw [hs, ih]; rfl

theorem wellShaped_ofChain (front : List (Atom × Op)) (last : Atom) :
    (ofChain front last).WellShaped := by
  induction front with
  | nil => trivial
  | cons p front ih =>
    have ha : (atom p.1).WellShaped := trivial
    exact ha.prepend (Nat.zero_le _) ih

theorem eq_ofChain {front : List (Atom × Op)} {last : Atom} {e : Expr} (h : e.WellShaped)
    (hs : e.symbols = chainSymbols front last) : e = ofChain front last :=
  h.eq_of_symbols_eq (wellShaped_ofChain front last) (by rw [hs, symbols_ofChain])

/-! ## Repairing one operator -/

/-- What binds tighter stays to the right as a whole. -/
theorem prepend_of_rank_lt (lhs : Expr) {op : Op} {e : Expr} (h : e.rank < op.priority) :
    prepend lhs op e = .binary op lhs e := by
  cases e with
  | atom a => rfl
  | binary op' l r =>
    have hop : ¬ op.priority ≤ op'.priority := Nat.not_le.mpr h
    unfold prepend
    rw [if_neg hop]

theorem symbols_regroup (e : Expr) : e.regroup.symbols = e.symbols := by
  cases e with
  | atom a => rfl
  | binary op l r => exact symbols_prepend l op r

theorem WellShaped.regroup_eq {e : Expr} (h : e.WellShaped) : e.regroup = e := by
  cases e with
  | atom a => rfl
  | binary op l r =>
    obtain ⟨-, hr, -, -⟩ := h
    exact prepend_of_rank_lt l hr

/-- Moving the topmost operator down keeps what is read from left to right, gives a well-shaped
tree where the operands are well shaped and the left one is no looser than the operator, and
changes nothing that is well shaped already. -/
theorem regroup_repairs :
    (∀ e : Expr, e.regroup.symbols = e.symbols) ∧
    (∀ (o : Op) (l r : Expr), r.WellShaped → l.WellShaped → l.rank ≤ o.priority →
      (binary o l r).regroup.WellShaped) ∧
    ∀ e : Expr, e.WellShaped → e.regroup = e := by
  refine ⟨symbols_regroup, ?_, fun e he => he.regroup_eq⟩
  intro o l r hr hl hrank
  show (Expr.prepend l o r).WellShaped
  exact hl.prepend hrank hr

/-- `a - ((b * c - d) < e)`: the subtraction belongs below the comparison and the other
subtraction, and above the product. -/
def leaningRight : Expr :=
  .binary .subtract (.atom (.name "a")) (.binary .less
    (.binary .subtract
      (.binary .multiply (.atom (.name "b")) (.atom (.name "c"))) (.atom (.name "d")))
    (.atom (.name "e")))

theorem regroup_leaningRight :
    leaningRight.regroup.WellShaped ∧ leaningRight.regroup.symbols = leaningRight.symbols ∧
      leaningRight.regroup ≠ leaningRight ∧
      leaningRight.regroup.regroup = leaningRight.regroup := by
  obtain ⟨hsymbols, hshape, hfixed⟩ := regroup_repairs
  have hw : leaningRight.regroup.WellShaped := hshape _ _ _ (by decide) trivial (Nat.zero_le _)
  exact ⟨hw, hsymbols _, by decide, hfixed _ hw⟩

/-- On the right of the product stands a sum that groups to the right, and stays so. -/
example : ¬ (binary .multiply (.atom (.name "a")) (.binary .add (.atom (.name "b"))
    (.binary .add (.atom (.name "c")) (.atom (.name "d"))))).regroup.WellShaped := by
  decide

/-! ## Climbing over the priorities -/

/-- Extend `lhs` by the operators ahead that are no looser than `bound`, each with a right operand
of tighter ones. The symbols that are left over come with it. -/
def climb (bound : Nat) (lhs : Expr) (ahead : List Symbol) :
    { result : Expr × List Symbol // result.2.length ≤ ahead.length } :=
  match ahead with
  | .operator o :: .operand a :: ahead =>
    if o.priority ≤ bound then
      match climb (o.priority - 1) (.atom a) ahead with
      | ⟨(rhs, rest), hrest⟩ =>
        match climb bound (.binary o lhs rhs) rest with
        | ⟨result, hresult⟩ => ⟨result, by simp only [List.length_cons] at *; omega⟩
    else ⟨(lhs, .operator o :: .operand a :: ahead), Nat.le_refl _⟩
  | ahead => ⟨(lhs, ahead), Nat.le_refl _⟩
termination_by ahead.length
decreasing_by all_goals simp only [List.length_cons] at *; omega

/-- Read a whole chain by climbing. -/
def climbing : List Symbol → Option Expr
  | .operand a :: ahead =>
    match (climb Op.loosest (.atom a) ahead).1 with
    | (e, []) => some e
    | _ => none
  | _ => none

/-- Operators and operands in turn, the first operator no tighter than `bound`. -/
def Steps (bound : Nat) : List Symbol → Prop
  | [] => True
  | .operator o :: .operand _ :: ahead => bound ≤ o.priority ∧ Steps 0 ahead
  | _ => False

/-- What climbing keeps: the tree so far is well shaped and no looser than what comes next. -/
theorem climb_spec (bound : Nat) (lhs : Expr) (ahead : List Symbol) (hw : lhs.WellShaped)
    (hb : lhs.rank ≤ bound) (ha : Steps lhs.rank ahead) :
    (climb bound lhs ahead).1.1.WellShaped ∧ (climb bound lhs ahead).1.1.rank ≤ bound ∧
      (climb bound lhs ahead).1.1.symbols ++ (climb bound lhs ahead).1.2 =
        lhs.symbols ++ ahead ∧
      Steps (bound + 1) (climb bound lhs ahead).1.2 := by
  fun_induction climb bound lhs ahead with
  | case1 bound lhs o a ahead ho rhs rest hrest hrhs result hresult hclimb ih1 ih2 =>
    obtain ⟨hlo, hsteps⟩ := ha
    rw [hrhs] at ih1
    obtain ⟨w1, b1, s1, r1⟩ := ih1 trivial (Nat.zero_le _) hsteps
    have hpos := o.priority_pos
    rw [show o.priority - 1 + 1 = o.priority by omega] at r1
    rw [hclimb] at ih2
    obtain ⟨w2, b2, s2, r2⟩ := ih2 ⟨hlo, by simp only at b1; omega, hw, w1⟩ ho r1
    refine ⟨w2, b2, ?_, r2⟩
    calc result.1.symbols ++ result.2 = (binary o lhs rhs).symbols ++ rest := s2
      _ = lhs.symbols ++ .operator o :: (rhs.symbols ++ rest) := by simp [symbols]
      _ = lhs.symbols ++ .operator o :: .operand a :: ahead := by rw [s1]; rfl
  | case2 bound lhs o a ahead ho => exact ⟨hw, hb, rfl, by omega, ha.2⟩
  | case3 bound lhs ahead hne =>
    refine ⟨hw, hb, rfl, ?_⟩
    unfold Steps at ha
    split at ha
    · trivial
    · exact absurd rfl (hne _ _ _)
    · exact ha.elim

theorem Steps.eq_nil {bound : Nat} (hb : Op.loosest < bound) :
    ∀ {ahead : List Symbol}, Steps bound ahead → ahead = []
  | [], _ => rfl
  | .operator o :: .operand _ :: _, h => by
    have := o.priority_le_loosest
    have := h.1
    omega

/-- A chain begins with an operand, and operators and operands follow in turn. -/
theorem chainSymbols_eq (front : List (Atom × Op)) (last : Atom) :
    ∃ a ahead, chainSymbols front last = .operand a :: ahead ∧ Steps 0 ahead := by
  induction front with
  | nil => exact ⟨last, [], rfl, trivial⟩
  | cons p front ih =>
    obtain ⟨a, ahead, he, hs⟩ := ih
    refine ⟨p.1, .operator p.2 :: chainSymbols front last, rfl, ?_⟩
    rw [he]
    exact ⟨Nat.zero_le _, hs⟩

theorem climbing_chainSymbols (front : List (Atom × Op)) (last : Atom) :
    climbing (chainSymbols front last) = some (ofChain front last) := by
  obtain ⟨a, ahead, he, hs⟩ := chainSymbols_eq front last
  obtain ⟨hw, -, hsym, hrest⟩ := climb_spec Op.loosest (.atom a) ahead trivial (Nat.zero_le _) hs
  have hnil := Steps.eq_nil (Nat.lt_succ_self _) hrest
  rw [hnil, List.append_nil] at hsym
  have heq := eq_ofChain hw (hsym.trans he.symm)
  rw [he]
  simp only [climbing]
  split
  · next e hclimb => rw [hclimb] at heq; exact congrArg some heq
  · next hne => exact (hne _ (Prod.ext rfl hnil)).elim

end Expr

end Kennel
