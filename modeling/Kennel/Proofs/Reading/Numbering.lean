import Kennel.Proofs.Reading.Grammar
import Mathlib.Data.List.Nodup

/-!
# Numbers of branches and loops

`Stmt.nodes` lists the branches and loops of a program with their numbers, in the order of their
opening words. In a program that has been read the numbers count up from zero, so no two nodes
share one (`nodes_nodup`).
-/

namespace Kennel

/-- What carries a number. -/
inductive Kind
  | branch
  | loop
  deriving DecidableEq

mutual

/-- The branches and loops of a statement, from the outside in. -/
def Stmt.nodes : Stmt → List (Kind × Nat)
  | .assign .. | .bare _ => []
  | .branch id _ yes no => (.branch, id) :: (Stmt.nodesAll yes ++ Stmt.nodesAll no)
  | .loop id _ body => (.loop, id) :: Stmt.nodesAll body

def Stmt.nodesAll : List Stmt → List (Kind × Nat)
  | [] => []
  | s :: rest => s.nodes ++ Stmt.nodesAll rest

end

namespace Reading

theorem range'_append_sub {n k m : Nat} (h : n ≤ k) (h' : k ≤ m) :
    List.range' n (k - n) ++ List.range' k (m - k) = List.range' n (m - n) := by
  obtain ⟨i, rfl⟩ := Nat.exists_eq_add_of_le h
  rw [Nat.add_sub_cancel_left, List.range'_append_1]
  congr 1
  omega

theorem cons_range'_sub {n m : Nat} (h : n < m) :
    n :: List.range' (n + 1) (m - (n + 1)) = List.range' n (m - n) := by
  rw [← List.range'_succ]
  congr 1
  omega

/-- The numbers of the nodes, in order, are those handed out meanwhile. -/
theorem Items.numbers {n m : Nat} {ws : List String} {p : List Stmt} (h : Items n ws p m) :
    n ≤ m ∧ (Stmt.nodesAll p).map (·.2) = List.range' n (m - n) := by
  induction h with
  | nil n => simp [Stmt.nodesAll]
  | separator _ _ ih => exact ih
  | name _ _ ih => simpa [Stmt.nodesAll, Stmt.nodes] using ih
  | assign _ _ _ _ ih => simpa [Stmt.nodesAll, Stmt.nodes] using ih
  | branch _ _ _ _ _ _ ihy ihn ih =>
    obtain ⟨h₁, e₁⟩ := ihy
    obtain ⟨h₂, e₂⟩ := ihn
    obtain ⟨h₃, e₃⟩ := ih
    refine ⟨by omega, ?_⟩
    simp only [Stmt.nodesAll, Stmt.nodes, List.cons_append, List.map_cons, List.map_append, e₁, e₂,
      e₃]
    rw [range'_append_sub h₁ h₂, range'_append_sub (by omega) h₃, cons_range'_sub (by omega)]
  | loop _ _ _ _ ihb ih =>
    obtain ⟨h₁, e₁⟩ := ihb
    obtain ⟨h₂, e₂⟩ := ih
    refine ⟨by omega, ?_⟩
    simp only [Stmt.nodesAll, Stmt.nodes, List.cons_append, List.map_cons, List.map_append, e₁, e₂]
    rw [range'_append_sub h₁ h₂, cons_range'_sub (by omega)]

theorem nodes_nodup {source : String} {p : Program} (h : parse source = .ok p) :
    (Stmt.nodesAll p).Nodup := by
  obtain ⟨m, hi⟩ := items_of_program h
  have hn : ((Stmt.nodesAll p).map (·.2)).Nodup := by
    rw [hi.numbers.2]
    exact List.nodup_range'
  exact hn.of_map _

end Reading

end Kennel
