import Kennel.Proofs.Program

/-!
# Renaming

`Stmt.renameAll r` puts `r x` in the place of every name `x` of a program. Only the names that
occur matter (`Program.rename_congr`). A map that is injective on finitely many names agrees on
them with maps that are injective everywhere, so that the stages of a compiler need to be looked at
for the latter only (`Program.rename_of_injective`). There are two such maps that differ on all
other names (`exists_injective_pair`): what comes out the same under both holds no other name.
-/

namespace Kennel

def Atom.rename (r : String → String) : Atom → Atom
  | .literal n => .literal n
  | .name x => .name (r x)

def Expr.rename (r : String → String) : Expr → Expr
  | .atom a => .atom (a.rename r)
  | .binary op lhs rhs => .binary op (lhs.rename r) (rhs.rename r)

mutual

def Stmt.rename (r : String → String) : Stmt → Stmt
  | .assign x e => .assign (r x) (e.rename r)
  | .branch id c yes no => .branch id (c.rename r) (Stmt.renameAll r yes) (Stmt.renameAll r no)
  | .loop id c body => .loop id (c.rename r) (Stmt.renameAll r body)
  | .bare x => .bare (r x)

def Stmt.renameAll (r : String → String) : List Stmt → List Stmt
  | [] => []
  | s :: rest => s.rename r :: Stmt.renameAll r rest

end

theorem Stmt.renameAll_eq_map (r : String → String) (p : List Stmt) :
    Stmt.renameAll r p = p.map (Stmt.rename r) := by
  induction p with
  | nil => rfl
  | cons s p ih => rw [Stmt.renameAll, ih, List.map_cons]

@[simp] theorem Stmt.renameAll_append (r : String → String) (p q : List Stmt) :
    Stmt.renameAll r (p ++ q) = Stmt.renameAll r p ++ Stmt.renameAll r q := by
  simp only [Stmt.renameAll_eq_map, List.map_append]

@[simp] theorem Stmt.renameAll_reverse (r : String → String) (p : List Stmt) :
    Stmt.renameAll r p.reverse = (Stmt.renameAll r p).reverse := by
  simp only [Stmt.renameAll_eq_map, List.map_reverse]

/-! ## Names that occur -/

section

variable {r r' : String → String}

theorem Expr.rename_congr {e : Expr} (h : ∀ x ∈ e.names, r x = r' x) :
    e.rename r = e.rename r' := by
  induction e with
  | atom a =>
    cases a with
    | literal n => rfl
    | name x => simp [Expr.rename, Atom.rename, h x (by simp [Expr.names, Expr.atoms])]
  | binary op lhs rhs ihl ihr =>
    simp only [Expr.names, Expr.atoms, List.filterMap_append, List.forall_mem_append] at h
    rw [Expr.rename, Expr.rename, ihl h.1, ihr h.2]

mutual

theorem Stmt.rename_congr : ∀ (s : Stmt), (∀ x ∈ s.heads, r x = r' x) →
    (∀ e ∈ s.exprs, e.rename r = e.rename r') → s.rename r = s.rename r'
  | .bare x, hx, _ => by rw [Stmt.rename, Stmt.rename, hx x List.mem_cons_self]
  | .assign x e, hx, he => by
    rw [Stmt.rename, Stmt.rename, hx x List.mem_cons_self, he e List.mem_cons_self]
  | .branch id c yes no, hx, he => by
    simp only [Stmt.heads, List.forall_mem_append] at hx
    simp only [Stmt.exprs, List.forall_mem_cons, List.forall_mem_append] at he
    rw [Stmt.rename, Stmt.rename, he.1, Stmt.renameAll_congr yes hx.1 he.2.1,
      Stmt.renameAll_congr no hx.2 he.2.2]
  | .loop id c body, hx, he => by
    simp only [Stmt.exprs, List.forall_mem_cons] at he
    rw [Stmt.rename, Stmt.rename, he.1, Stmt.renameAll_congr body hx he.2]

theorem Stmt.renameAll_congr : ∀ (p : List Stmt), (∀ x ∈ Stmt.headsAll p, r x = r' x) →
    (∀ e ∈ Stmt.exprsAll p, e.rename r = e.rename r') → Stmt.renameAll r p = Stmt.renameAll r' p
  | [], _, _ => rfl
  | s :: p, hx, he => by
    simp only [Stmt.headsAll, List.forall_mem_append] at hx
    simp only [Stmt.exprsAll, List.forall_mem_append] at he
    rw [Stmt.renameAll, Stmt.renameAll, Stmt.rename_congr s hx.1 he.1,
      Stmt.renameAll_congr p hx.2 he.2]

end

theorem Program.rename_congr {p : Program} (h : ∀ x ∈ p.names, r x = r' x) :
    Stmt.renameAll r p = Stmt.renameAll r' p := by
  simp only [Program.names, List.forall_mem_append] at h
  refine Stmt.renameAll_congr p h.1 fun e he => Expr.rename_congr fun x hx => h.2 x ?_
  exact List.mem_flatMap.mpr ⟨e, he, hx⟩

end

/-! ## Injective extensions -/

/-- `r` on `names`; any other name behind `n` stars. -/
def extend (names : List String) (r : String → String) (n : Nat) (x : String) : String :=
  if x ∈ names then r x else String.ofList (List.replicate n '*') ++ x

section

variable {names : List String} {r : String → String}

theorem extend_of_mem {x : String} (h : x ∈ names) (n : Nat) : extend names r n x = r x :=
  if_pos h

theorem length_extend_of_not_mem {x : String} (h : x ∉ names) (n : Nat) :
    (extend names r n x).length = n + x.length := by
  simp [extend, if_neg h]

theorem extend_injective {n : Nat} (hr : ∀ x ∈ names, ∀ y ∈ names, r x = r y → x = y)
    (hn : ∀ x ∈ names, (r x).length < n) : Function.Injective (extend names r n) := by
  intro x y h
  by_cases hx : x ∈ names <;> by_cases hy : y ∈ names
  · rw [extend_of_mem hx, extend_of_mem hy] at h
    exact hr x hx y hy h
  · have hlen := congrArg String.length h
    rw [extend_of_mem hx, length_extend_of_not_mem hy] at hlen
    have := hn x hx
    omega
  · have hlen := congrArg String.length h
    rw [extend_of_mem hy, length_extend_of_not_mem hx] at hlen
    have := hn y hy
    omega
  · simpa [extend, hx, hy] using h

theorem exists_length_lt (names : List String) (r : String → String) :
    ∃ n, ∀ x ∈ names, (r x).length < n := by
  induction names with
  | nil => exact ⟨0, by simp⟩
  | cons y names ih =>
    obtain ⟨n, hn⟩ := ih
    refine ⟨max n ((r y).length + 1), List.forall_mem_cons.mpr ⟨by omega, fun x hx => ?_⟩⟩
    have := hn x hx
    omega

/-- A map that is injective on `names` agrees there with two maps that are injective everywhere and
that agree with each other nowhere else. -/
theorem exists_injective_pair (hr : ∀ x ∈ names, ∀ y ∈ names, r x = r y → x = y) :
    ∃ f g : String → String, Function.Injective f ∧ Function.Injective g ∧
      (∀ x ∈ names, r x = f x) ∧ (∀ x ∈ names, r x = g x) ∧ ∀ x, f x = g x → f x = r x := by
  obtain ⟨n, hn⟩ := exists_length_lt names r
  refine ⟨extend names r n, extend names r (n + 1), extend_injective hr hn,
    extend_injective hr fun x hx => Nat.lt_succ_of_lt (hn x hx),
    fun x hx => (extend_of_mem hx n).symm, fun x hx => (extend_of_mem hx (n + 1)).symm, ?_⟩
  intro x h
  by_cases hx : x ∈ names
  · exact extend_of_mem hx n
  · have hlen := congrArg String.length h
    rw [length_extend_of_not_mem hx, length_extend_of_not_mem hx] at hlen
    omega

/-- What renaming does to `F`, for maps that are injective on the names that occur: it is enough to
know it for injective maps, provided that an outcome renamed alike by two maps holds only names on
which they agree. -/
theorem Program.rename_of_injective {β : Type} (F : Program → β)
    (act : (String → String) → β → β)
    (hF : ∀ f, Function.Injective f → ∀ p, F (Stmt.renameAll f p) = act f (F p))
    (hact : ∀ f g r : String → String, (∀ x, f x = g x → f x = r x) →
      ∀ b, act f b = act g b → act f b = act r b)
    {p : Program} (hr : ∀ x ∈ p.names, ∀ y ∈ p.names, r x = r y → x = y) :
    F (Stmt.renameAll r p) = act r (F p) := by
  obtain ⟨f, g, hf, hg, hrf, hrg, hfg⟩ := exists_injective_pair hr
  have hleft : F (Stmt.renameAll r p) = act f (F p) := by
    rw [Program.rename_congr hrf, hF f hf]
  have hright : F (Stmt.renameAll r p) = act g (F p) := by
    rw [Program.rename_congr hrg, hF g hg]
  rw [hleft]
  exact hact f g r hfg (F p) (hleft.symm.trans hright)

end

end Kennel
