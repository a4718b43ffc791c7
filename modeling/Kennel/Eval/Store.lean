/-!
# Stores

The variables that have a value, each with its latest one, in the order they first got one.
-/

namespace Kennel.Eval

abbrev Store := List (String × Int64)

namespace Store

def get? (x : String) : Store → Option Int64
  | [] => none
  | (y, v) :: m => if x = y then some v else get? x m

def set (x : String) (v : Int64) : Store → Store
  | [] => [(x, v)]
  | (y, w) :: m => if x = y then (x, v) :: m else (y, w) :: set x v m

theorem get?_set (m : Store) (x y : String) (v : Int64) :
    (m.set x v).get? y = if y = x then some v else m.get? y := by
  induction m with
  | nil => rfl
  | cons p m ih =>
    obtain ⟨z, w⟩ := p
    by_cases hz : x = z
    · subst hz
      by_cases hy : y = x <;> simp [get?, set, hy]
    · by_cases hy : y = z
      · subst hy
        simp [get?, set, hz, Ne.symm hz]
      · simp [get?, set, hz, hy, ih]

end Store

end Kennel.Eval
