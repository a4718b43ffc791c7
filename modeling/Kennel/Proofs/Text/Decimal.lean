import Kennel.Proofs.Text.Layout
import Kennel.Text.Decimal

/-!
# Numerals

What is written for a number is read back as this number, so different numbers are written in
different ways (`numeral_injective`, `signed_injective`).
-/

namespace Kennel.Text

theorem isNumeral_numeral (n : Nat) : isNumeral (numeral n) = true := by
  have hdigits : ∀ c ∈ Nat.toDigits 10 n, c.isDigit = true := fun c hc =>
    Nat.isDigit_of_mem_toDigits (by decide) (by decide) hc
  simpa [isNumeral, numeral, Nat.toList_repr, Nat.toDigits_ne_nil] using hdigits

theorem digitsValue_numeral (n : Nat) : digitsValue (numeral n).toList = n := by
  show Nat.ofDigitChars 10 (numeral n).toList 0 = n
  rw [numeral, Nat.toList_repr, Nat.ofDigitChars_ten_toDigits]

theorem numeral_injective : Function.Injective numeral := by
  intro n k h
  rw [← digitsValue_numeral n, h, digitsValue_numeral]

theorem isWord_of_isNumeral {w : String} (h : isNumeral w = true) : IsWord w := by
  simp only [isNumeral, Bool.and_eq_true, List.all_eq_true] at h
  refine ⟨?_, fun c hc => ?_⟩
  · rintro rfl
    exact absurd h.1 (by decide)
  · have hdigit := h.2 c hc
    simp only [Char.isDigit, Bool.and_eq_true, decide_eq_true_eq] at hdigit
    have hlo : 48 ≤ c.toNat := hdigit.1
    have hhi : c.toNat ≤ 57 := hdigit.2
    simp [isSpace]
    omega

theorem not_mem_numeral {c : Char} (hc : c.isDigit = false) (n : Nat) :
    c ∉ (numeral n).toList := by
  intro hmem
  have h := isNumeral_numeral n
  simp only [isNumeral, Bool.and_eq_true, List.all_eq_true] at h
  rw [h.2 c hmem] at hc
  cases hc

theorem not_mem_signed {c : Char} (hc : c.isDigit = false) (hminus : c ≠ '-') (n : Int) :
    c ∉ (signed n).toList := by
  cases n with
  | ofNat n => exact not_mem_numeral hc n
  | negSucc n => simp [signed, hminus, not_mem_numeral hc]

theorem signed_ne_empty (n : Int) : signed n ≠ "" := by
  cases n with
  | ofNat n => exact (isWord_of_isNumeral (isNumeral_numeral n)).1
  | negSucc n => simp [signed]

theorem signed_injective : Function.Injective signed := by
  have hcross : ∀ n k, signed (.ofNat n) ≠ signed (.negSucc k) := by
    intro n k h
    have hminus := not_mem_numeral (c := '-') rfl n
    rw [show numeral n = signed (.negSucc k) from h] at hminus
    exact hminus (by simp [signed])
  intro a b h
  cases a with
  | ofNat n =>
    cases b with
    | ofNat k => exact congrArg Int.ofNat (numeral_injective h)
    | negSucc k => exact absurd h (hcross n k)
  | negSucc n =>
    cases b with
    | ofNat k => exact absurd h.symm (hcross k n)
    | negSucc k =>
      have hn := numeral_injective ((String.append_right_inj "-").mp h)
      exact congrArg Int.negSucc (Nat.succ.inj hn)

end Kennel.Text
