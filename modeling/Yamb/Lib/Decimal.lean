import Mathlib.Data.Int.Notation
import Mathlib.Data.Nat.Basic

/-!
# Numbers in decimal

* `decimal`, `decimalInt`: the digits of a number as bytes;
* `ofDecimal`, **`ofDecimal_decimal`**: the number that digits stand for;
* `takeWhile_decimal`: the digits are found in front of what is no digit.
-/

set_option autoImplicit false

namespace Decimal

/-- The byte of a digit. -/
def digit (d : ℕ) : UInt8 := UInt8.ofNat (48 + d)

def isDigit (b : UInt8) : Bool := 48 ≤ b.toNat ∧ b.toNat ≤ 57

def digitValue (b : UInt8) : ℕ := b.toNat - 48

/-- The decimal digits of a number. -/
def decimal (n : ℕ) : List UInt8 :=
  if n < 10 then [digit n] else decimal (n / 10) ++ [digit (n % 10)]

/-- An integer, with a sign when it is negative. -/
def decimalInt (n : ℤ) : List UInt8 := if n < 0 then 0x2d :: decimal n.natAbs else decimal n.natAbs

/-- The number that digits stand for. -/
def ofDecimal (bs : List UInt8) : ℕ := bs.foldl (fun v b => 10 * v + digitValue b) 0

theorem isDigit_digit {d : ℕ} (h : d < 10) : isDigit (digit d) = true :=
  (by decide : ∀ d < 10, isDigit (digit d) = true) d h

theorem digitValue_digit {d : ℕ} (h : d < 10) : digitValue (digit d) = d :=
  (by decide : ∀ d < 10, digitValue (digit d) = d) d h

theorem isDigit_of_mem_decimal {n : ℕ} {b : UInt8} (h : b ∈ decimal n) : isDigit b = true := by
  induction n using Nat.strong_induction_on with
  | _ n ih =>
    rw [decimal] at h
    split at h
    · rw [List.mem_singleton.mp h]
      exact isDigit_digit (by omega)
    · rcases List.mem_append.mp h with h | h
      · exact ih (n / 10) (by omega) h
      · rw [List.mem_singleton.mp h]
        exact isDigit_digit (by omega)

theorem decimal_ne_nil (n : ℕ) : decimal n ≠ [] := by
  rw [decimal]
  split <;> simp

theorem exists_decimal (n : ℕ) : ∃ b bs, decimal n = b :: bs ∧ isDigit b = true := by
  obtain ⟨b, bs, hb⟩ := List.exists_cons_of_ne_nil (decimal_ne_nil n)
  exact ⟨b, bs, hb, isDigit_of_mem_decimal (hb ▸ List.mem_cons_self)⟩

theorem ne_of_isDigit {b c : UInt8} (hb : isDigit b = true) (hc : isDigit c = false) : b ≠ c := by
  rintro rfl
  rw [hb] at hc
  cases hc

theorem decimal_of_lt {n : ℕ} (h : n < 10) : decimal n = [digit n] := by
  rw [decimal, if_pos h]

theorem ofDecimal_decimal (n : ℕ) : ofDecimal (decimal n) = n := by
  induction n using Nat.strong_induction_on with
  | _ n ih =>
    rw [decimal]
    split
    · rename_i h
      simp [ofDecimal, digitValue_digit h]
    · have hn := ih (n / 10) (by omega)
      unfold ofDecimal at hn ⊢
      rw [List.foldl_append, hn]
      simp only [List.foldl_cons, List.foldl_nil, digitValue_digit (Nat.mod_lt n (by decide : 10 > 0))]
      omega

/-- No number but zero starts with a zero. -/
theorem decimal_head {n : ℕ} (h : n ≠ 0) : (decimal n).head? ≠ some 48 := by
  induction n using Nat.strong_induction_on with
  | _ n ih =>
    rw [decimal]
    split
    · rename_i hn
      exact (by decide : ∀ d < 10, d ≠ 0 → [digit d].head? ≠ some 48) n hn h
    · obtain ⟨b, bs, hb⟩ := List.exists_cons_of_ne_nil (decimal_ne_nil (n / 10))
      have hdiv := ih (n / 10) (by omega) (by omega)
      rw [hb] at hdiv ⊢
      exact hdiv

/-- What follows a number and does not go on with its digits. -/
def NoDigit (rest : List UInt8) : Prop := ∀ b ∈ rest.head?, isDigit b = false

theorem takeWhile_decimal (n : ℕ) {rest : List UInt8} (h : NoDigit rest) :
    (decimal n ++ rest).takeWhile isDigit = decimal n := by
  rw [List.takeWhile_append_of_pos fun b hb => isDigit_of_mem_decimal hb]
  cases rest with
  | nil => simp
  | cons b rest => rw [List.takeWhile_cons_of_neg (by simp [h b rfl]), List.append_nil]

end Decimal
