import Yamb.Lib.Json.Text

/-!
# Integers in JSON text

* `intFormat`: the integers as numbers of JSON, without fractions and exponents.
-/

set_option autoImplicit false

namespace Json

/-- The digits of an integer: no zero in front of others, no fraction and no exponent. -/
def scanNat (bs : List UInt8) : Option (ℕ × List UInt8) :=
  let digits := bs.takeWhile Decimal.isDigit
  let rest := bs.drop digits.length
  if digits = [] ∨ (digits.head? = some 0x30 ∧ 1 < digits.length) ∨ rest.head? = some 0x2e ∨
      rest.head? = some 0x65 ∨ rest.head? = some 0x45 then none
  else some (Decimal.ofDecimal digits, rest)

def scanInt (bs : List UInt8) : Option (ℤ × List UInt8) :=
  if bs.head? = some 0x2d then (scanNat (bs.drop 1)).map fun r => (-r.1, r.2)
  else (scanNat bs).map fun r => (r.1, r.2)

theorem noDigit_of_delimited {rest : List UInt8} (h : Delimited rest) : Decimal.NoDigit rest := by
  intro b hb
  rcases h b hb with rfl | rfl | rfl <;> decide

theorem scanNat_decimal (n : ℕ) {rest : List UInt8} (h : Delimited rest) :
    scanNat (Decimal.decimal n ++ rest) = some (n, rest) := by
  have htake := Decimal.takeWhile_decimal n (noDigit_of_delimited h)
  have hzero : ¬ ((Decimal.decimal n).head? = some 0x30 ∧ 1 < (Decimal.decimal n).length) := by
    rintro ⟨hhead, hlen⟩
    by_cases hn : n = 0
    · rw [hn, Decimal.decimal_of_lt (by decide)] at hlen
      exact absurd hlen (by decide)
    · exact Decimal.decimal_head hn hhead
  have hnext : ∀ b : UInt8, b ≠ 0x2c ∧ b ≠ 0x5d ∧ b ≠ 0x7d → rest.head? ≠ some b := by
    rintro b ⟨h₁, h₂, h₃⟩ hb
    rcases h b hb with rfl | rfl | rfl
    · exact h₁ rfl
    · exact h₂ rfl
    · exact h₃ rfl
  simp only [scanNat, htake, List.drop_left, Decimal.ofDecimal_decimal]
  rw [if_neg]
  rintro (hd | hz | hr | hr | hr)
  · exact Decimal.decimal_ne_nil n hd
  · exact hzero hz
  · exact hnext 0x2e (by decide) hr
  · exact hnext 0x65 (by decide) hr
  · exact hnext 0x45 (by decide) hr

theorem scanInt_decimalInt (n : ℤ) (rest : List UInt8) (h : Delimited rest) :
    scanInt (Decimal.decimalInt n ++ rest) = some (n, rest) := by
  unfold Decimal.decimalInt
  split_ifs with hn
  · have hnat := scanNat_decimal n.natAbs h
    rw [List.cons_append, scanInt, List.head?_cons, if_pos rfl, List.drop_one, List.tail_cons, hnat]
    simp only [Option.map_some, Option.some.injEq, Prod.mk.injEq, and_true]
    omega
  · obtain ⟨b, bs, hb, hdigit⟩ := Decimal.exists_decimal n.natAbs
    have hminus : (Decimal.decimal n.natAbs ++ rest).head? ≠ some 0x2d := by
      rw [hb]
      exact fun h => Decimal.ne_of_isDigit hdigit (by decide) (Option.some.inj h)
    rw [scanInt, if_neg hminus, scanNat_decimal _ h]
    simp only [Option.map_some, Option.some.injEq, Prod.mk.injEq, and_true]
    omega

/-- **The integers as numbers of JSON.** -/
def intFormat : NumberFormat ℤ where
  dump := Decimal.decimalInt
  scan := scanInt
  dump_head n := by
    unfold Decimal.decimalInt
    split_ifs
    · exact ⟨_, _, rfl, by decide⟩
    · obtain ⟨b, bs, hb, hdigit⟩ := Decimal.exists_decimal n.natAbs
      exact ⟨b, bs, hb, by rw [isNumberStart, hdigit, Bool.or_true]⟩
  noBackslash n := by
    have hdigits : backslash ∉ Decimal.decimal n.natAbs := fun h =>
      absurd (Decimal.isDigit_of_mem_decimal h) (by decide)
    unfold Decimal.decimalInt
    split_ifs
    · exact List.not_mem_cons_of_ne_of_not_mem (by decide) hdigits
    · exact hdigits
  scan_dump := scanInt_decimalInt

end Json
