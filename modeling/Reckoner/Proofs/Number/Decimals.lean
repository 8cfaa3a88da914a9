import Reckoner.Number.Shortest
import Reckoner.Proofs.Number.Rounding

/-!
A decimal is read as the binary64 nearest to its value, so decimals of one value are
read alike. The shortest decimal of a finite number is read as that number.
-/

namespace Reckoner

open Binary64

namespace Decimal

def value (d : Decimal) : ℚ := d.digits * 10 ^ d.exponent

variable {n : Nat} {x : Int}

theorem eight_zpow_le (h : 0 ≤ x) : (2 : ℚ) ^ (3 * x) ≤ 10 ^ x := by
  rw [zpow_mul]
  exact zpow_le_zpow_left₀ h (by norm_num) (by norm_num)

theorem ten_zpow_le (h : x ≤ 0) : (10 : ℚ) ^ x ≤ 2 ^ (3 * x) := by
  have hinv := eight_zpow_le (Int.neg_nonneg_of_nonpos h)
  rw [Int.mul_neg, zpow_neg, zpow_neg] at hinv
  exact (inv_le_inv₀ (two_zpow_pos _) (zpow_pos (by norm_num) x)).mp hinv

theorem large_of_size (hn : 0 < n) (hx : 0 ≤ x) (h : 1024 ≤ (n.log2 : Int) + 3 * x) :
    (2 : ℚ) ^ (1024 : Int) ≤ n * 10 ^ x :=
  calc (2 : ℚ) ^ (1024 : Int) ≤ 2 ^ ((n.log2 : Int) + 3 * x) :=
        zpow_le_zpow_right₀ one_le_two h
    _ = 2 ^ (n.log2 : Int) * 2 ^ (3 * x) := zpow_add₀ two_ne_zero ..
    _ ≤ n * 10 ^ x :=
        mul_le_mul (log2_bounds hn).1 (eight_zpow_le hx) (two_zpow_pos _).le (by positivity)

theorem small_of_size (hn : 0 < n) (hx : x ≤ 0) (h : (n.log2 : Int) + 1 + 3 * x ≤ -1075) :
    (n : ℚ) * 10 ^ x < (2 : ℚ) ^ (-1075 : Int) :=
  calc (n : ℚ) * 10 ^ x ≤ n * 2 ^ (3 * x) :=
        mul_le_mul_of_nonneg_left (ten_zpow_le hx) (by positivity)
    _ < 2 ^ ((n.log2 : Int) + 1) * 2 ^ (3 * x) :=
        mul_lt_mul_of_pos_right (log2_bounds hn).2 (two_zpow_pos _)
    _ = 2 ^ ((n.log2 : Int) + 1 + 3 * x) := (zpow_add₀ two_ne_zero ..).symm
    _ ≤ 2 ^ (-1075 : Int) := zpow_le_zpow_right₀ one_le_two h

/-- Reading rounds the exact value, once; where the size of the digits decides, it
decides the same. -/
theorem bits_eq_nearest (d : Decimal) : d.bits = nearest d.value := by
  obtain ⟨n, x⟩ := d
  have hten := zpow_eq_div 10 x
  rw [Nat.cast_ofNat] at hten
  rcases Nat.eq_zero_or_pos n with rfl | hn
  · simp [bits, value, nearest]
  simp only [bits, value, if_neg hn.ne']
  by_cases hx : 0 ≤ x
  · have hneg : (-x).toNat = 0 := by omega
    rw [if_pos hx]
    split
    · rename_i hsize
      exact (nearest_of_large (large_of_size hn hx hsize)).symm
    · rw [nearestBits_eq _ one_pos, hten, hneg]
      push_cast
      norm_num
  · have hpos : x.toNat = 0 := by omega
    rw [if_neg hx]
    split
    · rename_i hsize
      have hvalue : (0 : ℚ) ≤ n * 10 ^ x :=
        mul_nonneg n.cast_nonneg (zpow_nonneg (by norm_num) x)
      exact (nearest_of_small hvalue (small_of_size hn (by omega) hsize)).symm
    · rw [nearestBits_eq _ (Nat.pow_pos (by norm_num)), hten, hpos, mul_div_assoc']
      norm_num

theorem bits_le (d : Decimal) : d.bits ≤ infinityBits := by
  rw [bits_eq_nearest]
  exact nearest_le _

/-- Decimals of one value are read as one number. -/
theorem bits_congr {c d : Decimal} (h : c.value = d.value) : c.bits = d.bits := by
  rw [bits_eq_nearest, bits_eq_nearest, h]

/-- A decimal with the value of a finite number is read as that number. -/
theorem bits_of_value {d : Decimal} {m : Nat} {e : Int} (h : Canonical m e)
    (hvalue : d.value = m * 2 ^ e) : d.bits = magnitudeBits m e := by
  rw [bits_eq_nearest, hvalue, nearest_of_canonical h]

theorem value_exact (m : Nat) (e : Int) : (exact m e).value = m * 2 ^ e := by
  rcases Int.le_total 0 e with he | he
  · obtain ⟨k, rfl⟩ := Int.eq_ofNat_of_zero_le he
    have hneg : (-(k : Int)).toNat = 0 := by omega
    simp [exact, value, hneg]
  · obtain ⟨k, hk⟩ := Int.eq_ofNat_of_zero_le (Int.neg_nonneg_of_nonpos he)
    obtain rfl : e = -(k : Int) := by omega
    have hneg : (-(k : Int)).toNat = 0 := by omega
    have hten : (10 : ℚ) ^ k = 2 ^ k * 5 ^ k := by
      rw [← mul_pow]
      norm_num
    simp only [exact, value, hneg, neg_neg, Int.toNat_natCast, min_eq_left he, pow_zero, mul_one,
      zpow_neg, zpow_natCast, hten]
    push_cast
    field_simp

theorem bits_search {m : Nat} {e : Int} (h : Canonical m e) (steps : Nat) :
    (search m e steps).bits = magnitudeBits m e := by
  induction steps with
  | zero => exact bits_of_value h (value_exact m e)
  | succ steps ih =>
    rw [search]
    cases hgrid : onGrid? m e (min e 0 + (steps + 1 : Nat)) with
    | none => exact ih
    | some d => exact bits_of_onGrid? hgrid

/-- The shortest decimal is read as the number it was made for. -/
theorem bits_shortest {m : Nat} {e : Int} (h : Canonical m e) :
    (shortest m e).bits = magnitudeBits m e :=
  bits_search h _

end Decimal

end Reckoner
