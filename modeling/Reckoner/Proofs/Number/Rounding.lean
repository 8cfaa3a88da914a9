import Reckoner.Proofs.Number.Bits

/-!
Rounding by quotients of integers is rounding of rational numbers: the numerator and
the denominator matter by their quotient alone. A finite number is rounded to itself,
what is too large to infinity and what is too small to zero.
-/

namespace Reckoner.Binary64

/-- A power with an integer exponent is a quotient of two with natural ones. -/
theorem zpow_eq_div (b : Nat) (z : Int) :
    (b : ℚ) ^ z = ((b ^ z.toNat : Nat) : ℚ) / ((b ^ (-z).toNat : Nat) : ℚ) := by
  rcases Int.le_total 0 z with hz | hz
  · obtain ⟨n, rfl⟩ := Int.eq_ofNat_of_zero_le hz
    have hneg : (-(n : Int)).toNat = 0 := by omega
    simp [hneg]
  · obtain ⟨n, hn⟩ := Int.eq_ofNat_of_zero_le (Int.neg_nonneg_of_nonpos hz)
    obtain rfl : z = -(n : Int) := by omega
    have hneg : (-(n : Int)).toNat = 0 := by omega
    simp [hneg]

theorem log_eq_of_bounds {q : ℚ} {z : Int} (hlow : (2 : ℚ) ^ z ≤ q)
    (hhigh : q < (2 : ℚ) ^ (z + 1)) : Int.log 2 q = z := by
  have hq : 0 < q := lt_of_lt_of_le (zpow_pos (by norm_num) z) hlow
  have hle : z ≤ Int.log 2 q := (Int.zpow_le_iff_le_log Nat.one_lt_two hq).mp hlow
  have hlt : Int.log 2 q < z + 1 := (Int.lt_zpow_iff_log_lt Nat.one_lt_two hq).mp hhigh
  omega

theorem log2_bounds {n : Nat} (hn : 0 < n) :
    (2 : ℚ) ^ (n.log2 : Int) ≤ n ∧ (n : ℚ) < (2 : ℚ) ^ ((n.log2 : Int) + 1) := by
  have hlow : 2 ^ n.log2 ≤ n := Nat.log2_self_le (by omega)
  have hhigh : n < 2 ^ (n.log2 + 1) := Nat.lt_log2_self
  constructor
  · exact_mod_cast hlow
  · exact_mod_cast hhigh

theorem floorLog2_eq {num den : Nat} (hnum : 0 < num) (hden : 0 < den) :
    floorLog2 num den = Int.log 2 ((num : ℚ) / den) := by
  obtain ⟨hnumLow, hnumHigh⟩ := log2_bounds hnum
  obtain ⟨hdenLow, hdenHigh⟩ := log2_bounds hden
  have hd : (0 : ℚ) < den := by exact_mod_cast hden
  have htwo (z : Int) : (0 : ℚ) < 2 ^ z := zpow_pos (by norm_num) z
  have hlow : (2 : ℚ) ^ ((num.log2 : Int) - den.log2 - 1) ≤ num / den := by
    rw [le_div_iff₀ hd]
    calc (2 : ℚ) ^ ((num.log2 : Int) - den.log2 - 1) * den
        ≤ 2 ^ ((num.log2 : Int) - den.log2 - 1) * 2 ^ ((den.log2 : Int) + 1) :=
          mul_le_mul_of_nonneg_left (le_of_lt hdenHigh) (le_of_lt (htwo _))
      _ = 2 ^ (num.log2 : Int) := by
          rw [← zpow_add₀ two_ne_zero]
          congr 1
          ring
      _ ≤ num := hnumLow
  have hhigh : (num : ℚ) / den < 2 ^ ((num.log2 : Int) - den.log2 + 1) := by
    rw [div_lt_iff₀ hd]
    calc (num : ℚ) < 2 ^ ((num.log2 : Int) + 1) := hnumHigh
      _ = 2 ^ ((num.log2 : Int) - den.log2 + 1) * 2 ^ (den.log2 : Int) := by
          rw [← zpow_add₀ two_ne_zero]
          congr 1
          ring
      _ ≤ 2 ^ ((num.log2 : Int) - den.log2 + 1) * den :=
          mul_le_mul_of_nonneg_left hdenLow (le_of_lt (htwo _))
  have htest (e : Int) : den * 2 ^ e.toNat ≤ num * 2 ^ (-e).toNat ↔ (2 : ℚ) ^ e ≤ num / den := by
    have hpos : (0 : ℚ) < ((2 ^ (-e).toNat : Nat) : ℚ) := by positivity
    have hpow := zpow_eq_div 2 e
    rw [Nat.cast_ofNat] at hpow
    rw [hpow, div_le_div_iff₀ hpos hd, mul_comm _ (den : ℚ)]
    norm_cast
  symm
  simp only [floorLog2]
  split
  · rename_i h
    exact log_eq_of_bounds ((htest _).mp h) hhigh
  · rename_i h
    refine log_eq_of_bounds hlow ?_
    rw [sub_add_cancel]
    exact lt_of_not_ge fun hge => h ((htest _).mpr hge)

def roundEven (q : ℚ) : Nat :=
  if Int.fract q < 1 / 2 ∨ (Int.fract q = 1 / 2 ∧ ⌊q⌋₊ % 2 = 0) then ⌊q⌋₊ else ⌊q⌋₊ + 1

theorem roundDiv_eq (num : Nat) {den : Nat} (hden : 0 < den) :
    roundDiv num den = roundEven ((num : ℚ) / den) := by
  have hd : (0 : ℚ) < den := by exact_mod_cast hden
  have hfloor : ⌊(num : ℚ) / den⌋₊ = num / den := Nat.floor_div_eq_div num den
  have hfract : Int.fract ((num : ℚ) / den) = ((num % den : Nat) : ℚ) / den :=
    Int.fract_div_natCast_eq_div_natCast_mod
  have hlt : ((num % den : Nat) : ℚ) / den < 1 / 2 ↔ 2 * (num % den) < den := by
    rw [div_lt_div_iff₀ hd two_pos, one_mul, mul_comm]
    norm_cast
  have heq : ((num % den : Nat) : ℚ) / den = 1 / 2 ↔ 2 * (num % den) = den := by
    rw [div_eq_div_iff hd.ne' two_ne_zero, one_mul, mul_comm]
    norm_cast
  simp only [roundDiv, roundEven, hfloor, hfract, hlt, heq, Bool.or_eq_true, Bool.and_eq_true,
    decide_eq_true_eq]

def nearest (q : ℚ) : Nat :=
  if q = 0 then 0
  else
    let unit := max (Int.log 2 q - 52) (-1074)
    min infinityBits (magnitudeBits (roundEven (q / 2 ^ unit)) unit)

/-- The numerator and the denominator matter by their quotient alone. -/
theorem nearestBits_eq (num : Nat) {den : Nat} (hden : 0 < den) :
    nearestBits num den = nearest ((num : ℚ) / den) := by
  rcases Nat.eq_zero_or_pos num with rfl | hnum
  · simp [nearestBits, nearest]
  · have hn : (num : ℚ) ≠ 0 := by exact_mod_cast hnum.ne'
    have hd : (den : ℚ) ≠ 0 := by exact_mod_cast hden.ne'
    have hscale (unit : Int) : roundDiv (num * 2 ^ (-unit).toNat) (den * 2 ^ unit.toNat) =
        roundEven ((num : ℚ) / den / 2 ^ unit) := by
      rw [roundDiv_eq _ (by positivity)]
      have hpow := zpow_eq_div 2 unit
      rw [Nat.cast_ofNat] at hpow
      rw [hpow]
      congr 1
      push_cast
      field_simp
    rw [nearestBits, nearest, if_neg hnum.ne', if_neg (div_ne_zero hn hd)]
    simp only [floorLog2_eq hnum hden, hscale]

theorem nearest_le (q : ℚ) : nearest q ≤ infinityBits := by
  rw [nearest]
  split
  · exact Nat.zero_le _
  · exact Nat.min_le_left ..

theorem roundEven_natCast (n : Nat) : roundEven (n : ℚ) = n := by
  simp [roundEven]

theorem le_roundEven {n : Nat} {q : ℚ} (h : (n : ℚ) ≤ q) : n ≤ roundEven q := by
  have hfloor : n ≤ ⌊q⌋₊ := Nat.le_floor h
  rw [roundEven]
  split <;> omega

theorem roundEven_of_lt_half {q : ℚ} (hpos : 0 ≤ q) (h : q < 1 / 2) : roundEven q = 0 := by
  have hone : q < 1 := h.trans (by norm_num)
  have hfract : Int.fract q = q := Int.fract_eq_self.mpr ⟨hpos, hone⟩
  rw [roundEven, hfract, if_pos (.inl h), Nat.floor_eq_zero.mpr hone]

theorem two_zpow_pos (z : Int) : (0 : ℚ) < 2 ^ z := zpow_pos two_pos z

/-- A finite number is the nearest to itself. -/
theorem nearest_of_canonical {m : Nat} {e : Int} (h : Canonical m e) :
    nearest (m * 2 ^ e) = magnitudeBits m e := by
  rcases Nat.eq_zero_or_pos m with rfl | hm
  · obtain rfl : e = -1074 := h.full.resolve_left (by decide)
    simp [nearest, magnitudeBits]
  · obtain ⟨hlow, hhigh⟩ := log2_bounds hm
    have hpos := two_zpow_pos e
    have hlog : Int.log 2 ((m : ℚ) * 2 ^ e) = m.log2 + e := by
      apply log_eq_of_bounds
      · rw [zpow_add₀ two_ne_zero]
        exact mul_le_mul_of_nonneg_right hlow hpos.le
      · rw [add_right_comm, zpow_add₀ two_ne_zero]
        exact mul_lt_mul_of_pos_right hhigh hpos
    have hunit : max ((m.log2 : Int) + e - 52) (-1074) = e := by
      have hlt : m.log2 < 53 := (Nat.log2_lt hm.ne').mpr h.lt
      have hleast := h.least
      rcases h.full with hfull | rfl
      · have hle : 52 ≤ m.log2 := (Nat.le_log2 hm.ne').mpr hfull
        omega
      · omega
    have hne : (m : ℚ) * 2 ^ e ≠ 0 := mul_ne_zero (by exact_mod_cast hm.ne') hpos.ne'
    simp only [nearest, if_neg hne, hlog, hunit, mul_div_cancel_right₀ _ hpos.ne',
      roundEven_natCast]
    exact Nat.min_eq_right (Nat.le_of_lt h.magnitudeBits_lt)

theorem nearest_of_large {q : ℚ} (h : (2 : ℚ) ^ (1024 : Int) ≤ q) : nearest q = infinityBits := by
  have hq : 0 < q := lt_of_lt_of_le (two_zpow_pos _) h
  have hlog : 1024 ≤ Int.log 2 q := (Int.zpow_le_iff_le_log Nat.one_lt_two hq).mp h
  have hunit : max (Int.log 2 q - 52) (-1074) = Int.log 2 q - 52 := by omega
  have hsignificand : topBit ≤ roundEven (q / 2 ^ (Int.log 2 q - 52)) := by
    apply le_roundEven
    rw [le_div_iff₀ (two_zpow_pos _)]
    have htop : ((topBit : Nat) : ℚ) = 2 ^ (52 : Int) := by norm_num [topBit]
    rw [htop, ← zpow_add₀ two_ne_zero, add_sub_cancel]
    exact Int.zpow_log_le_self Nat.one_lt_two hq
  simp only [nearest, if_neg hq.ne', hunit]
  apply Nat.min_eq_left
  rw [magnitudeBits]
  simp only [infinityBits_eq, topBit_eq] at *
  omega

theorem nearest_of_small {q : ℚ} (hpos : 0 ≤ q) (h : q < (2 : ℚ) ^ (-1075 : Int)) :
    nearest q = 0 := by
  rcases hpos.eq_or_lt with rfl | hq
  · simp [nearest]
  · have hlog : Int.log 2 q < -1075 := (Int.lt_zpow_iff_log_lt Nat.one_lt_two hq).mp h
    have hunit : max (Int.log 2 q - 52) (-1074) = -1074 := by omega
    have hhalf : q / 2 ^ (-1074 : Int) < 1 / 2 := by
      rw [div_lt_iff₀ (two_zpow_pos _)]
      calc q < 2 ^ (-1075 : Int) := h
        _ = 2 ^ (-1 : Int) * 2 ^ (-1074 : Int) := by
            rw [← zpow_add₀ two_ne_zero]
            rfl
        _ = 1 / 2 * 2 ^ (-1074 : Int) := by norm_num
    have hsignificand := roundEven_of_lt_half (div_nonneg hpos (two_zpow_pos _).le) hhalf
    simp only [nearest, if_neg hq.ne', hunit, hsignificand]
    rfl

end Reckoner.Binary64
