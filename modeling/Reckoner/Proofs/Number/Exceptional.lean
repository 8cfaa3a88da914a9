import Mathlib.Analysis.SpecialFunctions.Pow.Real
import Reckoner.Proofs.Number.Written

/-!
Quotients and powers where the machine has no ordinary result. A float is one of four kinds,
and each is taken apart by the machine's own operations as it is by its bits; so signs,
zeros and parity can be told from the exact value. A quotient over zero is then the
machine's own, and an infinite power has the sign of the exact one.
-/

namespace Reckoner.Binary64

open Float.Model

def unpacked (x : Float) : UnpackedFloat := UnpackedFloat.unpack .binary64 x.toBits.toBitVec

section Kind

variable {sign : Sign} {field : BitVec 11} {fraction : BitVec 52} {x : Float}

theorem signOf_of_word (h : x.toBits.toBitVec = word sign field fraction) :
    Arithmetic.signOf x = sign ∧
      x.toBits.toNat = signBits sign + (field.toNat * topBit + fraction.toNat) := by
  have hbits : x.toBits.toNat = signBits sign + (field.toNat * topBit + fraction.toNat) := by
    rw [← toNat_word, ← h]
    rfl
  have hfield := field.isLt
  have hfraction := fraction.isLt
  refine ⟨?_, hbits⟩
  rw [Arithmetic.signOf, hbits, topBit_eq]
  cases sign with
  | plus => exact if_pos (by rw [signBits, signBit_eq]; omega)
  | minus => exact if_neg (by rw [signBits, signBit_eq]; omega)

theorem ofFloat_of_word (h : x.toBits.toBitVec = word sign field fraction) :
    ofFloat x =
      if field.toNat = 2047 then if fraction.toNat = 0 then .infinity sign else .nan
      else if field.toNat = 0 then .finite sign fraction.toNat (-1074)
      else .finite sign (topBit + fraction.toNat) (field.toNat - 1075) := by
  obtain ⟨hsign, hbits⟩ := signOf_of_word h
  have hfield := field.isLt
  have hfraction := fraction.isLt
  have hfields : x.toBits.toNat / topBit % 2048 = field.toNat ∧
      x.toBits.toNat % topBit = fraction.toNat := by
    rw [hbits, topBit_eq]
    cases sign <;> simp only [signBits, signBit_eq] <;> omega
  rw [Arithmetic.signOf] at hsign
  simp only [ofFloat, hsign, hfields.1, hfields.2]

/-- The kinds of floats. Those that are neither zero nor infinite have the same significand
and exponent for the machine as they have here. -/
inductive Kind (x : Float) : Prop
  | nan (hx : x = Float.nan)
  | infinity (sign : Sign) (hx : x = toFloat sign infinityBits)
  | zero (sign : Sign) (hx : x = toFloat sign 0)
  | finite (sign : Sign) (m : Nat) (e : Int) (hm : 0 < m) (hsign : Arithmetic.signOf x = sign)
      (hx : unpacked x = .finite (modelSign sign) m e hm) (hof : ofFloat x = .finite sign m e)

theorem kind (x : Float) : Kind x := by
  obtain ⟨sign, field, fraction, hword⟩ := exists_word x.toBits.toBitVec
  have hsign := (signOf_of_word hword).1
  have hof := ofFloat_of_word hword
  have heq : x = toFloat sign (field.toNat * topBit + fraction.toNat) := by
    rw [toFloat_word, ← hword]
    exact (Float.ofBits_toBits x).symm
  have hx : unpacked x = UnpackedFloat.unpack .binary64 (word sign field fraction) := by
    rw [unpacked, hword]
  simp only [UnpackedFloat.unpack, unpackSign_word, unpackExponent_word, unpackMantissa_word] at hx
  by_cases hfull : field = -1#11
  · by_cases hzero : fraction = 0#52
    · rw [hfull, hzero] at heq
      exact .infinity sign heq
    · rw [if_pos hfull, if_neg hzero] at hx
      have hnan : (unpacked x).isNaN = true := by rw [hx]; rfl
      exact .nan (by simpa using (show x.isNaN = true from hnan))
  · have hnot : field.toNat ≠ 2047 := fun h => hfull (BitVec.eq_of_toNat_eq h)
    rw [if_neg hfull] at hx
    rw [if_neg hnot] at hof
    by_cases hnone : field = 0#11
    · rw [if_pos hnone] at hx
      rw [if_pos (by rw [hnone]; rfl)] at hof
      by_cases hzero : fraction = 0#52
      · rw [hnone, hzero] at heq
        exact .zero sign heq
      · rw [dif_neg hzero] at hx
        refine .finite sign _ _ _ hsign hx ?_
        rw [hof, hnone]
        rfl
    · have hne : field.toNat ≠ 0 := fun h => hnone (BitVec.eq_of_toNat_eq h)
      rw [if_neg hnone] at hx
      rw [if_neg hne] at hof
      have hm : (1#1 ++ fraction).toNat = topBit + fraction.toNat := by
        rw [BitVec.toNat_append, ← Nat.shiftLeft_add_eq_or_of_lt fraction.isLt]
        rfl
      refine .finite sign _ _ _ hsign hx ?_
      rw [hof, hm]
      rfl

end Kind

theorem lt_iff {x y : Float} : x < y ↔ (unpacked x).lt (unpacked y) = true := by
  change decide (x.toModel < y.toModel) = true ↔ _
  exact decide_eq_true_iff

theorem toFloat_plus_zero : toFloat .plus 0 = 0.0 := rfl

theorem toFloat_minus_zero : toFloat .minus 0 = -0.0 := rfl

theorem unpacked_nan : unpacked Float.nan = .notANumber := rfl

theorem unpacked_infinity (sign : Sign) :
    unpacked (toFloat sign infinityBits) = .infinity (modelSign sign) := by
  cases sign <;> rfl

theorem unpacked_toFloat_zero (sign : Sign) :
    unpacked (toFloat sign 0) = .zero (modelSign sign) := by
  cases sign <;> rfl

theorem unpacked_zero : unpacked 0.0 = .zero .positive := rfl

def signed : Sign → ℚ → ℚ
  | .plus, q => q
  | .minus, q => -q

def value? (x : Float) : Option ℚ :=
  match ofFloat x with
  | .finite sign m e => some (signed sign (m * 2 ^ e))
  | _ => none

section Value

variable {x : Float} {q : ℚ} {sign : Sign} {m : Nat} {e : Int}

theorem value?_nan : value? Float.nan = none := by
  have hof : ofFloat Float.nan = .nan := rfl
  rw [value?, hof]

theorem value?_infinity (sign : Sign) : value? (toFloat sign infinityBits) = none := by
  rw [value?, ofFloat_infinity]

theorem value?_zero (sign : Sign) : value? (toFloat sign 0) = some 0 := by
  have hof : ofFloat (toFloat sign 0) = .finite sign 0 (-1074) := by
    cases sign <;> rfl
  rw [value?, hof]
  cases sign <;> simp [signed]

theorem value?_finite (hof : ofFloat x = .finite sign m e) :
    value? x = some (signed sign (m * 2 ^ e)) := by
  rw [value?, hof]

theorem signed_lt_zero_iff (hq : 0 < q) : signed sign q < 0 ↔ sign = .minus := by
  cases sign with
  | plus => simp [signed, hq.le]
  | minus => simp [signed, hq]

theorem signed_ne_zero (hq : 0 < q) : signed sign q ≠ 0 := by
  cases sign <;> simp [signed, hq.ne']

theorem magnitude_pos (hm : 0 < m) (e : Int) : (0 : ℚ) < m * 2 ^ e :=
  mul_pos (by exact_mod_cast hm) (two_zpow_pos e)

/-- What has a value is a zero, or has one with its sign. -/
theorem kind_of_value? (h : value? x = some q) :
    (∃ sign, x = toFloat sign 0 ∧ q = 0) ∨
      ∃ (sign : Sign) (m : Nat) (e : Int) (hm : 0 < m), Arithmetic.signOf x = sign ∧
        unpacked x = .finite (modelSign sign) m e hm ∧ q = signed sign (m * 2 ^ e) := by
  cases kind x with
  | nan hx => simp [hx, value?_nan] at h
  | infinity sign hx => simp [hx, value?_infinity] at h
  | zero sign hx =>
    rw [hx, value?_zero] at h
    exact .inl ⟨sign, hx, (Option.some.inj h).symm⟩
  | finite sign m e hm hsign hx hof =>
    rw [value?_finite hof] at h
    exact .inr ⟨sign, m, e, hm, hsign, hx, (Option.some.inj h).symm⟩

theorem isFinite_iff : x.isFinite = true ↔ ∃ q, value? x = some q := by
  have hclass : x.isFinite = (unpacked x).isFinite := rfl
  rw [hclass]
  cases kind x with
  | nan hx =>
    rw [hx, unpacked_nan, value?_nan]
    exact iff_of_false nofun nofun
  | infinity sign hx =>
    rw [hx, unpacked_infinity, value?_infinity]
    exact iff_of_false nofun nofun
  | zero sign hx =>
    rw [hx, unpacked_toFloat_zero, value?_zero]
    exact iff_of_true rfl ⟨0, rfl⟩
  | finite sign m e hm hsign hx hof =>
    rw [hx, value?_finite hof]
    exact iff_of_true rfl ⟨_, rfl⟩

theorem lt_zero_iff (h : value? x = some q) : x < 0.0 ↔ q < 0 := by
  rw [lt_iff, unpacked_zero]
  rcases kind_of_value? h with ⟨sign, hx, hq⟩ | ⟨sign, m, e, hm, -, hx, hq⟩
  · rw [hx, hq, unpacked_toFloat_zero]
    exact iff_of_false nofun (lt_irrefl 0)
  · rw [hx, hq, signed_lt_zero_iff (magnitude_pos hm e)]
    cases sign with
    | plus => exact iff_of_false nofun nofun
    | minus => exact iff_of_true rfl rfl

theorem beq_zero_iff : (x == 0.0) = true ↔ value? x = some 0 := by
  have hclass : (x == 0.0) = (unpacked x).beq (unpacked 0.0) := rfl
  rw [hclass, unpacked_zero]
  cases kind x with
  | nan hx =>
    rw [hx, unpacked_nan, value?_nan]
    exact iff_of_false nofun nofun
  | infinity sign hx =>
    rw [hx, unpacked_infinity, value?_infinity]
    cases sign <;> exact iff_of_false nofun nofun
  | zero sign hx =>
    rw [hx, unpacked_toFloat_zero]
    exact iff_of_true rfl (value?_zero sign)
  | finite sign m e hm hsign hx hof =>
    rw [hx, value?_finite hof, Option.some.injEq]
    refine iff_of_false ?_ (signed_ne_zero (magnitude_pos hm e))
    cases sign <;> exact nofun

/-- Only the two zeros have the value zero. -/
theorem eq_zero_of_value? (h : value? x = some 0) : ∃ sign, x = toFloat sign 0 := by
  rcases kind_of_value? h with ⟨sign, hx, -⟩ | ⟨sign, m, e, hm, -, -, hq⟩
  · exact ⟨sign, hx⟩
  · exact absurd hq.symm (signed_ne_zero (magnitude_pos hm e))

end Value

section Whole

variable {sign : Sign} {m k : Nat} {e : Int}

/-- A magnitude is recognized as whole exactly if its value is. -/
theorem whole?_eq_some_iff :
    (Binary64.finite sign m e).whole? = some k ↔ (k : ℚ) = m * 2 ^ e := by
  refine ⟨Numeral.value_of_whole?, fun h => ?_⟩
  have hcross : k * 2 ^ (-e).toNat = m * 2 ^ e.toNat := by
    rw [show ((2 : ℚ) ^ e) = _ from zpow_eq_div 2 e] at h
    push_cast at h
    rw [← mul_div_assoc, eq_div_iff (by positivity)] at h
    exact_mod_cast h
  simp only [whole?]
  split
  · have hneg : (-e).toNat = 0 := by omega
    rw [hneg, Nat.pow_zero, Nat.mul_one] at hcross
    rw [hcross]
  · have hpos : e.toNat = 0 := by omega
    rw [hpos, Nat.pow_zero, Nat.mul_one] at hcross
    rw [← hcross, if_pos (Nat.mul_mod_left _ _), Nat.mul_div_cancel _ (Nat.two_pow_pos _)]

theorem whole?_of_signed {n : Int} (h : signed sign (m * 2 ^ e) = n) :
    (Binary64.finite sign m e).whole? = some n.natAbs := by
  refine whole?_eq_some_iff.mpr ?_
  have hnonneg : (0 : ℚ) ≤ m * 2 ^ e := mul_nonneg (Nat.cast_nonneg m) (two_zpow_pos e).le
  rw [Nat.cast_natAbs, Int.cast_abs, ← h]
  cases sign with
  | plus => exact abs_of_nonneg hnonneg
  | minus => rw [signed, abs_neg, abs_of_nonneg hnonneg]

theorem exists_signed_of_whole? (h : (Binary64.finite sign m e).whole? = some k) :
    ∃ n : Int, n.natAbs = k ∧ signed sign (m * 2 ^ e) = n := by
  have hk := whole?_eq_some_iff.mp h
  cases sign with
  | plus => exact ⟨k, Int.natAbs_natCast k, by simp [signed, ← hk]⟩
  | minus => exact ⟨-k, by simp, by simp [signed, ← hk]⟩

theorem isWhole_iff {x : Float} :
    Arithmetic.isWhole x = true ↔ ∃ n : Int, value? x = some (n : ℚ) := by
  rw [Arithmetic.isWhole, value?]
  cases ofFloat x with
  | nan => simp [whole?]
  | infinity sign => simp [whole?]
  | finite sign m e =>
    simp only [Option.some.injEq, Option.isSome_iff_exists]
    constructor
    · rintro ⟨k, hk⟩
      obtain ⟨n, -, hn⟩ := exists_signed_of_whole? hk
      exact ⟨n, hn⟩
    · rintro ⟨n, hn⟩
      exact ⟨n.natAbs, whole?_of_signed hn⟩

theorem isOdd_iff {x : Float} :
    Arithmetic.isOdd x = true ↔ ∃ n : Int, Odd n ∧ value? x = some (n : ℚ) := by
  rw [Arithmetic.isOdd, value?]
  cases ofFloat x with
  | nan => simp [whole?]
  | infinity sign => simp [whole?]
  | finite sign m e =>
    simp only [Option.some.injEq]
    constructor
    · intro h
      split at h
      · rename_i k hk
        obtain ⟨n, rfl, hn⟩ := exists_signed_of_whole? hk
        exact ⟨n, Int.natAbs_odd.mp (Nat.odd_iff.mpr (by simpa using h)), hn⟩
      · cases h
    · rintro ⟨n, hodd, hn⟩
      rw [whole?_of_signed hn]
      simpa using Nat.odd_iff.mp (Int.natAbs_odd.mpr hodd)

end Whole

section Sign

variable {x y : Float} {q : ℚ}

theorem signOf_eq_minus_iff (h : value? x = some q) (hq : q ≠ 0) :
    Arithmetic.signOf x = .minus ↔ q < 0 := by
  rcases kind_of_value? h with ⟨-, -, hzero⟩ | ⟨sign, m, e, hm, hsign, -, rfl⟩
  · exact absurd hzero hq
  · rw [hsign, signed_lt_zero_iff (magnitude_pos hm e)]

theorem signOf_eq_minus_iff_of_zero (h : value? x = some 0) :
    Arithmetic.signOf x = .minus ↔ x = -0.0 := by
  obtain ⟨sign, rfl⟩ := eq_zero_of_value? h
  rw [signOf_toFloat sign (Nat.zero_le _)]
  cases sign with
  | plus => exact iff_of_false nofun (by decide)
  | minus => exact iff_of_true rfl toFloat_minus_zero

/-- The rule for a quotient over zero is that of the machine. -/
theorem divide_eq_div (x y : Float) : Arithmetic.divide x y = x / y := by
  rw [Arithmetic.divide]
  split
  · rename_i hy
    obtain ⟨t, rfl⟩ := eq_zero_of_value? (beq_zero_iff.mp hy)
    cases kind x with
    | nan hx => subst hx; cases t <;> rfl
    | infinity sign hx => subst hx; cases sign <;> cases t <;> rfl
    | zero sign hx => subst hx; cases sign <;> cases t <;> rfl
    | finite sign m e hm hsign hx hof =>
      have hzero : ¬ (x == 0.0) = true := by
        rw [beq_zero_iff, value?_finite hof, Option.some.injEq]
        exact signed_ne_zero (magnitude_pos hm e)
      have hclass : x.isNaN = (unpacked x).isNaN := rfl
      have hordinary : ¬ (x == 0.0 || x.isNaN) = true := by
        rw [Bool.or_eq_true, hclass, hx]
        exact not_or.mpr ⟨hzero, nofun⟩
      have hdiv : x / toFloat t 0 = Float.ofModel (Float.Model.pack
        (UnpackedFloat.div .binary64 (unpacked x) (unpacked (toFloat t 0)))) := rfl
      rw [if_neg hordinary, hdiv, hx, unpacked_toFloat_zero, hsign,
        signOf_toFloat t (Nat.zero_le _)]
      cases sign <;> cases t <;> rfl
  · rfl

end Sign

section Power

open Arithmetic

variable {base exponent : Float} {b y : ℚ}

/-- The power of the two numbers is a real number other than zero. -/
def HasRealPower (b y : ℚ) : Prop := 0 < b ∨ b < 0 ∧ ∃ n : Int, y = n

theorem HasRealPower.ne_zero (h : HasRealPower b y) : b ≠ 0 :=
  h.elim (fun hpos => hpos.ne') fun hneg => hneg.1.ne

def HasSign : Sign → ℝ → Prop
  | .plus, r => 0 < r
  | .minus, r => r < 0

inductive Operands (base exponent : Float) : Prop
  | special (h : value? base = none ∨ value? exponent = none)
  | zero (y : ℚ) (hb : value? base = some 0) (hy : value? exponent = some y)
  | fraction (b y : ℚ) (hb : value? base = some b) (hy : value? exponent = some y)
      (hneg : b < 0) (hn : ¬ ∃ n : Int, y = n)
  | real (b y : ℚ) (hb : value? base = some b) (hy : value? exponent = some y)
      (h : HasRealPower b y)

theorem operands (base exponent : Float) : Operands base exponent := by
  cases hb : value? base with
  | none => exact .special (.inl hb)
  | some b =>
    cases hy : value? exponent with
    | none => exact .special (.inr hy)
    | some y =>
      rcases lt_trichotomy b 0 with hneg | rfl | hpos
      · by_cases hn : ∃ n : Int, y = n
        · exact .real b y hb hy (.inr ⟨hneg, hn⟩)
        · exact .fraction b y hb hy hneg hn
      · exact .zero y hb hy
      · exact .real b y hb hy (.inl hpos)

theorem powerFault?_of_none (h : value? base = none ∨ value? exponent = none) :
    powerFault? base exponent = none := by
  refine if_neg ?_
  rw [Bool.and_eq_true, isFinite_iff, isFinite_iff]
  rcases h with h | h <;> simp [h]

theorem powerFault?_of_some (hb : value? base = some b) (hy : value? exponent = some y) :
    powerFault? base exponent =
      if base == 0.0 then if exponent < 0.0 then some .pole else none
      else if base < 0.0 && !isWhole exponent then some .domain
      else if (Float.pow base exponent).isInf then some .overflow else none :=
  if_pos (Bool.and_eq_true_iff.mpr ⟨isFinite_iff.mpr ⟨b, hb⟩, isFinite_iff.mpr ⟨y, hy⟩⟩)

theorem powerFault?_of_zero (hb : value? base = some 0) (hy : value? exponent = some y) :
    powerFault? base exponent = if y < 0 then some .pole else none := by
  rw [powerFault?_of_some hb hy, if_pos (beq_zero_iff.mpr hb)]
  simp only [lt_zero_iff hy]

theorem powerFault?_of_fraction (hb : value? base = some b) (hy : value? exponent = some y)
    (hneg : b < 0) (hn : ¬ ∃ n : Int, y = n) : powerFault? base exponent = some .domain := by
  have hwhole : ¬ isWhole exponent = true := by simpa [isWhole_iff, hy] using hn
  rw [powerFault?_of_some hb hy, if_neg (by simp [beq_zero_iff, hb, hneg.ne]),
    if_pos (by simp [lt_zero_iff hb, hneg, hwhole])]

theorem powerFault?_of_real (hb : value? base = some b) (hy : value? exponent = some y)
    (h : HasRealPower b y) : powerFault? base exponent =
      if (Float.pow base exponent).isInf then some .overflow else none := by
  rw [powerFault?_of_some hb hy]
  rcases h with hpos | ⟨hneg, n, rfl⟩
  · rw [if_neg (by simp [beq_zero_iff, hb, hpos.ne']),
      if_neg (by simp [lt_zero_iff hb, hpos.le])]
  · have hwhole : isWhole exponent = true := isWhole_iff.mpr ⟨n, hy⟩
    rw [if_neg (by simp [beq_zero_iff, hb, hneg.ne]), if_neg (by simp [hwhole])]

theorem powerSign_eq_minus_iff :
    powerSign base exponent = .minus ↔
      signOf base = .minus ∧ ∃ n : Int, Odd n ∧ value? exponent = some (n : ℚ) := by
  rw [powerSign, ← isOdd_iff]
  split
  · rename_i h
    simp [h]
  · rename_i h
    simp [h]

theorem hasSign_rpow {sign : Sign} (h : HasRealPower b y)
    (hsign : sign = .minus ↔ b < 0 ∧ ∃ n : Int, Odd n ∧ y = n) :
    HasSign sign ((b : ℝ) ^ (y : ℝ)) := by
  rcases h with hpos | ⟨hneg, n, rfl⟩
  · obtain rfl : sign = .plus := by
      cases sign with
      | plus => rfl
      | minus => exact absurd (hsign.mp rfl).1 hpos.not_gt
    exact Real.rpow_pos_of_pos (by exact_mod_cast hpos) _
  · have hcast : (b : ℝ) < 0 := by exact_mod_cast hneg
    rw [Rat.cast_intCast, Real.rpow_intCast]
    cases sign with
    | plus =>
      have heven : Even n := by
        refine Int.not_odd_iff_even.mp fun hodd => ?_
        exact absurd (hsign.mpr ⟨hneg, n, hodd, rfl⟩) nofun
      exact heven.zpow_pos hcast.ne
    | minus =>
      obtain ⟨k, hodd, hk⟩ := (hsign.mp rfl).2
      obtain rfl : n = k := by exact_mod_cast hk
      exact hodd.zpow_neg hcast

end Power

end Reckoner.Binary64

namespace Reckoner.Arithmetic

open Binary64

section Rules

structure NumberRules (x : Float) : Prop where
  finite_iff : x.isFinite = true ↔ ∃ q, value? x = some q
  zero_iff : value? x = some 0 ↔ x = 0.0 ∨ x = -0.0
  odd_iff : isOdd x = true ↔ ∃ n : Int, Odd n ∧ value? x = some (n : ℚ)

structure QuotientRules (x y : Float) : Prop where
  machine : divide x y = x / y
  undefined_iff (hy : value? y = some 0) :
    (divide x y).isNaN = true ↔ value? x = some 0 ∨ x.isNaN = true
  infinite (hy : value? y = some 0) (hx : ¬ (value? x = some 0 ∨ x.isNaN = true)) :
    divide x y = infinity ((signOf x).times (signOf y))

/-- What is told of a power: which fault occurs, and the result after each. An infinity after
an overflow has the sign of the exact power. -/
structure PowerRules (base exponent : Float) : Prop where
  overflow_iff : powerFault? base exponent = some .overflow ↔
    (∃ b y, value? base = some b ∧ value? exponent = some y ∧ HasRealPower b y) ∧
      (Float.pow base exponent).isInf = true
  pole_iff : powerFault? base exponent = some .pole ↔
    value? base = some 0 ∧ ∃ y, value? exponent = some y ∧ y < 0
  domain_iff : powerFault? base exponent = some .domain ↔
    ∃ b y, value? base = some b ∧ value? exponent = some y ∧ b < 0 ∧ ¬ ∃ n : Int, y = n
  ordinary (h : powerFault? base exponent = none) :
    power base exponent = Float.pow base exponent
  overflow (h : powerFault? base exponent = some .overflow) :
    ∃ b y sign, value? base = some b ∧ value? exponent = some y ∧
      power base exponent = infinity sign ∧ HasSign sign ((b : ℝ) ^ (y : ℝ)) ∧
      (sign = .minus ↔ b < 0 ∧ ∃ n : Int, Odd n ∧ y = n)
  pole (h : powerFault? base exponent = some .pole) :
    ∃ sign, power base exponent = infinity sign ∧
      (sign = .minus ↔ base = -0.0 ∧ ∃ n : Int, Odd n ∧ value? exponent = some (n : ℚ))
  domain (h : powerFault? base exponent = some .domain) : power base exponent = nan

variable (x y base exponent : Float)

theorem numberRules : NumberRules x where
  finite_iff := isFinite_iff
  zero_iff := by
    constructor
    · intro h
      obtain ⟨sign, rfl⟩ := eq_zero_of_value? h
      cases sign with
      | plus => exact .inl toFloat_plus_zero
      | minus => exact .inr toFloat_minus_zero
    · rintro (rfl | rfl)
      · rw [← toFloat_plus_zero, value?_zero]
      · rw [← toFloat_minus_zero, value?_zero]
  odd_iff := isOdd_iff

theorem quotientRules : QuotientRules x y := by
  have hover (hy : value? y = some 0) : divide x y =
      if x == 0.0 || x.isNaN then nan else infinity ((signOf x).times (signOf y)) :=
    if_pos (beq_zero_iff.mpr hy)
  have hcond : (x == 0.0 || x.isNaN) = true ↔ value? x = some 0 ∨ x.isNaN = true := by
    rw [Bool.or_eq_true, beq_zero_iff]
  refine ⟨divide_eq_div x y, fun hy => ?_, fun hy hx => ?_⟩
  · rw [hover hy, ← hcond]
    split
    · rename_i h
      exact iff_of_true rfl h
    · rename_i h
      refine iff_of_false ?_ h
      cases (signOf x).times (signOf y) <;> exact nofun
  · rw [hover hy, if_neg (mt hcond.mp hx)]

theorem powerFault?_eq_overflow_iff : powerFault? base exponent = some .overflow ↔
    (∃ b y, value? base = some b ∧ value? exponent = some y ∧ HasRealPower b y) ∧
      (Float.pow base exponent).isInf = true := by
  cases operands base exponent with
  | special h =>
    rw [powerFault?_of_none h]
    rcases h with h | h <;> simp [h]
  | zero y hb hy =>
    rw [powerFault?_of_zero hb hy]
    split <;> simp [hb, HasRealPower]
  | fraction b y hb hy hneg hn =>
    rw [powerFault?_of_fraction hb hy hneg hn]
    simp only [hb, hy]
    simp [HasRealPower, hneg.le, hn]
  | real b y hb hy h =>
    rw [powerFault?_of_real hb hy h]
    simp [hb, hy, h]

theorem powerFault?_eq_pole_iff : powerFault? base exponent = some .pole ↔
    value? base = some 0 ∧ ∃ y, value? exponent = some y ∧ y < 0 := by
  cases operands base exponent with
  | special h =>
    rw [powerFault?_of_none h]
    rcases h with h | h <;> simp [h]
  | zero y hb hy =>
    rw [powerFault?_of_zero hb hy]
    simp [hb, hy]
  | fraction b y hb hy hneg hn =>
    rw [powerFault?_of_fraction hb hy hneg hn]
    simp [hb, hneg.ne]
  | real b y hb hy h =>
    rw [powerFault?_of_real hb hy h]
    split <;> simp [hb, h.ne_zero]

theorem powerFault?_eq_domain_iff : powerFault? base exponent = some .domain ↔
    ∃ b y, value? base = some b ∧ value? exponent = some y ∧ b < 0 ∧ ¬ ∃ n : Int, y = n := by
  cases operands base exponent with
  | special h =>
    rw [powerFault?_of_none h]
    rcases h with h | h <;> simp [h]
  | zero y hb hy =>
    rw [powerFault?_of_zero hb hy]
    split <;> simp [hb]
  | fraction b y hb hy hneg hn =>
    rw [powerFault?_of_fraction hb hy hneg hn]
    exact iff_of_true rfl ⟨b, y, hb, hy, hneg, hn⟩
  | real b y hb hy h =>
    rw [powerFault?_of_real hb hy h]
    refine iff_of_false (by split <;> simp) ?_
    rintro ⟨b', y', hb', hy', hneg, hn⟩
    obtain rfl := Option.some.inj (hb.symm.trans hb')
    obtain rfl := Option.some.inj (hy.symm.trans hy')
    exact h.elim (fun hpos => absurd hpos hneg.not_gt) fun hint => hn hint.2

theorem powerRules : PowerRules base exponent where
  overflow_iff := powerFault?_eq_overflow_iff base exponent
  pole_iff := powerFault?_eq_pole_iff base exponent
  domain_iff := powerFault?_eq_domain_iff base exponent
  ordinary h := by rw [power, h]
  overflow h := by
    obtain ⟨⟨b, y, hb, hy, hreal⟩, -⟩ := (powerFault?_eq_overflow_iff base exponent).mp h
    have hsign : powerSign base exponent = .minus ↔ b < 0 ∧ ∃ n : Int, Odd n ∧ y = n := by
      rw [powerSign_eq_minus_iff, signOf_eq_minus_iff hb hreal.ne_zero, hy]
      simp only [Option.some.injEq]
    refine ⟨b, y, powerSign base exponent, hb, hy, ?_, hasSign_rpow hreal hsign, hsign⟩
    rw [power, h]
  pole h := by
    obtain ⟨hb, -⟩ := (powerFault?_eq_pole_iff base exponent).mp h
    refine ⟨powerSign base exponent, by rw [power, h], ?_⟩
    rw [powerSign_eq_minus_iff, signOf_eq_minus_iff_of_zero hb]
  domain h := by rw [power, h]

end Rules

/-- Every quotient is that of the machine, over a zero not a number or infinite with the sign
of the product; a power is that of the machine unless it has a fault, and then infinite with
the sign of the exact power or of the pole, or not a number. -/
theorem quotients_and_powers :
    (∀ x, NumberRules x) ∧
    (∀ sign, (infinity sign).isInf = true ∧ signOf (infinity sign) = sign) ∧
    nan.isNaN = true ∧
    (∀ x y, QuotientRules x y) ∧
    ∀ base exponent, PowerRules base exponent := by
  refine ⟨numberRules, fun sign => ?_, rfl, quotientRules, powerRules⟩
  cases sign <;> exact ⟨rfl, rfl⟩

/-- A pole at the negative zero, where the exponent is odd; a quotient over that zero; and a
root of a negative number. -/
theorem quotients_and_powers_of_negatives :
    divide (-1.0) (-0.0) = infinity .plus ∧
    power (-0.0) (-3.0) = infinity .minus ∧
    power (-8.0) 0.5 = nan := by
  obtain ⟨hnumber, -, -, hquotient, hpower⟩ := quotients_and_powers
  have hthree : value? (-3.0) = some ((-3 : Int) : ℚ) := by
    have hof : ofFloat (-3.0) = .finite .minus (3 * 2 ^ (51 : Nat)) (-51) := rfl
    rw [value?_finite hof]
    norm_num [signed]
  refine ⟨?_, ?_, (hpower (-8.0) 0.5).domain rfl⟩
  · have hover : value? (-0.0) = some 0 := (hnumber (-0.0)).zero_iff.mpr (.inr rfl)
    refine (hquotient (-1.0) (-0.0)).infinite hover ?_
    rw [(hnumber (-1.0)).zero_iff]
    decide
  · obtain ⟨sign, hresult, hsign⟩ := (hpower (-0.0) (-3.0)).pole rfl
    obtain rfl : sign = .minus := hsign.mpr ⟨rfl, -3, by decide, hthree⟩
    exact hresult

end Reckoner.Arithmetic
