import Mathlib
import Reckoner.Number.Arithmetic

/-!
Numbers and their bits. Every number is `toFloat` of its sign and its magnitude, and
taking it apart gives the sign and a canonical significand and exponent that
`magnitudeBits` puts together again. What is not a number is left out throughout: it
has one value here, whatever its bits were.
-/

namespace Reckoner.Binary64

open Float.Model

variable (sign : Sign) (field : BitVec 11) (fraction : BitVec 52)

def modelSign : Sign → UnpackedFloat.Sign
  | .plus => .positive
  | .minus => .negative

def word : BitVec 64 :=
  UnpackedFloat.packComponents .binary64 (modelSign sign) field fraction

def signBits : Sign → Nat
  | .plus => 0
  | .minus => signBit

theorem topBit_eq : topBit = 4503599627370496 := rfl

theorem signBit_eq : signBit = 9223372036854775808 := rfl

theorem infinityBits_eq : infinityBits = 9218868437227405312 := rfl

theorem toNat_word :
    (word sign field fraction).toNat = signBits sign + (field.toNat * topBit + fraction.toNat) := by
  have hfield := field.isLt
  have hfraction := fraction.isLt
  have hsign : (modelSign sign).toBitVec.toNat * signBit = signBits sign := by
    cases sign <;> rfl
  simp only [word, UnpackedFloat.packComponents, BitVec.toNat_append]
  rw [← Nat.shiftLeft_add_eq_or_of_lt hfraction, ← Nat.shiftLeft_add_eq_or_of_lt hfield,
    ← hsign]
  simp only [Nat.shiftLeft_eq, topBit_eq, signBit_eq]
  omega

theorem unpackSign_word :
    UnpackedFloat.Sign.ofBitVec (@UnpackedFloat.unpackSign .binary64
      (word sign field fraction)) = modelSign sign := by
  rw [word, UnpackedFloat.unpackSign_packComponents, UnpackedFloat.Sign.ofBitVec_toBitVec]

theorem unpackExponent_word :
    @UnpackedFloat.unpackExponent .binary64 (word sign field fraction) = field :=
  UnpackedFloat.unpackExponent_packComponents

theorem unpackMantissa_word :
    @UnpackedFloat.unpackMantissa .binary64 (word sign field fraction) = fraction :=
  UnpackedFloat.unpackMantissa_packComponents

theorem exists_word (b : BitVec 64) : ∃ sign field fraction, b = word sign field fraction := by
  have hparts := @UnpackedFloat.packComponents_unpackSign_unpackExponent_unpackMantissa .binary64 b
  cases hsign : UnpackedFloat.Sign.ofBitVec (@UnpackedFloat.unpackSign .binary64 b) with
  | positive =>
    rw [hsign] at hparts
    exact ⟨.plus, _, _, hparts.symm⟩
  | negative =>
    rw [hsign] at hparts
    exact ⟨.minus, _, _, hparts.symm⟩

/-- The bits of a float are those of its sign and magnitude, one after the other. -/
theorem toFloat_word : toFloat sign (field.toNat * topBit + fraction.toNat) =
    Float.ofBits (UInt64.ofBitVec (word sign field fraction)) := by
  have hbits : UInt64.ofNat (signBits sign + (field.toNat * topBit + fraction.toNat)) =
      UInt64.ofBitVec (word sign field fraction) := by
    rw [← toNat_word]
    exact UInt64.ofNat_toNat
  rw [← hbits]
  cases sign with
  | plus =>
    rw [signBits, Nat.zero_add]
    rfl
  | minus => rfl

variable {sign field fraction}

/-- Packing undoes unpacking for a word that is a number. -/
theorem pack_unpack_word (h : field = -1#11 → fraction = 0#52) :
    UnpackedFloat.pack .binary64 (UnpackedFloat.unpack .binary64 (word sign field fraction)) =
      word sign field fraction := by
  refine (UnpackedFloat.pack_unpack _).trans (if_neg ?_)
  simp only [UnpackedFloat.isNaNBits, unpackExponent_word, unpackMantissa_word, decide_eq_true_eq]
  exact fun hnan => hnan.2 (h hnan.1)

theorem neg_modelSign (sign : Sign) : -modelSign sign = modelSign (Sign.minus.times sign) := by
  cases sign <;> rfl

theorem neg_unpack_word :
    (UnpackedFloat.unpack .binary64 (word sign field fraction)).neg =
      UnpackedFloat.unpack .binary64 (word (Sign.minus.times sign) field fraction) := by
  simp only [UnpackedFloat.unpack, unpackSign_word, unpackExponent_word, unpackMantissa_word,
    ← neg_modelSign]
  split
  · split <;> rfl
  · split
    · split <;> rfl
    · rfl

theorem isNaN_unpack_word :
    (UnpackedFloat.unpack .binary64 (word sign field fraction)).isNaN = true ↔
      field = -1#11 ∧ fraction ≠ 0#52 := by
  rw [UnpackedFloat.isNaN_iff]
  simp only [UnpackedFloat.unpack, unpackSign_word, unpackExponent_word, unpackMantissa_word]
  by_cases hfield : field = -1#11
  · by_cases hfraction : fraction = 0#52
    · simp [hfield, hfraction]
    · simp [hfield, hfraction]
  · rw [if_neg hfield, iff_false_right fun hnan => hfield hnan.1]
    split_ifs <;> simp

/-- A magnitude up to infinity is an exponent field and a fraction. -/
theorem exists_fields {magnitude : Nat} (h : magnitude ≤ infinityBits) :
    ∃ (field : BitVec 11) (fraction : BitVec 52), (field = -1#11 → fraction = 0#52) ∧
      magnitude = field.toNat * topBit + fraction.toNat := by
  rw [infinityBits_eq] at h
  have hmag : magnitude = (BitVec.ofNat 11 (magnitude / topBit)).toNat * topBit +
      (BitVec.ofNat 52 (magnitude % topBit)).toNat := by
    rw [BitVec.toNat_ofNat, BitVec.toNat_ofNat, topBit_eq]
    omega
  refine ⟨_, _, fun hfield => ?_, hmag⟩
  have hfull : (-1#11).toNat = 2047 := rfl
  rw [hfield, hfull] at hmag
  apply BitVec.eq_of_toNat_eq
  change (BitVec.ofNat 52 (magnitude % topBit)).toNat = 0
  rw [topBit_eq] at *
  omega

theorem toBits_ofBits_word (sign : Sign) (h : field = -1#11 → fraction = 0#52) :
    (Float.ofBits (UInt64.ofBitVec (word sign field fraction))).toBits =
      UInt64.ofBitVec (word sign field fraction) :=
  congrArg UInt64.ofBitVec (pack_unpack_word h)

variable {magnitude : Nat}

theorem toNat_toBits_toFloat (sign : Sign) (h : magnitude ≤ infinityBits) :
    (toFloat sign magnitude).toBits.toNat = signBits sign + magnitude := by
  obtain ⟨field, fraction, hnumber, rfl⟩ := exists_fields h
  rw [toFloat_word, toBits_ofBits_word sign hnumber, ← toNat_word]
  rfl

theorem isNaN_toFloat (sign : Sign) (h : magnitude ≤ infinityBits) :
    (toFloat sign magnitude).isNaN = false := by
  obtain ⟨field, fraction, hnumber, rfl⟩ := exists_fields h
  have hbits := toBits_ofBits_word sign hnumber
  rw [← toFloat_word] at hbits
  change (UnpackedFloat.unpack .binary64 (toFloat sign _).toBits.toBitVec).isNaN = false
  rw [hbits, Bool.eq_false_iff, Ne, isNaN_unpack_word]
  exact fun hnan => hnan.2 (hnumber hnan.1)

/-- Negation changes the sign and nothing else. -/
theorem neg_toFloat (sign : Sign) (h : magnitude ≤ infinityBits) :
    -toFloat sign magnitude = toFloat (Sign.minus.times sign) magnitude := by
  obtain ⟨field, fraction, hnumber, rfl⟩ := exists_fields h
  have hbits := toBits_ofBits_word sign hnumber
  rw [← toFloat_word] at hbits
  change Float.ofModel (Float.Model.pack (UnpackedFloat.unpack .binary64
    (toFloat sign _).toBits.toBitVec).neg) = _
  rw [hbits, toFloat_word, neg_unpack_word]
  rfl

/-- Every number is made of its sign and magnitude. -/
theorem exists_toFloat {x : Float} (h : x.isNaN = false) :
    ∃ sign, ∃ magnitude ≤ infinityBits, x = toFloat sign magnitude := by
  obtain ⟨sign, field, fraction, hword⟩ := exists_word x.toBits.toBitVec
  have hnumber : field = -1#11 → fraction = 0#52 := by
    have hmodel : (UnpackedFloat.unpack .binary64 x.toBits.toBitVec).isNaN = false := h
    rw [hword, Bool.eq_false_iff, Ne, isNaN_unpack_word] at hmodel
    exact fun hfield => Classical.not_not.mp fun hne => hmodel ⟨hfield, hne⟩
  have hfield := field.isLt
  have hfraction := fraction.isLt
  have hle : field.toNat * topBit + fraction.toNat ≤ infinityBits := by
    rw [topBit_eq, infinityBits_eq]
    by_cases hfull : field = -1#11
    · have hall : (-1#11).toNat = 2047 := rfl
      have hnone : (0#52).toNat = 0 := rfl
      rw [hfull, hnumber hfull]
      omega
    · have hne : field.toNat ≠ 2047 := fun h => hfull (BitVec.eq_of_toNat_eq h)
      omega
  refine ⟨sign, _, hle, ?_⟩
  rw [toFloat_word, ← hword]
  exact (Float.ofBits_toBits x).symm

theorem beq_self {x : Float} (h : x.isNaN = false) : (x == x) = true := by
  rw [Float.beq_self_iff]
  intro hnan
  subst hnan
  simp at h

theorem beq_symm {x y : Float} (h : (x == y) = true) : (y == x) = true := by
  rw [Float.beq_iff_ne_nan_and_eq] at h ⊢
  obtain ⟨hx, hy, hxy⟩ := h
  refine ⟨hy, hx, ?_⟩
  rcases hxy with rfl | ⟨rfl, rfl⟩ | ⟨rfl, rfl⟩
  · exact .inl rfl
  · exact .inr (.inr ⟨rfl, rfl⟩)
  · exact .inr (.inl ⟨rfl, rfl⟩)

/-- Only the two zeros are equal without being one number. -/
theorem beq_trans {x y z : Float} (h : (x == y) = true) (h' : (y == z) = true) :
    (x == z) = true := by
  have hzeros : (0 : Float) ≠ -0 := by decide +kernel
  rw [Float.beq_iff_ne_nan_and_eq] at h h' ⊢
  obtain ⟨hx, -, hxy⟩ := h
  obtain ⟨-, hz, hyz⟩ := h'
  refine ⟨hx, hz, ?_⟩
  rcases hxy with rfl | ⟨rfl, rfl⟩ | ⟨rfl, rfl⟩
  · exact hyz
  · rcases hyz with rfl | ⟨hzero, -⟩ | ⟨-, rfl⟩
    · exact .inr (.inl ⟨rfl, rfl⟩)
    · exact absurd hzero.symm hzeros
    · exact .inl rfl
  · rcases hyz with rfl | ⟨-, rfl⟩ | ⟨hzero, -⟩
    · exact .inr (.inr ⟨rfl, rfl⟩)
    · exact .inl rfl
    · exact absurd hzero hzeros

theorem signOf_toFloat (sign : Sign) (h : magnitude ≤ infinityBits) :
    Arithmetic.signOf (toFloat sign magnitude) = sign := by
  rw [infinityBits_eq] at h
  rw [Arithmetic.signOf, toNat_toBits_toFloat sign h]
  cases sign with
  | plus => exact if_pos (by rw [signBits, signBit_eq]; omega)
  | minus => exact if_neg (by rw [signBits, signBit_eq]; omega)

inductive Unsigned : UnpackedFloat → Prop
  | infinity : Unsigned (.infinity .positive)
  | zero : Unsigned (.zero .positive)
  | finite (m e hm) : Unsigned (.finite .positive m e hm)

theorem unsigned_unpack_word (h : field = -1#11 → fraction = 0#52) :
    Unsigned (UnpackedFloat.unpack .binary64 (word .plus field fraction)) := by
  simp only [UnpackedFloat.unpack, unpackSign_word, unpackExponent_word, unpackMantissa_word]
  split
  · rename_i hfull
    rw [if_pos (h hfull)]
    exact .infinity
  split
  · split
    · exact .zero
    · exact .finite _ _ _
  · exact .finite _ _ _

/-- Without signs there is one zero, and equal numbers are the same. -/
theorem Unsigned.eq_of_compare {a b : UnpackedFloat} (ha : Unsigned a) (hb : Unsigned b)
    (h : a.compare b = some .eq) : a = b := by
  cases ha with
  | infinity =>
    cases hb with
    | infinity => rfl
    | zero | finite => cases h
  | zero =>
    cases hb with
    | zero => rfl
    | infinity | finite => cases h
  | finite m e hm =>
    cases hb with
    | infinity | zero => cases h
    | finite n f hn =>
      have hboth : (compare e f).then (compare m n) = .eq := Option.some.inj h
      rw [Ordering.then_eq_eq, Int.compare_eq_eq, Nat.compare_eq_eq] at hboth
      obtain ⟨rfl, rfl⟩ := hboth
      rfl

theorem exists_word_of_signOf {x : Float} (hnan : x.isNaN = false)
    (hsign : Arithmetic.signOf x = .plus) :
    ∃ field fraction, (field = -1#11 → fraction = 0#52) ∧
      x.toBits = UInt64.ofBitVec (word .plus field fraction) := by
  obtain ⟨sign, magnitude, hle, rfl⟩ := exists_toFloat hnan
  rw [signOf_toFloat sign hle] at hsign
  subst hsign
  obtain ⟨field, fraction, hnumber, rfl⟩ := exists_fields hle
  exact ⟨field, fraction, hnumber, by rw [toFloat_word, toBits_ofBits_word .plus hnumber]⟩

theorem eq_of_beq {x y : Float} (hx : x.isNaN = false) (hxsign : Arithmetic.signOf x = .plus)
    (hy : y.isNaN = false) (hysign : Arithmetic.signOf y = .plus) (h : (x == y) = true) :
    x = y := by
  obtain ⟨field, fraction, hnumber, hxbits⟩ := exists_word_of_signOf hx hxsign
  obtain ⟨field', fraction', hnumber', hybits⟩ := exists_word_of_signOf hy hysign
  have hbeq : (UnpackedFloat.unpack .binary64 x.toBits.toBitVec).beq
      (UnpackedFloat.unpack .binary64 y.toBits.toBitVec) = true := h
  rw [hxbits, hybits, UnpackedFloat.beq, beq_iff_eq] at hbeq
  have hsame := (unsigned_unpack_word hnumber).eq_of_compare (unsigned_unpack_word hnumber') hbeq
  have hwords := congrArg (UnpackedFloat.pack .binary64) hsame
  rw [pack_unpack_word hnumber, pack_unpack_word hnumber'] at hwords
  rw [← Float.ofBits_toBits x, ← Float.ofBits_toBits y, hxbits, hybits, hwords]

/-- The significands and exponents of finite numbers: each number has one pair. -/
structure Canonical (significand : Nat) (exponent : Int) : Prop where
  lt : significand < 2 * topBit
  least : -1074 ≤ exponent
  greatest : exponent ≤ 971
  full : topBit ≤ significand ∨ exponent = -1074

theorem Canonical.magnitudeBits_lt {m : Nat} {e : Int} (h : Canonical m e) :
    magnitudeBits m e < infinityBits := by
  obtain ⟨hlt, hleast, hgreatest, -⟩ := h
  simp only [magnitudeBits, infinityBits_eq, topBit_eq] at *
  omega

theorem ofFloat_infinity (sign : Sign) : ofFloat (toFloat sign infinityBits) = .infinity sign := by
  cases sign <;> decide +kernel

/-- A finite number comes apart into a canonical pair, which has its magnitude bits. -/
theorem exists_ofFloat_toFloat (sign : Sign) (h : magnitude < infinityBits) :
    ∃ m e, ofFloat (toFloat sign magnitude) = .finite sign m e ∧ Canonical m e ∧
      magnitudeBits m e = magnitude := by
  have hsign := signOf_toFloat sign (Nat.le_of_lt h)
  have hbits := toNat_toBits_toFloat sign (Nat.le_of_lt h)
  simp only [Arithmetic.signOf, hbits] at hsign
  rw [infinityBits_eq] at h
  have hfield : (signBits sign + magnitude) / topBit % 2048 = magnitude / topBit := by
    cases sign <;> simp only [signBits, signBit_eq, topBit_eq] <;> omega
  have hfraction : (signBits sign + magnitude) % topBit = magnitude % topBit := by
    cases sign <;> simp only [signBits, signBit_eq, topBit_eq] <;> omega
  simp only [ofFloat, hbits, hsign, hfield, hfraction]
  rw [if_neg (by rw [topBit_eq]; omega)]
  by_cases hzero : magnitude / topBit = 0
  · rw [if_pos hzero]
    refine ⟨_, _, rfl, ⟨?_, ?_, ?_, ?_⟩, ?_⟩
    · rw [topBit_eq]
      omega
    · omega
    · omega
    · exact .inr rfl
    · rw [magnitudeBits, topBit_eq] at *
      omega
  · rw [if_neg hzero]
    refine ⟨_, _, rfl, ⟨?_, ?_, ?_, ?_⟩, ?_⟩
    · rw [topBit_eq]
      omega
    · omega
    · rw [topBit_eq] at *
      omega
    · exact .inl (Nat.le_add_right ..)
    · rw [magnitudeBits, topBit_eq] at *
      omega

theorem ofFloat_of_isNaN {x : Float} (h : x.isNaN = true) : ofFloat x = .nan := by
  obtain rfl : x = Float.nan := by simpa using h
  decide +kernel

end Reckoner.Binary64
