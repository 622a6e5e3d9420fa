import Mathlib.Tactic.Ring
import ScriptEngine.Number.Binary64

/-!
# Counts

The machine keeps counts on its operand stack as numbers.  This module proves
that a count below `Number.mantissaBound` survives this: it is read back as
itself.

## Main results

* `Number.toNat_toBits_ofBits` — the word of a normal number is read back.
* `Number.toCount_ofNat`, `Number.integer?_ofNat` — a count is read back, and is an integer.
* `Number.zero_le_ofNat` — a count is not negative.
-/

namespace ScriptEngine.Number

open Float.Model Float.Model.UnpackedFloat

/-! ### The fields of a word -/

section Fields

variable {b : BitVec Format.binary64.numBits}

theorem toNat_unpackMantissa : (unpackMantissa b).toNat = b.toNat % 2 ^ 52 := by
  simp [unpackMantissa, BitVec.extractLsb, BitVec.extractLsb']

theorem toNat_unpackExponent : (unpackExponent b).toNat = b.toNat / 2 ^ 52 % 2 ^ 11 := by
  simp [unpackExponent, BitVec.extractLsb, BitVec.extractLsb', Nat.shiftRight_eq_div_pow]

theorem toNat_unpackSign : (unpackSign b).toNat = b.toNat / 2 ^ 63 % 2 := by
  unfold unpackSign
  simp [BitVec.extractLsb, BitVec.extractLsb', Nat.shiftRight_eq_div_pow]

theorem toNat_packComponents (sign : Sign) (exponent : BitVec Format.binary64.exponentBits)
    (mantissa : BitVec Format.binary64.mantissaBitsWithoutImplicit) :
    (packComponents Format.binary64 sign exponent mantissa).toNat =
      (sign.toBitVec.toNat * 2 ^ 11 + exponent.toNat) * 2 ^ 52 + mantissa.toNat := by
  rw [packComponents, BitVec.toNat_append, BitVec.toNat_append,
    ← Nat.shiftLeft_add_eq_or_of_lt mantissa.isLt, ← Nat.shiftLeft_add_eq_or_of_lt exponent.isLt,
    Nat.shiftLeft_eq, Nat.shiftLeft_eq]

/-- A positive normal word stands for its mantissa under the hidden bit. -/
theorem unpack_of_normal {bits : Nat} (hb : b.toNat = bits) (hlow : 2 ^ 52 ≤ bits)
    (hhigh : bits < 2047 * 2 ^ 52) :
    ∃ h, UnpackedFloat.unpack Format.binary64 b =
      .finite .positive (2 ^ 52 + bits % 2 ^ 52) ((bits / 2 ^ 52 : Nat) - 1075) h := by
  have hexponent : (unpackExponent b).toNat = bits / 2 ^ 52 := by
    rw [toNat_unpackExponent, hb]
    omega
  have hsign : unpackSign b = 0#1 := by
    apply BitVec.eq_of_toNat_eq
    rw [toNat_unpackSign, hb, BitVec.toNat_ofNat]
    omega
  have hmantissa : (1#1 ++ unpackMantissa b).toNat = 2 ^ 52 + bits % 2 ^ 52 := by
    rw [BitVec.toNat_append, ← Nat.shiftLeft_add_eq_or_of_lt (unpackMantissa b).isLt,
      toNat_unpackMantissa, hb]
    rfl
  have hfinite : unpackExponent b ≠ -1#_ := by
    intro h
    have hfield := congrArg BitVec.toNat h
    have hones : (-BitVec.ofNat Format.binary64.exponentBits 1).toNat = 2047 := by rfl
    omega
  have hnormal : unpackExponent b ≠ 0#_ := by
    intro h
    have hfield := congrArg BitVec.toNat h
    have hzero : (BitVec.ofNat Format.binary64.exponentBits 0).toNat = 0 := by rfl
    omega
  refine ⟨by omega, ?_⟩
  unfold UnpackedFloat.unpack
  dsimp only
  rw [if_neg hfinite, if_neg hnormal, UnpackedFloat.finite.injEq]
  exact ⟨congrArg Sign.ofBitVec hsign, hmantissa, by rw [hexponent]; rfl⟩

/-- The word of a positive normal number. -/
theorem toNat_pack_of_normal {m : Nat} {e : Int} (h : 0 < m) (hlow : 2 ^ 52 ≤ m)
    (hhigh : m < 2 ^ 53) (helow : -1074 ≤ e) (hehigh : e ≤ 971) :
    (UnpackedFloat.pack Format.binary64 (.finite .positive m e h)).toNat =
      (e + 1075).toNat * 2 ^ 52 + (m - 2 ^ 52) := by
  have hlog : m.log2 + 1 = Format.binary64.mantissaBits := by
    have hlt : m.log2 < 53 := (Nat.log2_lt (by omega)).2 hhigh
    have hle : 52 ≤ m.log2 := (Nat.le_log2 (by omega)).2 hlow
    have hbits : Format.binary64.mantissaBits = 53 := rfl
    omega
  have hbiased : e + (Format.binary64.exponentBias : Int)
      + (Format.binary64.mantissaBitsWithoutImplicit : Int) = e + 1075 := by
    have hbias : (Format.binary64.exponentBias : Int) = 1023 := rfl
    have hbits : (Format.binary64.mantissaBitsWithoutImplicit : Int) = 52 := rfl
    omega
  have hfits : ¬ 2 ^ Format.binary64.exponentBits ≤ (e + 1075).toNat + 1 := by
    have hbits : 2 ^ Format.binary64.exponentBits = 2048 := rfl
    omega
  unfold UnpackedFloat.pack
  simp only [hbiased, if_neg hfits, if_pos hlog]
  rw [toNat_packComponents, BitVec.toNat_ofNat, BitVec.toNat_ofNat]
  have hzero : Sign.positive.toBitVec.toNat = 0 := rfl
  have hpow : (2 : Nat) ^ Format.binary64.exponentBits = 2048 := rfl
  have hmantissa : (2 : Nat) ^ Format.binary64.mantissaBitsWithoutImplicit = 2 ^ 52 := rfl
  rw [hzero, hpow, hmantissa]
  omega

end Fields

/-! ### Normal numbers -/

section Normal

variable {bits : Nat}

/-- The word of a positive normal number is read back. -/
theorem toNat_toBits_ofBits (hlow : 2 ^ 52 ≤ bits) (hhigh : bits < 2047 * 2 ^ 52) :
    (Float.ofBits bits.toUInt64).toBits.toNat = bits := by
  have hword : bits.toUInt64.toBitVec.toNat = bits := by
    rw [UInt64.toNat_toBitVec]
    exact UInt64.toNat_ofNat_of_lt' (by simp only [UInt64.size]; omega)
  obtain ⟨h, hunpack⟩ := unpack_of_normal hword hlow hhigh
  have hpacked : (Float.ofBits bits.toUInt64).toBits.toNat =
      (UnpackedFloat.pack Format.binary64
        (UnpackedFloat.unpack Format.binary64 bits.toUInt64.toBitVec)).toNat := rfl
  rw [hpacked, hunpack, toNat_pack_of_normal h (by omega) (by omega) (by omega) (by omega)]
  omega

/-- A positive normal number is not negative. -/
theorem zero_le_ofBits (hlow : 2 ^ 52 ≤ bits) (hhigh : bits < 2047 * 2 ^ 52) :
    (0 : Float) ≤ Float.ofBits bits.toUInt64 := by
  have hback := toNat_toBits_ofBits hlow hhigh
  rw [← UInt64.toNat_toBitVec] at hback
  obtain ⟨h, hunpack⟩ := unpack_of_normal hback hlow hhigh
  have hzero : (0 : Float).toModel.unpack = .zero .positive := by rfl
  have hcompare : (0 : Float).toModel.unpack.le
      (UnpackedFloat.unpack Format.binary64 (Float.ofBits bits.toUInt64).toBits.toBitVec) := by
    rw [hunpack, hzero]
    rfl
  exact decide_eq_true hcompare

end Normal

/-! ### Counts -/

/-- A count that is not zero has a normal word: its leading bit is shifted to the
place of the hidden one. -/
theorem packBits_of_pos {n : Nat} (hpos : 0 < n) (hn : n < mantissaBound) :
    ∃ shift ≤ 52, hiddenBit ≤ n * 2 ^ shift ∧ n * 2 ^ shift < 2 * hiddenBit ∧
      packBits false n 0 = (1075 - shift) * hiddenBit + (n * 2 ^ shift - hiddenBit) := by
  have hlog : n.log2 < 53 := (Nat.log2_lt (by omega)).2 hn
  have hlow : 2 ^ n.log2 ≤ n := Nat.log2_self_le (by omega)
  have hhigh : n < 2 ^ (n.log2 + 1) := Nat.lt_log2_self
  have hsplit : hiddenBit = 2 ^ n.log2 * 2 ^ (52 - n.log2) := by
    rw [← Nat.pow_add, Nat.add_sub_cancel' (by omega)]
    rfl
  have hmantissa : hiddenBit ≤ n * 2 ^ (52 - n.log2) := by
    rw [hsplit]
    exact Nat.mul_le_mul_right _ hlow
  refine ⟨52 - n.log2, by omega, hmantissa, ?_, ?_⟩
  · calc n * 2 ^ (52 - n.log2)
        < 2 ^ (n.log2 + 1) * 2 ^ (52 - n.log2) :=
          Nat.mul_lt_mul_of_pos_right hhigh (Nat.two_pow_pos _)
      _ = 2 * hiddenBit := by rw [hsplit]; ring
  · have hmin : min (52 - n.log2) (0 - leastExponent).toNat = 52 - n.log2 := by
      have hleast : (0 - leastExponent).toNat = 1074 := rfl
      omega
    have hpow : pow2 ((52 - n.log2 : Nat) : Int) = 2 ^ (52 - n.log2) := by
      rw [pow2, Int.toNat_natCast]
      rfl
    have hexponent : ((0 : Int) - (52 - n.log2 : Nat) + 1075).toNat = 1075 - (52 - n.log2) := by
      omega
    simp only [packBits, hmin, hpow, Nat.not_lt.2 hmantissa, if_false, hexponent,
      Bool.false_eq_true, Nat.zero_add]

/-- What the number of a count that is not zero stands for. -/
theorem read_ofNat_of_pos {n : Nat} (hpos : 0 < n) (hn : n < mantissaBound) :
    ∃ shift : Nat, read (ofNat n) = .finite false (n * 2 ^ shift) (-shift) := by
  obtain ⟨shift, hshift, hlow, hhigh, hbits⟩ := packBits_of_pos hpos hn
  refine ⟨shift, ?_⟩
  have hhidden : hiddenBit = 2 ^ 52 := rfl
  have hhalf : Word.half = 2 ^ 63 := rfl
  rw [hhidden] at hlow hhigh hbits
  rw [read, ofNat, if_pos hn, pack, hbits, toNat_toBits_ofBits (by omega) (by omega)]
  have hnegative : ((1075 - shift) * 2 ^ 52 + (n * 2 ^ shift - 2 ^ 52)) / Word.half % 2 = 0 := by
    rw [hhalf]
    omega
  have hexponent : ((1075 - shift) * 2 ^ 52 + (n * 2 ^ shift - 2 ^ 52)) / hiddenBit % 2048 =
      1075 - shift := by
    rw [hhidden]
    omega
  have hmantissa : hiddenBit
      + ((1075 - shift) * 2 ^ 52 + (n * 2 ^ shift - 2 ^ 52)) % hiddenBit = n * 2 ^ shift := by
    rw [hhidden]
    omega
  have hpower : ((1075 - shift : Nat) : Int) - 1075 = -(shift : Int) := by omega
  have hfinite : 1075 - shift ≠ 2047 := by omega
  have hnormal : 1075 - shift ≠ 0 := by omega
  simp only [readBits, hnegative, hexponent, hmantissa, hpower, if_neg hfinite, if_neg hnormal]
  rfl

/-- The whole part of a count that has been shifted to the left is that count. -/
theorem wholePart_shifted (n shift : Nat) : wholePart (n * 2 ^ shift) (-shift) = n := by
  rw [wholePart, pow2_of_nonpos (by omega), Nat.mul_one, Int.neg_neg, pow2, Int.toNat_natCast]
  exact Nat.mul_div_cancel n (Nat.two_pow_pos shift)

/-- **A count is read back.** -/
@[simp] theorem toCount_ofNat {n : Nat} (hn : n < mantissaBound) : toCount (ofNat n) = n := by
  rcases Nat.eq_zero_or_pos n with rfl | hpos
  · have hread : read (ofNat 0) = .finite false 0 leastExponent := by rfl
    have hwhole : wholePart 0 leastExponent = 0 := by
      rw [wholePart, Nat.zero_mul, Nat.zero_div]
    simp only [toCount, hread, hwhole, Bool.false_eq_true, if_false, Nat.zero_min]
  · obtain ⟨shift, hread⟩ := read_ofNat_of_pos hpos hn
    have hcount : mantissaBound ≤ Word.count - 1 := by decide
    simp only [toCount, hread, wholePart_shifted, Bool.false_eq_true, if_false]
    omega

/-- A count that is not zero is an integer. -/
theorem integer?_ofNat {n : Nat} (hpos : 0 < n) (hn : n < mantissaBound) :
    integer? (ofNat n) = some (n : Int) := by
  obtain ⟨shift, hread⟩ := read_ofNat_of_pos hpos hn
  have hwhole : isWhole (n * 2 ^ shift) (-shift) = true := by
    rw [isWhole, Int.neg_neg, pow2, Int.toNat_natCast]
    exact beq_iff_eq.2 (Nat.mul_mod_left n (2 ^ shift))
  have hword : Word.IsSigned (n : Int) := by
    have hbound : mantissaBound ≤ Word.half := by decide
    constructor <;> omega
  rw [integer?, whole?, hread]
  dsimp only
  rw [if_pos hwhole, wholePart_shifted, signed, if_neg Bool.false_ne_true]
  exact if_pos hword

/-- **A count is not negative.** -/
theorem zero_le_ofNat {n : Nat} (hn : n < mantissaBound) : (0 : Float) ≤ ofNat n := by
  rcases Nat.eq_zero_or_pos n with rfl | hpos
  · exact decide_eq_true (by rfl)
  · obtain ⟨shift, hshift, hlow, hhigh, hbits⟩ := packBits_of_pos hpos hn
    have hhidden : hiddenBit = 2 ^ 52 := rfl
    rw [hhidden] at hlow hhigh hbits
    rw [ofNat, if_pos hn, pack, hbits]
    exact zero_le_ofBits (by omega) (by omega)

end ScriptEngine.Number
