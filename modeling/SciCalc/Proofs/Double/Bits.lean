/-
Doubles and their bits. A finite double is the one of its sign and its units (`eq_ofUnits_of_classify`), and
is subtracted from zero by turning its sign (`zero_sub_ofUnits`).

A double is a word of a sign, an exponent of 11 bits and a significand of 52 (`word_eq_packComponents`).
Operations take the word apart, compute, and pack the parts again.
-/
import Mathlib
import SciCalc.Operator
import SciCalc.Proofs.Double.Nearest

namespace SciCalc.Double

open Float.Model Float.Model.UnpackedFloat

variable {b : BitVec Format.binary64.numBits} {x : Float} {negative : Bool} {units m : Nat}

/-! ## Words -/

/-- The word of a sign and the bits of a double without one. -/
def word (negative : Bool) (m : Nat) : BitVec Format.binary64.numBits :=
  .ofNat 64 (m + if negative then signBit else 0)

theorem toNat_append {n k : Nat} (v : BitVec n) (w : BitVec k) :
    (v ++ w).toNat = v.toNat * 2 ^ k + w.toNat := by
  rw [BitVec.toNat_append, ← Nat.shiftLeft_add_eq_or_of_lt w.isLt, Nat.shiftLeft_eq]

theorem word_eq_packComponents (hm : m < infinityBits) (negative : Bool) :
    word negative m = packComponents .binary64 (if negative then .negative else .positive)
      (.ofNat 11 (m / 2 ^ 52)) (.ofNat 52 m) := by
  have hbits : (word negative m).toNat = (m + if negative then signBit else 0) % 2 ^ 64 :=
    BitVec.toNat_ofNat _ _
  refine BitVec.eq_of_toNat_eq ?_
  rw [packComponents, toNat_append, toNat_append, BitVec.toNat_ofNat, BitVec.toNat_ofNat, hbits]
  simp only [infinityBits, signBit, Nat.pow_eq] at hm ⊢
  cases negative with
  | true =>
    have hsign : Sign.negative.toBitVec.toNat = 1 := rfl
    simp only [if_true, hsign]
    omega
  | false =>
    have hsign : Sign.positive.toBitVec.toNat = 0 := rfl
    simp only [Bool.false_eq_true, if_false, hsign]
    omega

theorem exponent_word (hm : m < infinityBits) (negative : Bool) :
    unpackExponent (word negative m) = .ofNat 11 (m / 2 ^ 52) := by
  rw [word_eq_packComponents hm, unpackExponent_packComponents]

theorem mantissa_word (hm : m < infinityBits) (negative : Bool) :
    unpackMantissa (word negative m) = .ofNat 52 m := by
  rw [word_eq_packComponents hm, unpackMantissa_packComponents]

theorem sign_word (hm : m < infinityBits) (negative : Bool) :
    Sign.ofBitVec (unpackSign (word negative m)) = if negative then .negative else .positive := by
  rw [word_eq_packComponents hm, unpackSign_packComponents, Sign.ofBitVec_toBitVec]

theorem exponent_word_ne_ones (hm : m < infinityBits) (negative : Bool) :
    unpackExponent (word negative m) ≠ -1#_ := by
  rw [exponent_word hm]
  intro hones
  have hfield : m / 2 ^ 52 % 2 ^ 11 = 2047 := congrArg BitVec.toNat hones
  simp only [infinityBits, Nat.pow_eq] at hm
  omega

theorem mantissa_word_infinityBits (negative : Bool) : unpackMantissa (word negative infinityBits) = 0#_ := by
  cases negative <;> rfl

theorem valid_word (hm : m ≤ infinityBits) (negative : Bool) :
    Format.binary64.Valid (word negative m) := by
  rcases hm.lt_or_eq with hlt | rfl
  · exact ⟨fun hones => absurd hones (exponent_word_ne_ones hlt negative)⟩
  · exact ⟨fun _ hmantissa => absurd (mantissa_word_infinityBits negative) hmantissa⟩

/-- To subtract from zero what is neither zero nor beyond the finite is to turn its sign. -/
theorem sub_unpack {b' : BitVec Format.binary64.numBits} {s : Sign}
    (hones : unpackExponent b ≠ -1#_) (hne : unpackExponent b ≠ 0#_ ∨ unpackMantissa b ≠ 0#_)
    (hexponent : unpackExponent b' = unpackExponent b) (hmantissa : unpackMantissa b' = unpackMantissa b)
    (hsign : Sign.ofBitVec (unpackSign b') = -Sign.ofBitVec (unpackSign b)) :
    UnpackedFloat.sub .binary64 (.zero s) (UnpackedFloat.unpack .binary64 b) =
      UnpackedFloat.unpack .binary64 b' := by
  simp only [UnpackedFloat.unpack, hexponent, hmantissa, hsign, if_neg hones]
  split
  · next hfield =>
    have hzero : unpackMantissa b ≠ 0#_ := hne.resolve_left (not_not_intro hfield)
    simp only [dif_neg hzero]
    rfl
  · rfl

/-! ## Doubles -/

theorem unpack_ofBits (h : Format.binary64.Valid b) :
    (Float.ofBits (.ofBitVec b)).toModel.unpack = UnpackedFloat.unpack .binary64 b := by
  have hpack := pack_unpack_of_valid h
  simp only [Float.ofBits, Float.Model.ofBits, Float.Model.pack, Float.Model.unpack, hpack]

theorem ofUnits_unitsOfBits (hm : m < infinityBits) (negative : Bool) :
    ofUnits negative (unitsOfBits m) = .ofBits (.ofBitVec (word negative m)) := by
  rw [ofUnits, ofQuotient, nearestBits_unitsOfBits hm.le]
  rfl

theorem eq_word (x : Float) :
    x = .ofBits (.ofBitVec (word (decide (signBit ≤ x.toBits.toNat)) (x.toBits.toNat % signBit))) := by
  have hlt := x.toBits.toNat_lt
  have hsum : (x.toBits.toNat % signBit +
      if decide (signBit ≤ x.toBits.toNat) = true then signBit else 0) = x.toBits.toNat := by
    by_cases hsign : signBit ≤ x.toBits.toNat
    · rw [if_pos (decide_eq_true hsign)]
      simp only [signBit, Nat.pow_eq] at hsign ⊢
      omega
    · rw [if_neg (by simpa using hsign)]
      simp only [signBit, Nat.pow_eq] at hsign ⊢
      omega
  have hbits : x.toBits = .ofBitVec (word (decide (signBit ≤ x.toBits.toNat)) (x.toBits.toNat % signBit)) := by
    rw [word, hsum]
    exact UInt64.ofNat_toNat.symm
  rw [← hbits, Float.ofBits_toBits]

theorem exists_word_of_classify (h : classify x = .finite negative units) :
    ∃ m, m < infinityBits ∧ unitsOfBits m = units ∧ x = .ofBits (.ofBitVec (word negative m)) := by
  simp only [classify] at h
  split at h
  · next hm =>
    cases h
    exact ⟨x.toBits.toNat % signBit, hm, rfl, eq_word x⟩
  · split at h <;> cases h

/-- **A finite double** is the one of its sign and its units. -/
theorem eq_ofUnits_of_classify (h : classify x = .finite negative units) :
    x = ofUnits negative units := by
  obtain ⟨m, hm, rfl, rfl⟩ := exists_word_of_classify h
  exact (ofUnits_unitsOfBits hm negative).symm

theorem toBits_ofBits (h : Format.binary64.Valid b) : (Float.ofBits (.ofBitVec b)).toBits = .ofBitVec b := by
  have hpack := pack_unpack_of_valid h
  simp only [Float.toBits, Float.ofBits, Float.Model.ofBits, Float.Model.pack, hpack]

theorem toNat_toBits_word (hm : m ≤ infinityBits) (negative : Bool) :
    (Float.ofBits (.ofBitVec (word negative m))).toBits.toNat = m + if negative then signBit else 0 := by
  have hword : (UInt64.ofBitVec (word negative m)).toNat = (m + if negative then signBit else 0) % 2 ^ 64 :=
    BitVec.toNat_ofNat _ _
  rw [toBits_ofBits (valid_word hm negative), hword]
  refine Nat.mod_eq_of_lt ?_
  simp only [infinityBits, signBit, Nat.pow_eq] at hm ⊢
  split <;> omega

theorem classify_word (hm : m < infinityBits) (negative : Bool) :
    classify (.ofBits (.ofBitVec (word negative m))) = .finite negative (unitsOfBits m) := by
  have hbits := toNat_toBits_word hm.le negative
  have hlt : m < signBit := Nat.lt_trans hm (by decide)
  simp only [classify, hbits]
  cases negative with
  | true =>
    have hmod : (m + signBit) % signBit = m := by rw [Nat.add_mod_right, Nat.mod_eq_of_lt hlt]
    simp only [if_true, hmod, if_pos hm, Nat.le_add_left, decide_true]
  | false =>
    have hsign : ¬ signBit ≤ m := Nat.not_le_of_lt hlt
    simp only [Bool.false_eq_true, if_false, Nat.add_zero, Nat.mod_eq_of_lt hlt, if_pos hm,
      decide_eq_false hsign]

theorem classify_nan : classify Float.nan = .notANumber := rfl

theorem beq_self_of_classify (h : classify x = .finite negative units) : (x == x) = true := by
  refine Float.beq_self_iff.mpr ?_
  rintro rfl
  rw [classify_nan] at h
  cases h

theorem ofUnits_zero_beq : (ofUnits false 0 == ofUnits true 0) = true := by decide +kernel

theorem unpack_ofNat_zero : (ofNat 0).toModel.unpack = .zero .positive := by
  have hzero : ofNat 0 = .ofBits (.ofBitVec (word false 0)) := ofNat_zero
  rw [hzero, unpack_ofBits (valid_word (by decide) false)]
  rfl

/-- **Subtracted from zero**, a double turns its sign. -/
theorem zero_sub_ofUnits (h : classify x = .finite true units) (hne : units ≠ 0) :
    ofNat 0 - ofUnits false units = x := by
  obtain ⟨m, hm, rfl, rfl⟩ := exists_word_of_classify h
  rw [ofUnits_unitsOfBits hm]
  have hparts : unpackExponent (word false m) ≠ 0#_ ∨ unpackMantissa (word false m) ≠ 0#_ := by
    refine Decidable.not_and_iff_or_not.mp fun hzero => hne ?_
    rw [exponent_word hm, mantissa_word hm] at hzero
    have hexponent : m / 2 ^ 52 % 2 ^ 11 = 0 := congrArg BitVec.toNat hzero.1
    have hfraction : m % 2 ^ 52 = 0 := congrArg BitVec.toNat hzero.2
    have hfield : m / 2 ^ 52 = 0 := by
      simp only [infinityBits, Nat.pow_eq] at hm
      omega
    simp only [unitsOfBits, Nat.pow_eq, hfield, hfraction, if_true]
  have hsub : UnpackedFloat.sub .binary64 (.zero .positive) (UnpackedFloat.unpack .binary64 (word false m)) =
      UnpackedFloat.unpack .binary64 (word true m) := by
    refine sub_unpack (exponent_word_ne_ones hm false) hparts ?_ ?_ ?_
    · rw [exponent_word hm, exponent_word hm]
    · rw [mantissa_word hm, mantissa_word hm]
    · rw [sign_word hm, sign_word hm]
      rfl
  calc ofNat 0 - .ofBits (.ofBitVec (word false m))
      = .ofModel (.pack (UnpackedFloat.sub .binary64 (ofNat 0).toModel.unpack
          (Float.ofBits (.ofBitVec (word false m))).toModel.unpack)) := rfl
    _ = .ofBits (.ofBitVec (word true m)) := by
      rw [unpack_ofNat_zero, unpack_ofBits (valid_word hm.le false), hsub]
      rfl

end SciCalc.Double
