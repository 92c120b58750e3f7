/-
Sums and the negative zero. A sum is the negative zero only if its first number is (`add_ne_negativeZero`), and so
is a difference (`sub_ne_negativeZero`): what cancels out is the positive zero, and what does not is never rounded
to nothing, for it is a whole number of units.

To any other number, the two zeros add the same (`add_negativeZero`), which is nothing.
-/
import SciCalc.Proofs.Double.Unpacked

namespace SciCalc.Double

open Float.Model Float.Model.UnpackedFloat

variable {x y : Float} {u v : UnpackedFloat} {mantissa : Nat} {exponent : Int}

/-- Neither infinite nor no number. -/
def IsFinite (x : Float) : Prop := ∃ negative units, classify x = .finite negative units

/-- The zero with a minus. -/
def negativeZero : Float := ofUnits true 0

theorem eq_of_unpack_eq (h : x.toModel.unpack = y.toModel.unpack) : x = y := by
  have hbits := (unpack_inj_of_valid x.toModel.valid y.toModel.valid).mp h
  exact Float.toBits_inj.mp (UInt64.toBitVec_inj.mp hbits)

theorem unpack_negativeZero : negativeZero.toModel.unpack = .zero .negative := by
  have hword : negativeZero = .ofBits (.ofBitVec (word true 0)) := ofUnits_unitsOfBits (m := 0) (by decide) true
  rw [hword, unpack_ofBits (valid_word (by decide) true), unpack_word_zero]
  rfl

theorem unpack_ne_of_ne (h : x ≠ negativeZero) : x.toModel.unpack ≠ .zero .negative := by
  intro hzero
  exact h (eq_of_unpack_eq (hzero.trans unpack_negativeZero.symm))

/-! ## Rounding -/

/-- A number that is not the negative zero, with a significand and a power of two as a double has them. -/
def Ordinary : UnpackedFloat → Prop
  | .zero s => s = .positive
  | .finite _ mantissa exponent _ => mantissa < 2 ^ 53 ∧ -1074 ≤ exponent
  | _ => True

theorem Ordinary.pack_ne (h : Ordinary u) :
    UnpackedFloat.pack .binary64 u ≠ packedZero .binary64 .negative := by
  cases u with
  | infinity s => cases s <;> decide
  | notANumber => decide
  | zero s =>
    cases h
    decide
  | finite s mantissa exponent hpos =>
    obtain ⟨hmantissa, hexponent⟩ := h
    have hbias : (Format.binary64.exponentBias + Format.binary64.mantissaBitsWithoutImplicit : Int) = 1075 := rfl
    have hbits : Format.binary64.mantissaBits = 53 := rfl
    rw [UnpackedFloat.pack]
    simp only [add_assoc, hbias, hbits]
    intro heq
    split at heq
    · have hfield := congrArg unpackExponent heq
      simp only [packedInfinity, packedZero, unpackExponent_packComponents] at hfield
      exact absurd hfield (by decide)
    · next hfinite =>
      split at heq
      · have hfield := congrArg (fun b => (unpackExponent b).toNat) heq
        simp only [packedZero, unpackExponent_packComponents] at hfield
        have hnat : (exponent + 1075).toNat % 2 ^ 11 = 0 := hfield
        have hlt : ¬ 2 ^ 11 ≤ (exponent + 1075).toNat + 1 := hfinite
        omega
      · next hshort =>
        have hfraction := congrArg (fun b => (unpackMantissa b).toNat) heq
        simp only [packedZero, unpackMantissa_packComponents] at hfraction
        have hnat : mantissa % 2 ^ 52 = 0 := hfraction
        have hlog : mantissa.log2 < 53 := (Nat.log2_lt hpos.ne').mpr hmantissa
        have hlt : mantissa < 2 ^ 52 := (Nat.log2_lt hpos.ne').mp (by omega)
        omega

theorem ordinary_unpack_bits {b : BitVec Format.binary64.numBits}
    (h : UnpackedFloat.unpack .binary64 b ≠ .zero .negative) : Ordinary (UnpackedFloat.unpack .binary64 b) := by
  have hbias : (Format.binary64.exponentBias + Format.binary64.mantissaBitsWithoutImplicit : Int) = 1075 := rfl
  simp only [UnpackedFloat.unpack, hbias] at h ⊢
  by_cases hones : unpackExponent b = -1#_
  · rw [if_pos hones]
    split <;> trivial
  · rw [if_neg hones] at h ⊢
    by_cases hfield : unpackExponent b = 0#_
    · rw [if_pos hfield] at h ⊢
      by_cases hfraction : unpackMantissa b = 0#_
      · rw [dif_pos hfraction] at h ⊢
        cases hs : Sign.ofBitVec (unpackSign b) with
        | positive => rfl
        | negative => exact absurd (congrArg zero hs) h
      · rw [dif_neg hfraction]
        refine ⟨Nat.lt_trans (unpackMantissa b).isLt (by decide), ?_⟩
        omega
    · rw [if_neg hfield]
      have hpos : (unpackExponent b).toNat ≠ 0 := fun hzero => hfield (BitVec.eq_of_toNat_eq hzero)
      refine ⟨(1#1 ++ unpackMantissa b).isLt, ?_⟩
      omega

theorem ordinary_unpack (h : x ≠ negativeZero) : Ordinary x.toModel.unpack :=
  ordinary_unpack_bits (unpack_ne_of_ne h)

theorem shift_eq (hexponent : -1074 ≤ exponent) :
    (Format.binary64.targetExponent (totalExponent mantissa exponent) - exponent).toNat = mantissa.log2 - 52 := by
  have htarget : ∀ e, Format.binary64.targetExponent e = max (e - 53) (-1074) := fun _ => rfl
  rw [htarget, totalExponent]
  omega

theorem shifted_bounds (hpos : 0 < mantissa) :
    0 < mantissa / 2 ^ (mantissa.log2 - 52) ∧ mantissa / 2 ^ (mantissa.log2 - 52) < 2 ^ 53 := by
  have hlow : 2 ^ (mantissa.log2 - 52) ≤ mantissa :=
    Nat.le_trans (Nat.pow_le_pow_right (by decide) (Nat.sub_le _ _)) (Nat.log2_self_le hpos.ne')
  have hhigh : mantissa < 2 ^ (53 + (mantissa.log2 - 52)) :=
    Nat.lt_of_lt_of_le Nat.lt_log2_self (Nat.pow_le_pow_right (by decide) (by omega))
  refine ⟨Nat.div_pos hlow (Nat.two_pow_pos _), ?_⟩
  rwa [Nat.div_lt_iff_lt_mul (Nat.two_pow_pos _), ← Nat.pow_add]

theorem le_roundedMantissa (em : ExtendedMantissa) : em.mantissa ≤ em.roundedMantissa := by
  rw [ExtendedMantissa.roundedMantissa]
  cases em.accuracy with
  | exact => exact Nat.le_refl _
  | inexact o =>
    cases o with
    | lt => exact Nat.le_refl _
    | eq => exact Nat.le_add_right _ _
    | gt => exact Nat.le_succ _

theorem ordinary_roundWithAccuracy (s : Sign) (hpos : 0 < mantissa) (hexponent : -1074 ≤ exponent) :
    Ordinary (roundWithAccuracy .binary64 s mantissa exponent .exact) := by
  have hexact : ∀ m, (ExtendedMantissa.ofMantissaAndAccuracy m .exact).mantissa = m := fun _ => rfl
  have hfirst := le_roundedMantissa
    (ExtendedMantissa.ofMantissaAndAccuracy mantissa .exact >>> (mantissa.log2 - 52))
  rw [mantissa_shiftRight, hexact] at hfirst
  have hsecond := shifted_bounds (Nat.lt_of_lt_of_le (shifted_bounds hpos).1 hfirst)
  have hexponent' : -1074 ≤ exponent + (mantissa.log2 - 52 : Nat) := by omega
  unfold roundWithAccuracy shiftToTargetExponent shiftToExponent
  simp only [shift_eq hexponent, shift_eq hexponent', mantissa_shiftRight, hexact]
  rw [dif_neg hsecond.1.ne']
  exact ⟨hsecond.2, by omega⟩

/-- **A whole number of units is not rounded to nothing.** -/
theorem ordinary_round (s : Sign) (hpos : 0 < mantissa) (hexponent : -1074 ≤ exponent) :
    Ordinary (round .binary64 s mantissa exponent) := by
  have htarget : ∀ e, -1074 ≤ Format.binary64.targetExponent e := fun e => by
    have hmax : Format.binary64.targetExponent e = max (e - 53) (-1074) := rfl
    omega
  have hlow := htarget (totalExponent mantissa exponent)
  unfold UnpackedFloat.round UnpackedFloat.decreaseExponent
  refine ordinary_roundWithAccuracy s ?_ ?_
  · rw [Nat.shiftLeft_eq]
    exact Nat.mul_pos hpos (Nat.two_pow_pos _)
  · omega

theorem ordinary_normalize (mantissa : Int) (hexponent : -1074 ≤ exponent) :
    Ordinary (normalize .binary64 mantissa exponent .positive) := by
  unfold UnpackedFloat.normalize
  split
  · next hlt =>
    have hneg : mantissa < 0 := Int.compare_eq_lt.mp hlt
    exact ordinary_round _ (by omega) hexponent
  · rfl
  · next hgt =>
    have hpos : 0 < mantissa := Int.compare_eq_gt.mp hgt
    exact ordinary_round _ (by omega) hexponent

/-! ## Sums -/

theorem ordinary_add (hu : Ordinary u) (hv : Ordinary v ∨ v = .zero .negative) :
    Ordinary (UnpackedFloat.add .binary64 u v) := by
  cases u with
  | notANumber => cases v <;> trivial
  | infinity s =>
    cases v with
    | infinity s' =>
      rw [UnpackedFloat.add]
      split <;> trivial
    | _ => trivial
  | zero s =>
    cases hu
    cases v with
    | zero s' => cases s' <;> rfl
    | finite s' mantissa exponent hpos => exact hv.resolve_right nofun
    | _ => trivial
  | finite s mantissa exponent hpos =>
    cases v with
    | zero s' => exact hu
    | finite s' mantissa' exponent' hpos' =>
      have hv' : Ordinary (.finite s' mantissa' exponent' hpos') := hv.resolve_right nofun
      exact ordinary_normalize _ (le_min hu.2 hv'.2)
    | _ => trivial

theorem sub_eq_add_neg (u v : UnpackedFloat) :
    UnpackedFloat.sub .binary64 u v = UnpackedFloat.add .binary64 u v.neg := by
  have hsign : ∀ (s : Sign) (n : Int), (-s).apply n = -s.apply n := by
    intro s n
    cases s with
    | positive => rfl
    | negative => exact (Int.neg_neg n).symm
  cases u with
  | finite s mantissa exponent hpos =>
    cases v with
    | finite s' mantissa' exponent' hpos' =>
      simp only [UnpackedFloat.sub, UnpackedFloat.neg, UnpackedFloat.add, hsign, Int.sub_eq_add_neg]
    | _ => rfl
  | _ => cases v <;> rfl

theorem ordinary_sub (hu : Ordinary u) (hv : Ordinary v ∨ v = .zero .negative) :
    Ordinary (UnpackedFloat.sub .binary64 u v) := by
  rw [sub_eq_add_neg]
  refine ordinary_add hu ?_
  cases v with
  | zero s =>
    cases s with
    | positive => exact .inr rfl
    | negative => exact .inl rfl
  | finite s mantissa exponent hpos => exact .inl (hv.resolve_right nofun)
  | _ => exact .inl trivial

theorem ordinary_or (x : Float) : Ordinary x.toModel.unpack ∨ x.toModel.unpack = .zero .negative := by
  by_cases h : x = negativeZero
  · rw [h]
    exact .inr unpack_negativeZero
  · exact .inl (ordinary_unpack h)

theorem Ordinary.ofModel_ne (h : Ordinary u) : Float.ofModel (.pack u) ≠ negativeZero := by
  intro heq
  have hzero := (unpack_eq_zero_iff_of_valid negativeZero.toModel.valid).mp unpack_negativeZero
  rw [← heq] at hzero
  exact h.pack_ne hzero

/-- **A sum is the negative zero** only if its first number is. -/
theorem add_ne_negativeZero (h : x ≠ negativeZero) (y : Float) : x + y ≠ negativeZero :=
  (ordinary_add (ordinary_unpack h) (ordinary_or y)).ofModel_ne

theorem sub_ne_negativeZero (h : x ≠ negativeZero) (y : Float) : x - y ≠ negativeZero :=
  (ordinary_sub (ordinary_unpack h) (ordinary_or y)).ofModel_ne

/-- **The two zeros add the same** to any other number. -/
theorem add_negativeZero (h : x ≠ negativeZero) : x + negativeZero = x + ofNat 0 := by
  have hadd : ∀ s, UnpackedFloat.add .binary64 x.toModel.unpack (.zero s) = x.toModel.unpack := by
    intro s
    have hx := ordinary_unpack h
    generalize x.toModel.unpack = u at hx ⊢
    cases u with
    | zero s' =>
      cases hx
      cases s <;> rfl
    | _ => rfl
  calc x + negativeZero
      = .ofModel (.pack (UnpackedFloat.add .binary64 x.toModel.unpack negativeZero.toModel.unpack)) := rfl
    _ = .ofModel (.pack (UnpackedFloat.add .binary64 x.toModel.unpack (ofNat 0).toModel.unpack)) := by
        rw [unpack_negativeZero, unpack_ofNat_zero, hadd, hadd]
    _ = x + ofNat 0 := rfl

end SciCalc.Double
