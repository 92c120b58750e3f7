/-
The factorial of a double is the product of the naturals up to it (`factorial_eq_product`). The product rises, and
is infinite from 171 on (`productBits_lt_iff`): so no more than 171 factors are multiplied, whatever the argument
(`factorial_saturates`), and the factorial of a greater number is no smaller one (`factorial_order`).

The factors may be counted by a double, up to a limit that is one: below `2^53` it counts as a natural does, and the
product is infinite long before that (`multiplied_iff`).
-/
import SciCalc.Evaluation
import SciCalc.Proofs.Double.Whole

namespace SciCalc.Double

open Float.Model

variable {x y : Float} {m n k : Nat}

/-! ## Products -/

/-- The product of the naturals from 1 to `n`, multiplied from the left and rounded at each step. -/
def product (n : Nat) : Float := (List.range' 1 n).foldl (fun p i => p * ofNat i) (ofNat 1)

/-- The bits of a double times a natural, from its significand: no number is computed that is as great as the
double. -/
def timesBits (bits n : Nat) : Nat :=
  let place := bits / Nat.pow 2 52 - 1
  let significand := (bits - place * Nat.pow 2 52) * n
  let shift := significand.log2 - 52
  min ((place + shift) * Nat.pow 2 52 + roundDiv significand (Nat.pow 2 shift)) infinityBits

/-- The bits of the product. Those of infinity count as those that `2^1024` would have. -/
def productBits : Nat → Nat
  | 0 => 1023 * Nat.pow 2 52
  | n + 1 => timesBits (productBits n) (n + 1)

theorem product_zero : product 0 = ofNat 1 := rfl

theorem product_succ (n : Nat) : product (n + 1) = product n * ofNat (n + 1) := by
  rw [product, List.range'_1_concat, List.foldl_append, Nat.add_comm 1 n]
  rfl

theorem nearestBits_times (hm : 2 ^ 52 ≤ m) (hn : 0 < n) :
    nearestBits (unitsOfBits m * n) unitsPerOne = timesBits m n := by
  obtain ⟨place, hplace⟩ : ∃ place, place = m / 2 ^ 52 - 1 := ⟨_, rfl⟩
  obtain ⟨s, hs⟩ : ∃ s, s = m - place * 2 ^ 52 := ⟨_, rfl⟩
  have hlow : 2 ^ 52 ≤ s := by omega
  have hsum : place * 2 ^ 52 + s = m := by omega
  have hproduct : 2 ^ 52 ≤ s * n := hlow.trans (Nat.le_mul_of_pos_right s hn)
  have hne : s * n ≠ 0 := (Nat.two_pow_pos 52).trans_le hproduct |>.ne'
  have hlog : 52 ≤ (s * n).log2 := (Nat.le_log2 hne).mpr hproduct
  have hunits : unitsOfBits m * n = s * n * 2 ^ place := by
    rw [← hsum, unitsOfBits_significand (.inr hlow) (by omega), Nat.mul_right_comm]
  rw [hunits, nearestBits_sum hne place rfl (k := (s * n).log2 - 52) (by omega)]
  simp only [timesBits, Nat.pow_eq, ← hplace, ← hs]
  congr 3
  omega

theorem nearestBits_one : nearestBits 1 1 = 1023 * 2 ^ 52 := by
  obtain ⟨k, hk, hone⟩ := unitsPerOne_eq_two_pow
  have hunits : unitsOfBits (1022 * 2 ^ 52 + 2 ^ 52) = 1 * unitsPerOne := by
    have hsum : 52 + 1022 = k := by omega
    rw [unitsOfBits_significand (.inr (Nat.le_refl _)) (by decide), ← Nat.pow_add, hsum, hone, Nat.one_mul]
  calc nearestBits 1 1 = nearestBits (1 * unitsPerOne) (1 * unitsPerOne) := (nearestBits_mul_mul unitsPerOne_pos).symm
    _ = nearestBits (unitsOfBits (1022 * 2 ^ 52 + 2 ^ 52)) unitsPerOne := by rw [hunits, Nat.one_mul]
    _ = 1023 * 2 ^ 52 := nearestBits_unitsOfBits (by decide)

theorem productBits_le (n : Nat) : productBits n ≤ infinityBits := by
  cases n with
  | zero => decide
  | succ n => exact Nat.min_le_right _ _

theorem le_productBits (n : Nat) : 2 ^ 52 ≤ productBits n := by
  induction n with
  | zero => decide
  | succ n ih =>
    rw [productBits, ← nearestBits_times ih n.succ_pos]
    refine (ih.trans_eq (nearestBits_unitsOfBits (productBits_le n)).symm).trans ?_
    exact nearestBits_mono unitsPerOne_pos (Nat.le_mul_of_pos_right _ n.succ_pos)

theorem productBits_succ (n : Nat) :
    productBits (n + 1) = nearestBits (unitsOfBits (productBits n) * (n + 1)) unitsPerOne :=
  (nearestBits_times (le_productBits n) n.succ_pos).symm

/-- **The product rises**, for no factor is below one. -/
theorem monotone_productBits : Monotone productBits := by
  refine monotone_nat_of_le_succ fun n => ?_
  calc productBits n = nearestBits (unitsOfBits (productBits n)) unitsPerOne :=
        (nearestBits_unitsOfBits (productBits_le n)).symm
    _ ≤ nearestBits (unitsOfBits (productBits n) * (n + 1)) unitsPerOne :=
        nearestBits_mono unitsPerOne_pos (Nat.le_mul_of_pos_right _ n.succ_pos)
    _ = productBits (n + 1) := (productBits_succ n).symm

/-- The last product that is finite, and the first that is not. -/
theorem productBits_last : productBits 170 < infinityBits ∧ productBits 171 = infinityBits := by decide +kernel

/-- **The product is finite** up to 170. -/
theorem productBits_lt_iff : productBits n < infinityBits ↔ n ≤ 170 := by
  obtain ⟨hlast, hfirst⟩ := productBits_last
  refine ⟨fun hlt => ?_, fun hle => (monotone_productBits hle).trans_lt hlast⟩
  by_contra hgt
  have hle : productBits 171 ≤ productBits n := monotone_productBits (Nat.lt_of_not_le hgt)
  rw [hfirst] at hle
  exact Nat.not_lt_of_le hle hlt

theorem infinity_mul_ofNat (h : 0 < n) : infinity * ofNat n = infinity := by
  have hmul : UnpackedFloat.mul .binary64 (.infinity .positive) (ofNat n).toModel.unpack = .infinity .positive := by
    rw [ofNat_eq_word, unpack_ofBits (valid_word (nearestBits_le n 1) false)]
    rcases unpack_word (nearestBits_le n 1) false with ⟨hzero, -⟩ | ⟨-, hu⟩ | ⟨_, _, _, -, -, -, -, hu⟩
    · exact absurd hzero (nearestBits_natural_pos h).ne'
    · rw [hu]
      rfl
    · rw [hu]
      rfl
  have hunpack : infinity.toModel.unpack = .infinity .positive := rfl
  calc infinity * ofNat n
      = .ofModel (.pack (UnpackedFloat.mul .binary64 infinity.toModel.unpack (ofNat n).toModel.unpack)) := rfl
    _ = infinity := by
        rw [hunpack, hmul, ofModel_pack]
        rfl

theorem product_eq_word (n : Nat) : product n = .ofBits (.ofBitVec (word false (productBits n))) := by
  induction n with
  | zero =>
    rw [product_zero, ofNat_eq_word, nearestBits_one]
    rfl
  | succ n ih =>
    rw [product_succ, ih]
    rcases (productBits_le n).lt_or_eq with hlt | hinf
    · have hn : n ≤ 170 := productBits_lt_iff.mp hlt
      have hquotient : unitsOfBits (productBits n) * ((n + 1) * unitsPerOne) * unitsPerOne =
          unitsOfBits (productBits n) * (n + 1) * (unitsPerOne * unitsPerOne) := by
        generalize unitsPerOne = u
        ring
      rw [mul_of_classify (classify_word hlt false) (classify_ofNat (by omega)),
        ofQuotient_eq (Nat.mul_pos unitsPerOne_pos unitsPerOne_pos) unitsPerOne_pos hquotient, productBits_succ]
      rfl
    · have hnext : productBits (n + 1) = infinityBits :=
        (productBits_le _).antisymm (hinf ▸ monotone_productBits n.le_succ)
      rw [hinf, hnext, ← infinity_eq_word, infinity_mul_ofNat n.succ_pos]

theorem isInf_product (n : Nat) : (product n).isInf = decide (170 < n) := by
  rw [product_eq_word, isInf_word (productBits_le n)]
  refine decide_eq_decide.mpr ⟨fun hinf => ?_, fun hlt => ?_⟩
  · exact Nat.lt_of_not_le fun hle => (productBits_lt_iff.mpr hle).ne hinf
  · refine (productBits_le n).antisymm (Nat.le_of_not_lt fun h => ?_)
    exact Nat.not_le_of_lt hlt (productBits_lt_iff.mp h)

theorem product_eq_infinity (h : 170 < n) : product n = infinity := by
  have hbits : ¬ productBits n < infinityBits := fun hlt => Nat.not_le_of_lt h (productBits_lt_iff.mp hlt)
  rw [product_eq_word, (productBits_le n).antisymm (Nat.le_of_not_lt hbits), infinity_eq_word]

/-! ## The loop -/

/-- **The products that arise** are those of the naturals, up to the first that is infinite. -/
theorem risingProducts_eq (hk : k ≤ 170) (count : Nat) :
    risingProducts (product k) (k + 1) count = (List.range' (k + 1) (min count (171 - k))).map product := by
  induction count generalizing k with
  | zero => rw [Nat.zero_min]; rfl
  | succ count ih =>
    simp only [risingProducts, ← product_succ, isInf_product]
    by_cases hlast : 170 < k + 1
    · have hone : min (count + 1) (171 - k) = 1 := by omega
      rw [if_pos (decide_eq_true hlast), hone]
      rfl
    · have hmin : min (count + 1) (171 - k) = min count (171 - (k + 1)) + 1 := by omega
      rw [if_neg (by simpa using hlast), ih (by omega), hmin, List.range'_succ, List.map_cons]

theorem risingProducts_start (count : Nat) :
    risingProducts (ofNat 1) 1 count = (List.range' 1 (min count 171)).map product :=
  risingProducts_eq (Nat.zero_le 170) count

/-- **The factorial** of what is not below zero is the product of the naturals up to it. -/
theorem factorial_eq_product (h : ¬ x < ofNat 0) : factorial x = product (factorCount x) := by
  rw [factorial, if_neg h, risingProducts_start]
  rcases Nat.eq_zero_or_pos (factorCount x) with hzero | hpos
  · rw [hzero]
    rfl
  · have hlast : 1 + min (factorCount x) 171 - 1 = min (factorCount x) 171 := Nat.add_sub_cancel_left 1 _
    rw [List.getLast?_map, List.getLast?_range', if_neg (by omega), hlast, Option.map_some, Option.getD_some]
    rcases Nat.le_total (factorCount x) 171 with hle | hle
    · rw [Nat.min_eq_left hle]
    · rw [Nat.min_eq_right hle, product_eq_infinity (by decide), product_eq_infinity (by omega)]

/-- The loop with a double for a counter: the products that are made of `product` as long as the counter is not above
the limit, and none of them is infinite. -/
inductive Multiplied (limit : Float) : (product counter : Float) → List Float → Prop
  | done {product counter : Float} (hlimit : ¬ counter ≤ limit) : Multiplied limit product counter []
  | overflow {product counter : Float} (hlimit : counter ≤ limit) (hinf : (product * counter).isInf = true) :
    Multiplied limit product counter [product * counter]
  | again {product counter : Float} {products : List Float} (hlimit : counter ≤ limit)
    (hfinite : (product * counter).isInf = false)
    (rest : Multiplied limit (product * counter) (counter + ofNat 1) products) :
    Multiplied limit product counter (product * counter :: products)

theorem multiplied_step {limit p i : Float} {products : List Float} :
    Multiplied limit p i products ↔
      if i ≤ limit then
        if (p * i).isInf then products = [p * i]
        else ∃ rest, products = p * i :: rest ∧ Multiplied limit (p * i) (i + ofNat 1) rest
      else products = [] := by
  constructor
  · intro h
    cases h with
    | done hlimit => rw [if_neg hlimit]
    | overflow hlimit hinf => rw [if_pos hlimit, if_pos hinf]
    | again hlimit hfinite rest =>
      rw [if_pos hlimit, if_neg (Bool.not_eq_true _ ▸ hfinite)]
      exact ⟨_, rfl, rest⟩
  · intro h
    split at h
    · next hlimit =>
      split at h
      · next hinf => exact h ▸ .overflow hlimit hinf
      · next hfinite =>
        obtain ⟨rest, rfl, hrest⟩ := h
        exact .again hlimit (Bool.not_eq_true _ ▸ hfinite) hrest
    · next hlimit => exact h ▸ .done hlimit

/-- **The counter that is a double** counts the factors: the loop makes the products that arise from there. -/
theorem multiplied_iff (hk : k ≤ 170) {products : List Float} :
    Multiplied (floor x) (product k) (ofNat (k + 1)) products ↔
      products = risingProducts (product k) (k + 1) (factorCount x - k) := by
  -- on how far the product is from being infinite
  induction hd : 171 - k generalizing k products with
  | zero => omega
  | succ d ih =>
    have hlimit : ofNat (k + 1) ≤ floor x ↔ k + 1 ≤ factorCount x := by
      rw [ofNat_le_floor k.succ_pos (by omega), ofNat_le_iff k.succ_pos (by omega)]
    rw [multiplied_step, ← product_succ, isInf_product]
    by_cases hcount : k + 1 ≤ factorCount x
    · have hsub : factorCount x - k = factorCount x - (k + 1) + 1 := by omega
      rw [if_pos (hlimit.mpr hcount), hsub, risingProducts, ← product_succ, isInf_product]
      by_cases hlast : 170 < k + 1
      · rw [if_pos (decide_eq_true hlast), if_pos (decide_eq_true hlast)]
      · have hrest : ∀ rest, Multiplied (floor x) (product (k + 1)) (ofNat (k + 1) + ofNat 1) rest ↔
            rest = risingProducts (product (k + 1)) (k + 1 + 1) (factorCount x - (k + 1)) := by
          intro rest
          rw [ofNat_add_one (by omega)]
          exact ih (by omega) (by omega)
        simp only [hrest, decide_eq_false hlast, Bool.false_eq_true, if_false, exists_eq_right]
    · have hnone : factorCount x - k = 0 := by omega
      rw [if_neg (mt hlimit.mp hcount), hnone]
      rfl

theorem isFinite_product (n : Nat) : (product n).isFinite = decide (n ≤ 170) := by
  rw [product_eq_word, isFinite_word (productBits_le n)]
  exact decide_eq_decide.mpr productBits_lt_iff

theorem floor_nonneg (h : ¬ x < ofNat 0) : ¬ floor x < ofNat 0 := by
  rcases not_lt_zero_iff.mp h with rfl | hzero
  · exact fun hlt => (lt_iff.mp hlt).1 (by rw [floor, classify_nan])
  · exact not_lt_zero_iff.mpr (.inr (zero_le_floor hzero))

/-- **The loop ends, and the factorial saturates.** Whatever its argument, the loop with a double for a counter, up to
the whole part of the argument, ends after no more than 171 products, the last of which is the factorial. From zero
up, the factorial is that of the whole part: the product of the naturals up to it, multiplied from the left. It is
finite exactly up to 170, and from 171 on it is infinity. -/
theorem factorial_saturates (x : Float) :
    (∃ products : List Float, products.length ≤ 171 ∧
      (∀ products', Multiplied (floor x) (ofNat 1) (ofNat 1) products' ↔ products' = products) ∧
      (¬ x < ofNat 0 → factorial x = products.getLast?.getD (ofNat 1))) ∧
    (ofNat 0 ≤ x →
      factorial x = factorial (floor x) ∧
      (x.isFinite = true → ∃ n, (floor x == ofNat n) = true ∧ factorial x = product n) ∧
      ((factorial x).isFinite = true ↔ floor x ≤ ofNat 170) ∧
      (ofNat 171 ≤ x → factorial x = infinity)) := by
  refine ⟨⟨risingProducts (ofNat 1) 1 (factorCount x), ?_, fun _ => multiplied_iff (Nat.zero_le 170),
    fun hx => ?_⟩, fun hzero => ?_⟩
  · rw [risingProducts_start, List.length_map, List.length_range']
    exact Nat.min_le_right _ _
  · rw [factorial, if_neg hx]
  · have hx : ¬ x < ofNat 0 := not_lt_zero_iff.mpr (.inr hzero)
    have hproduct : factorial x = product (factorCount x) := factorial_eq_product hx
    have hfloor : factorial (floor x) = product (factorCount (floor x)) := factorial_eq_product (floor_nonneg hx)
    refine ⟨?_, fun hfinite => ⟨factorCount x, floor_beq_ofNat hzero hfinite, hproduct⟩, ?_, fun hle => ?_⟩
    · rw [hproduct, hfloor, factorCount_floor]
    · rw [hproduct, isFinite_product, decide_eq_true_iff, floor_le_ofNat hzero (by decide)]
    · have hcount : 171 ≤ factorCount x := (ofNat_le_iff (by decide) (by decide)).mp hle
      rw [hproduct, product_eq_infinity hcount]

/-! ## Domain and order -/

theorem rank_product (n : Nat) : rank (product n) = productBits n := by
  rw [product_eq_word, rank_word (productBits_le n)]
  rfl

theorem product_ne_nan (n : Nat) : product n ≠ Float.nan := by
  rw [product_eq_word]
  exact ne_nan_word (productBits_le n) false

theorem product_le (h : m ≤ n) : product m ≤ product n := by
  rw [le_iff, rank_product, rank_product, Nat.cast_le]
  exact ⟨product_ne_nan m, product_ne_nan n, monotone_productBits h⟩

/-- What is no number has a factorial: none of the comparisons before the loop or in it holds of it, so that no
factor is multiplied. -/
theorem factorial_nan : factorial Float.nan = ofNat 1 := by
  have hlt : ¬ Float.nan < ofNat 0 := not_lt_zero_iff.mpr (.inl rfl)
  rw [factorial_eq_product hlt, factorCount_nan]
  rfl

/-- **Domain and order.** Only the numbers below zero have no factorial. All others have one of at least one, also
what is no number, and from zero up that of a greater number is no smaller one. -/
theorem factorial_order (x y : Float) :
    ((factorial x).isNaN = true ↔ x < ofNat 0) ∧
    (¬ x < ofNat 0 → ofNat 1 ≤ factorial x) ∧
    (x.isNaN = true → factorial x = ofNat 1) ∧
    (ofNat 0 ≤ x → x ≤ y → factorial x ≤ factorial y) := by
  refine ⟨?_, fun hx => ?_, fun hnan => ?_, fun hzero hle => ?_⟩
  · rw [isNaN_iff_eq_nan]
    by_cases hx : x < ofNat 0
    · have hnan : factorial x = Float.nan := by rw [factorial, if_pos hx]; rfl
      exact iff_of_true hnan hx
    · rw [factorial_eq_product hx]
      exact iff_of_false (product_ne_nan _) hx
  · rw [factorial_eq_product hx, ← product_zero]
    exact product_le (Nat.zero_le _)
  · rw [isNaN_iff_eq_nan.mp hnan, factorial_nan]
  · have hx : ¬ x < ofNat 0 := not_lt_zero_iff.mpr (.inr hzero)
    have hy : ¬ y < ofNat 0 := not_lt_zero_iff.mpr (.inr (le_of_le_of_le hzero hle))
    rw [factorial_eq_product hx, factorial_eq_product hy]
    exact product_le (factorCount_mono hzero hle)

/-- What is no number is not kept: its factorial is one, and an expression that asks for it has a value. -/
theorem factorial_of_no_number :
    Float.nan.isNaN = true ∧ (factorial Float.nan).isNaN = false ∧
      evaluate .degrees "sqrt(-1)!" = .ok (ofNat 1) ∧ evaluate .degrees "fact(0/0)" = .ok (ofNat 1) := by
  refine ⟨?_, ?_, ?_, ?_⟩ <;> decide +kernel

end SciCalc.Double
