import Mathlib
import ProbTrace.Proofs.Extent
import ProbTrace.Value.Arithmetic

/-!
# Numbers of both kinds

An integer that becomes a binary64 number is rounded to a nearest one, and so is every quotient of
integers.  Integers and binary64 numbers are compared with each other by their places in the order.
-/

namespace ProbTrace

namespace Number

open Float.Model Float.Model.UnpackedFloat

variable {x y : Float} {p q : ℚ}

/-! ## Integers -/

theorem divideEven_bounds (num : ℕ) {den : ℕ} (hden : 0 < den) :
    2 * num ≤ (2 * divideEven num den + 1) * den ∧
      2 * divideEven num den * den ≤ 2 * num + den := by
  have hsplit : den * (num / den) + num % den = num := Nat.div_add_mod num den
  have hlt : num % den < den := Nat.mod_lt num hden
  unfold divideEven
  dsimp only
  generalize num / den = q at hsplit ⊢
  generalize num % den = r at hsplit hlt ⊢
  subst hsplit
  split_ifs with hbelow habove
  · constructor <;> nlinarith
  · constructor <;> nlinarith
  · have htie : 2 * r = den := by omega
    rcases Nat.mod_two_eq_zero_or_one q with hbit | hbit <;> rw [hbit] <;> constructor <;> nlinarith

/-- Dividing to the nearest integer misses the quotient by at most a half. -/
theorem abs_divideEven_sub_le (num : ℕ) {den : ℕ} (hden : 0 < den) :
    |(divideEven num den : ℚ) - num / den| ≤ 1 / 2 := by
  have hpos : (0 : ℚ) < den := by exact_mod_cast hden
  obtain ⟨hlow, hhigh⟩ := divideEven_bounds num hden
  have hlow : 2 * (num : ℚ) ≤ (2 * divideEven num den + 1) * den := by exact_mod_cast hlow
  have hhigh : 2 * (divideEven num den : ℚ) * den ≤ 2 * num + den := by exact_mod_cast hhigh
  have hbelow : (num : ℚ) / den ≤ divideEven num den + 1 / 2 := by
    rw [div_le_iff₀ hpos]
    linarith
  have habove : (divideEven num den : ℚ) - 1 / 2 ≤ num / den := by
    rw [le_div_iff₀ hpos]
    linarith
  rw [abs_le]
  constructor <;> linarith

/-- A rounded significand and a power become the number with their word. -/
theorem Rounded.becomes_ofWord {r : ℕ} {t : ℤ} (h : Rounded r t) (negative : Bool) :
    Becomes (signed negative (r * 2 ^ t)) (ofWord negative (min infiniteWord (wordOf r t))) := by
  have hcanonical {m : ℕ} {e : ℤ} (hc : Canonical m e) :
      Becomes (signed negative (m * 2 ^ e)) (ofWord negative (min infiniteWord (wordOf m e))) := by
    have hlt := hc.lt
    have hfull := hc.full
    refine becomes_of_decode hc (fun he => ?_) fun he => ?_
    · have hword : wordOf m e ≤ infiniteWord := by
        simp only [wordOf, infiniteWord, Nat.pow_eq]
        omega
      rw [min_eq_right hword, decode_ofWord negative hc he]
    · have hword : infiniteWord ≤ wordOf m e := by
        simp only [wordOf, infiniteWord, Nat.pow_eq]
        omega
      rw [min_eq_left hword, decode_ofWord_infinite]
  rcases h.canonical_or_carry with hc | ⟨rfl, hc⟩
  · exact hcanonical hc
  · have hword : wordOf (2 ^ 53) t = wordOf (2 ^ 52) (t + 1) := by
      have := h.least
      simp only [wordOf, Nat.pow_eq]
      omega
    rw [carry_value, hword]
    exact hcanonical hc

section Quotients

variable {num den : ℕ}

/-- A quotient lies within a factor of two of that of the leading bits. -/
theorem quotient_bounds (hnum : 0 < num) (hden : 0 < den) :
    (2 : ℚ) ^ ((num.log2 : ℤ) - den.log2 - 1) ≤ num / den ∧
      (num / den : ℚ) < 2 ^ ((num.log2 : ℤ) - den.log2 + 1) := by
  have hpos : (0 : ℚ) < den := by exact_mod_cast hden
  have hnumLow : (2 : ℚ) ^ num.log2 ≤ num := by exact_mod_cast Nat.log2_self_le hnum.ne'
  have hnumHigh : (num : ℚ) < 2 ^ (num.log2 + 1) := by exact_mod_cast Nat.lt_log2_self
  have hdenLow : (2 : ℚ) ^ den.log2 ≤ den := by exact_mod_cast Nat.log2_self_le hden.ne'
  have hdenHigh : (den : ℚ) < 2 ^ (den.log2 + 1) := by exact_mod_cast Nat.lt_log2_self
  constructor
  · rw [le_div_iff₀ hpos]
    calc (2 : ℚ) ^ ((num.log2 : ℤ) - den.log2 - 1) * den
        ≤ 2 ^ ((num.log2 : ℤ) - den.log2 - 1) * 2 ^ (den.log2 + 1) := by gcongr
      _ = 2 ^ num.log2 := by
          rw [mul_comm, two_pow_mul_two_zpow, ← zpow_natCast]
          congr 1
          push_cast
          ring
      _ ≤ num := hnumLow
  · rw [div_lt_iff₀ hpos]
    calc (num : ℚ) < 2 ^ (num.log2 + 1) := hnumHigh
      _ = 2 ^ ((num.log2 : ℤ) - den.log2 + 1) * 2 ^ den.log2 := by
          rw [mul_comm, two_pow_mul_two_zpow, ← zpow_natCast]
          congr 1
          push_cast
          ring
      _ ≤ 2 ^ ((num.log2 : ℤ) - den.log2 + 1) * den := by gcongr

/-- A quotient is compared with a power of two without fractions. -/
theorem below_iff (num : ℕ) (hden : 0 < den) (guess : ℤ) :
    (if 0 ≤ guess then decide (num < den * Nat.pow 2 (52 + guess.toNat))
      else decide (num * Nat.pow 2 (-guess).toNat < den * Nat.pow 2 52)) = true ↔
      (num / den : ℚ) < 2 ^ (52 + guess) := by
  have hpos : (0 : ℚ) < den := by exact_mod_cast hden
  rw [div_lt_iff₀ hpos]
  simp only [Nat.pow_eq]
  by_cases hguess : 0 ≤ guess
  · have hcast : (2 : ℚ) ^ (52 + guess) = ((2 ^ (52 + guess.toNat) : ℕ) : ℚ) := by
      push_cast
      rw [← zpow_natCast]
      congr 1
      omega
    rw [if_pos hguess, decide_eq_true_eq, hcast, mul_comm]
    exact_mod_cast Iff.rfl
  · have hscale : (2 : ℚ) ^ (52 + guess) * 2 ^ (-guess).toNat = 2 ^ 52 := by
      rw [mul_comm, two_pow_mul_two_zpow, ← zpow_natCast]
      congr 1
      omega
    have hfactor : (0 : ℚ) < 2 ^ (-guess).toNat := by positivity
    rw [if_neg hguess, decide_eq_true_eq, ← mul_lt_mul_iff_left₀ hfactor, mul_right_comm, hscale,
      mul_comm (2 ^ 52 : ℚ)]
    exact_mod_cast Iff.rfl

/-- The last place of a quotient by its leading bit. -/
theorem lastPlace_bounds (hnum : 0 < num) (hden : 0 < den) :
    (lastPlace num den = -1074 ∨ 2 ^ 52 ≤ (num / den : ℚ) / 2 ^ lastPlace num den) ∧
      (num / den : ℚ) / 2 ^ lastPlace num den < 2 ^ 53 := by
  obtain ⟨hlow, hhigh⟩ := quotient_bounds hnum hden
  obtain ⟨place, hplace, hfull, hlt⟩ : ∃ place : ℤ, lastPlace num den = max (-1074) place ∧
      (2 : ℚ) ^ (52 + place) ≤ num / den ∧ (num / den : ℚ) < 2 ^ (53 + place) := by
    let guess : ℤ := num.log2 - den.log2 - 52
    have hbelow := below_iff num hden guess
    by_cases hlt : (num / den : ℚ) < 2 ^ (52 + guess)
    · refine ⟨guess - 1, ?_, ?_, ?_⟩
      · rw [lastPlace]
        exact congrArg _ (if_pos (hbelow.mpr hlt))
      · convert hlow using 2
        simp only [guess]
        ring
      · convert hlt using 2
        ring
    · refine ⟨guess, ?_, not_lt.mp hlt, ?_⟩
      · rw [lastPlace]
        exact congrArg _ (if_neg (hbelow.not.mpr hlt))
      · convert hhigh using 2
        simp only [guess]
        ring
  have hpos : (0 : ℚ) < 2 ^ lastPlace num den := by positivity
  rw [le_div_iff₀ hpos, div_lt_iff₀ hpos, hplace]
  constructor
  · by_cases hleast : place ≤ -1074
    · exact .inl (max_eq_left hleast)
    · right
      rw [max_eq_right (by omega)]
      calc (2 : ℚ) ^ 52 * 2 ^ place = 2 ^ (52 + place) := two_pow_mul_two_zpow 52 place
        _ ≤ num / den := hfull
  · calc (num / den : ℚ) < 2 ^ (53 + place) := hlt
      _ ≤ 2 ^ (53 + max (-1074) place) := zpow_le_zpow_right₀ (by norm_num) (by omega)
      _ = 2 ^ 53 * 2 ^ max (-1074) place := (two_pow_mul_two_zpow 53 _).symm

/-- The magnitude of a quotient is that of a nearest binary64 number. -/
theorem exists_magnitudeOfRatio (num : ℕ) (hden : 0 < den) :
    ∃ r t, Rounded r t ∧ Nearest (num / den) (r * 2 ^ t) ∧
      magnitudeOfRatio num den = min infiniteWord (wordOf r t) := by
  rcases Nat.eq_zero_or_pos num with rfl | hnum
  · have hword : wordOf 0 (-1074) = 0 := by simp [wordOf]
    refine ⟨0, -1074, ⟨by norm_num, le_rfl, .inl rfl⟩, ?_, ?_⟩
    · rw [Nat.cast_zero, zero_div, zero_mul]
      exact OnGrid.zero.nearest
    · rw [magnitudeOfRatio, if_pos rfl, hword, Nat.min_zero]
  let t : ℤ := lastPlace num den
  let r : ℕ := if 0 ≤ t then divideEven num (den * 2 ^ t.toNat)
    else divideEven (num * 2 ^ (-t).toNat) den
  have hmagnitude : magnitudeOfRatio num den = min infiniteWord (wordOf r t) := by
    simp only [magnitudeOfRatio, if_neg hnum.ne']
    rfl
  have hround : |(r : ℚ) - num / den / 2 ^ t| ≤ 1 / 2 := by
    by_cases ht : 0 ≤ t
    · have hbound := abs_divideEven_sub_le num (Nat.mul_pos hden (Nat.two_pow_pos t.toNat))
      have hpower : ((den * 2 ^ t.toNat : ℕ) : ℚ) = den * 2 ^ t := by
        push_cast
        rw [← zpow_natCast, Int.toNat_of_nonneg ht]
      rw [hpower, ← div_div] at hbound
      simpa only [r, if_pos ht] using hbound
    · have hbound := abs_divideEven_sub_le (num * 2 ^ (-t).toNat) hden
      have hpower : ((num * 2 ^ (-t).toNat : ℕ) : ℚ) = num / 2 ^ t := by
        push_cast
        rw [← zpow_natCast, Int.toNat_of_nonneg (by omega), zpow_neg, div_eq_mul_inv]
      rw [hpower, div_right_comm] at hbound
      simpa only [r, if_neg ht] using hbound
  have hbounds := lastPlace_bounds hnum hden
  have hleast : -1074 ≤ t := le_max_left _ _
  exact ⟨r, t, rounded_of_abs_sub_le hleast hround hbounds.1 hbounds.2,
    nearest_of_rounded hleast hround hbounds.1 hbounds.2, hmagnitude⟩

/-- A quotient of integers is rounded to a nearest binary64 number. -/
theorem rounds_ofRatio (negative : Bool) (num : ℕ) (hden : 0 < den) :
    Rounds (signed negative (num / den)) (ofRatio negative num den) := by
  obtain ⟨r, t, hrounded, hnearest, hmagnitude⟩ := exists_magnitudeOfRatio num hden
  refine ⟨_, hnearest.signed negative, ?_⟩
  rw [ofRatio, hmagnitude]
  exact hrounded.becomes_ofWord negative

end Quotients

theorem decode_ofWord_ne_infinite {w : ℕ} (negative : Bool) (hw : w < infiniteWord) (b : Bool) :
    decode (ofWord negative w) ≠ .infinite b := by
  have hlt : w < 2047 * 2 ^ 52 := hw
  have hexponent : (ofWord negative w).toBits.toNat / 2 ^ 52 % 2 ^ 11 ≠ 2047 := by
    rw [toNat_toBits_ofWord negative hw.le]
    simp only [Nat.pow_eq]
    split_ifs <;> omega
  simp only [decode, Nat.pow_eq, if_neg hexponent]
  split_ifs <;> rintro ⟨⟩

/-- An integer that is not too large is rounded to a nearest binary64 number. -/
theorem nearest_of_ofInt {i : ℤ} {x : Float} (h : ofInt? i = some x) :
    ∃ q, Nearest i q ∧ value? x = some q := by
  have hrounds := rounds_ofRatio (decide (i < 0)) i.natAbs Nat.one_pos
  have hvalue : signed (decide (i < 0)) ((i.natAbs : ℚ) / ((1 : ℕ) : ℚ)) = i := by
    rw [Nat.cast_one, div_one, Nat.cast_natAbs]
    by_cases hi : i < 0
    · simp [signed, hi, abs_of_neg hi]
    · simp [signed, hi, abs_of_nonneg (not_lt.mp hi)]
  rw [hvalue, ofRatio] at hrounds
  have hle : magnitudeOfRatio i.natAbs 1 ≤ infiniteWord := by
    rw [magnitudeOfRatio]
    split
    · exact Nat.zero_le _
    · exact min_le_left _ _
  have hsign : (decide (i < 0) != decide ((1 : ℤ) < 0)) = decide (i < 0) := by simp
  simp only [ofInt?, ofQuotient?, hsign] at h
  split at h
  · cases h
  · rename_i hne
    cases h
    obtain ⟨q, hnearest, hfinite | hinfinite⟩ := hrounds
    · exact ⟨q, hnearest, hfinite.2⟩
    · exact absurd hinfinite.2 (decode_ofWord_ne_infinite _ (lt_of_le_of_ne hle hne) _)

/-- A natural number is rounded to a nearest binary64 number. -/
theorem rounds_toFloat (n : ℕ) : Rounds n n.toFloat := by
  by_cases hn : n < 2 ^ 53
  · have hword : n.toUInt64.toNat = n := by
      rw [Nat.toUInt64_eq, UInt64.toNat_ofNat']
      exact Nat.mod_eq_of_lt (by omega)
    have hfloat : n.toFloat = n.toUInt64.toFloat * 1.0 := dif_pos ⟨hn, by norm_num⟩
    have hrounds : Rounds n n.toUInt64.toFloat := by
      have hnormal := rounds_normalize n.toUInt64.toNat 0 .positive
      rw [zpow_zero, mul_one, Int.cast_natCast, hword] at hnormal
      have hinteger : n.toUInt64.toFloat =
          ⟨Float.Model.pack
            (UnpackedFloat.normalize Format.binary64 n.toUInt64.toNat 0 .positive)⟩ := rfl
      rwa [hinteger, hword]
    have hvalue : value? n.toUInt64.toFloat = some n := by
      refine hrounds.value_eq (.natCast hn.le) ?_
      rw [abs_of_nonneg (by positivity)]
      calc (n : ℚ) < 2 ^ 53 := by exact_mod_cast hn
        _ ≤ 2 ^ 1024 := pow_le_pow_right₀ (by norm_num) (by norm_num)
    have hproduct := rounds_mul hvalue value?_one
    rw [mul_one] at hproduct
    rw [hfloat]
    exact hproduct
  · have hpos : 0 < n := by omega
    have hfloat : n.toFloat = ⟨Float.Model.pack (UnpackedFloat.ofScientific Format.binary64 n 0)⟩ :=
      dif_neg (fun h => hn h.1)
    have hscientific : UnpackedFloat.ofScientific Format.binary64 n 0 =
        roundWithAccuracy Format.binary64 .positive (n <<< 53) (-53) .exact := by
      rw [UnpackedFloat.ofScientific, dif_neg hpos.ne', if_neg (by decide), if_neg, if_pos le_rfl]
      · rw [mul_finite, Int.toNat_zero, pow_zero, mul_one]
        rfl
      · have : (0 : ℤ) < 2 ^ Format.binary64.exponentBits := by decide
        omega
    have hvalue : (n : ℚ) = ((n <<< 53 : ℕ) : ℚ) * 2 ^ (-53 : ℤ) := by
      rw [Nat.shiftLeft_eq, Nat.cast_mul, Nat.cast_pow, Nat.cast_ofNat, mul_assoc]
      norm_num
    have hlog := log2_shiftLeft hpos 53
    have hrounds := rounds_roundWithAccuracy (e := -53) .positive (extends_exact (n <<< 53))
      (by omega) (.inl (by rw [Nat.shiftLeft_eq]; positivity))
    rw [← hvalue] at hrounds
    rw [hfloat, hscientific]
    exact hrounds

/-! ## Logarithms -/

theorem logOfFloat_of_pos {x : Float} {q : ℚ} (h : value? x = some q) (hq : 0 < q) :
    logOfFloat x = .ok x.log := by
  have hpos : 0.0 < x := (lt_iff_value value?_zero h).mpr hq
  rw [logOfFloat, isNaN_of_value h, if_neg Bool.false_ne_true, if_pos hpos, isInf_of_value h]
  rfl

/-! ## Comparison -/

/-- An integer is compared with a finite number by their values. -/
theorem compareInt_of_value (i : ℤ) (hx : value? x = some p) :
    compareInt i x = some (compare (i : ℚ) p) := by
  rw [value?] at hx
  cases hdecode : decode x with
  | nan =>
    rw [hdecode] at hx
    cases hx
  | infinite negative =>
    rw [hdecode] at hx
    cases hx
  | finite negative m e =>
    rw [hdecode] at hx
    cases hx
    simp only [compareInt, hdecode, ratio, Nat.pow_eq]
    have hscale : (0 : ℚ) < ((2 ^ (-e).toNat : ℕ) : ℚ) := by positivity
    -- the numerator is the value in units of the denominator
    have hmagnitude : ((if 0 ≤ e then m * 2 ^ e.toNat else m : ℕ) : ℚ) =
        m * 2 ^ e * ((2 ^ (-e).toNat : ℕ) : ℚ) := by
      by_cases he : 0 ≤ e
      · have hzero : (-e).toNat = 0 := by omega
        rw [if_pos he, hzero]
        push_cast
        rw [← zpow_natCast, Int.toNat_of_nonneg he]
        ring
      · have hcancel : (2 : ℚ) ^ e * ((2 ^ (-e).toNat : ℕ) : ℚ) = 1 := by
          push_cast
          rw [← zpow_natCast, Int.toNat_of_nonneg (by omega), ← zpow_add₀ two_ne_zero]
          simp
        rw [if_neg he, mul_assoc, hcancel, mul_one]
    rw [Option.some.injEq, ← compare_scaled hscale]
    generalize (if 0 ≤ e then m * 2 ^ e.toNat else m : ℕ) = num at hmagnitude ⊢
    generalize (2 ^ (-e).toNat : ℕ) = den at hmagnitude hscale ⊢
    have hnum : signed negative ((m : ℚ) * 2 ^ e) * den =
        ((if negative then -(num : ℤ) else num : ℤ) : ℚ) := by
      cases negative <;> simp [signed, hmagnitude]
    rw [hnum]
    generalize (if negative = true then -(num : ℤ) else num) = n
    have hcast : (i : ℚ) * den = ((i * den : ℤ) : ℚ) := by push_cast; ring
    rw [hcast]
    exact (compare_map Int.cast_strictMono _ n).symm

/-- An integer is compared with a number by their places. -/
theorem compareInt_eq_extent (i : ℤ) (x : Float) :
    compareInt i x = (extent? x).map (compare (finitePlace i)) := by
  cases hdecode : decode x with
  | nan => simp [compareInt, extent?, hdecode, Decoded.extent?]
  | infinite negative =>
    simp only [compareInt, extent?, hdecode, Decoded.extent?, Option.map_some]
    rw [compare_coe_infinitePlace]
  | finite negative m e =>
    have hvalue : value? x = some (signed negative (m * 2 ^ e)) := by
      rw [value?, hdecode]
      rfl
    rw [compareInt_of_value i hvalue, extent?_eq_coe.mpr hvalue]
    simp only [Option.map_some, compare_coe]

end Number

open Number

/-- The place of a number in the order, if it is one. -/
def Numeric.extent? : Numeric → Option Place
  | int i => some (finitePlace i)
  | float x => Number.extent? x

/-- Numbers of both kinds are compared by their places. -/
theorem Numeric.compare?_eq_extent (a b : Numeric) :
    a.compare? b = a.extent?.bind fun p => b.extent?.map (compare p) := by
  cases a with
  | int i =>
    cases b with
    | int j =>
      show some (compare i j) = some _
      rw [compare_coe, compare_map Int.cast_strictMono]
    | float y => exact compareInt_eq_extent i y
  | float x =>
    cases b with
    | int j =>
      rw [compare?, compareInt_eq_extent]
      show _ = (Number.extent? x).bind fun p => some _
      cases Number.extent? x with
      | none => rfl
      | some p =>
        show some _ = some _
        rw [← cmp_eq_compare, ← cmp_eq_compare, cmp_swap]
    | float y =>
      have hless := lt_iff_extent x y
      have hequal := beq_iff_extent x y
      have hgreater := lt_iff_extent y x
      show (if x < y then _ else _) = (Number.extent? x).bind fun p => (Number.extent? y).map _
      cases hx : Number.extent? x with
      | none =>
        simp only [hx, reduceCtorEq, false_and, exists_false, and_false,
          iff_false] at hless hequal hgreater
        rw [if_neg hless, if_neg hequal, if_neg hgreater]
        rfl
      | some p =>
        cases hy : Number.extent? y with
        | none =>
          simp only [hy, reduceCtorEq, false_and, exists_false, and_false,
            iff_false] at hless hequal hgreater
          rw [if_neg hless, if_neg hequal, if_neg hgreater]
          rfl
        | some q =>
          simp only [hx, hy, Option.some.injEq, exists_and_left,
            exists_eq_left'] at hless hequal hgreater
          show _ = some _
          rcases lt_trichotomy p q with h | h | h
          · rw [if_pos (hless.mpr h), compare_lt_iff_lt.mpr h]
          · rw [if_neg (hless.not.mpr h.not_lt), if_pos (hequal.mpr h.symm),
              compare_eq_iff_eq.mpr h]
          · rw [if_neg (hless.not.mpr h.not_gt), if_neg (hequal.not.mpr h.ne),
              if_pos (hgreater.mpr h), compare_gt_iff_gt.mpr h]

/-! ## Values -/

namespace Relation

variable {p q : Place}

theorem holds_less : Relation.less.holds (compare p q) = true ↔ p < q := by
  rw [holds, Ordering.isLT_iff_eq_lt, compare_lt_iff_lt]

theorem holds_greater : Relation.greater.holds (compare p q) = true ↔ q < p := by
  rw [holds, Ordering.isGT_iff_eq_gt, compare_gt_iff_gt]

theorem holds_lessEqual : Relation.lessEqual.holds (compare p q) = true ↔ p ≤ q := by
  rw [holds, isLE_compare]

/-- Two numbers are in a relation exactly if their places are. -/
theorem ofNumbers_eq_true {r : Relation} {a b : Numeric} :
    r.ofNumbers a b = true ↔
      ∃ p q, a.extent? = some p ∧ b.extent? = some q ∧ r.holds (compare p q) = true := by
  rw [ofNumbers, Numeric.compare?_eq_extent]
  cases a.extent? <;> cases b.extent? <;> simp

end Relation

theorem Numeric.exists_numeric_of_combine {exact : Int → Int → Int}
    {rounded : Float → Float → Float} {a b : Numeric} {d : Value}
    (h : a.combine exact rounded b = .ok d) : ∃ c, d.numeric? = some c := by
  cases a <;> cases b
  · cases h
    exact ⟨_, rfl⟩
  all_goals
    obtain ⟨x, hx, h⟩ := exists_of_bind_ok h
    obtain ⟨y, hy, h⟩ := exists_of_bind_ok h
    cases h
    exact ⟨_, rfl⟩

theorem Value.relateAtoms_of_numeric {v w : Value} {a b : Numeric} (r : Relation)
    (hv : v.numeric? = some a) (hw : w.numeric? = some b) :
    v.relateAtoms r w = .ok (r.ofNumbers a b) := by
  simp only [relateAtoms, hv, hw]

theorem Value.exists_numeric_of_subtract {v w d : Value} (h : v.subtract w = .ok d) :
    ∃ c, d.numeric? = some c := by
  obtain ⟨a, -, h⟩ := exists_of_bind_ok h
  obtain ⟨b, -, h⟩ := exists_of_bind_ok h
  exact Numeric.exists_numeric_of_combine h

end ProbTrace
