import Mathlib
import ProbTrace.Proofs.Grid

/-!
# Rounding of the arithmetic operations

The sum, the difference, the product and the quotient of two finite binary64 numbers are their exact
results, rounded to a nearest number of the grid.  The operations keep a significand with two extra
bits, which say where between two integers the exact one lies.  Shifting to the last place keeps
that, and the bits decide how the significand is rounded there.
-/

namespace ProbTrace

namespace Number

open Float.Model Float.Model.UnpackedFloat

/-! ## Significands with extra bits -/

/-- What a significand with its two extra bits says of an exact one: the bits tell where between
two integers it lies. -/
def Extends (em : ExtendedMantissa) (x : ℚ) : Prop :=
  match em.accuracy with
  | .exact => x = em.mantissa
  | .inexact .lt => em.mantissa < x ∧ x < em.mantissa + 1 / 2
  | .inexact .eq => x = em.mantissa + 1 / 2
  | .inexact .gt => em.mantissa + 1 / 2 < x ∧ x < em.mantissa + 1

namespace Extends

variable {em : ExtendedMantissa} {x : ℚ}

theorem bounds (h : Extends em x) : em.mantissa ≤ x ∧ x < em.mantissa + 1 := by
  obtain ⟨m, r, s⟩ := em
  cases r <;> cases s <;> simp only [Extends, ExtendedMantissa.accuracy] at h <;>
    constructor <;> linarith

theorem shiftRightOne (h : Extends em x) : Extends em.shiftRightOne (x / 2) := by
  obtain ⟨m, r, s⟩ := em
  obtain ⟨k, rfl | rfl⟩ := Nat.even_or_odd' m
  · have hhalf : 2 * k / 2 = k := by omega
    cases r <;> cases s <;>
      simp [Extends, ExtendedMantissa.accuracy, ExtendedMantissa.shiftRightOne, hhalf] at h ⊢ <;>
      (try constructor) <;> linarith
  · have hhalf : (2 * k + 1) / 2 = k := by omega
    cases r <;> cases s <;>
      simp [Extends, ExtendedMantissa.accuracy, ExtendedMantissa.shiftRightOne, hhalf,
        Nat.add_mod] at h ⊢ <;>
      (try constructor) <;> linarith

theorem shiftRight (h : Extends em x) (k : ℕ) : Extends (em >>> k) (x / 2 ^ k) := by
  show Extends (Nat.repeat ExtendedMantissa.shiftRightOne k em) _
  induction k with
  | zero => simpa [Nat.repeat] using h
  | succ k ih =>
    rw [Nat.repeat, pow_succ, ← div_div]
    exact ih.shiftRightOne

/-- The rounded significand is as near as an integer can be. -/
theorem abs_rounded_sub_le (h : Extends em x) : |em.roundedMantissa - x| ≤ 1 / 2 := by
  obtain ⟨m, r, s⟩ := em
  have hbit : (m : ℕ) % 2 = 0 ∨ m % 2 = 1 := by omega
  rw [abs_le]
  cases r <;> cases s <;>
    simp only [Extends, ExtendedMantissa.accuracy, ExtendedMantissa.roundedMantissa,
      Accuracy.roundToNearestEven] at h ⊢
  · constructor <;> linarith
  · constructor <;> linarith
  · rcases hbit with hbit | hbit <;> rw [hbit] <;> push_cast <;> constructor <;> linarith
  · push_cast
    constructor <;> linarith

end Extends

/-! ## Rounding to the last place -/

theorem targetExponent_eq (m : ℕ) (e : ℤ) :
    Format.binary64.targetExponent (totalExponent m e) = max (m.log2 + e - 52) (-1074) := by
  have hleast : Format.binary64.minExponent = -1074 := rfl
  have hwidth : ((Format.binary64.mantissaBits : ℕ) : ℤ) = 53 := rfl
  rw [Format.targetExponent, totalExponent, hleast, hwidth]
  congr 1
  ring

/-- The last step of rounding: a significand that was rounded up to the next power of two gets the
next larger power. -/
def carried (s : Sign) (r : ℕ) (t : ℤ) : UnpackedFloat :=
  let shifted := shiftToTargetExponent Format.binary64 r t .exact
  if h : shifted.1.mantissa = 0 then .zero s
  else .finite s shifted.1.mantissa shifted.2 (Nat.pos_of_ne_zero h)

theorem roundWithAccuracy_eq (s : Sign) (m : ℕ) (e : ℤ) (acc : Accuracy) :
    roundWithAccuracy Format.binary64 s m e acc =
      carried s (shiftToTargetExponent Format.binary64 m e acc).1.roundedMantissa
        (shiftToTargetExponent Format.binary64 m e acc).2 :=
  rfl

theorem carried_of_lt {r : ℕ} {t : ℤ} (s : Sign) (hr : r < 2 ^ 53) (ht : -1074 ≤ t) :
    carried s r t = if h : r = 0 then .zero s else .finite s r t (Nat.pos_of_ne_zero h) := by
  have hlog : r.log2 < 53 := by
    by_cases hzero : r = 0
    · simp [hzero]
    · exact (Nat.log2_lt hzero).mpr hr
  have hshift : (Format.binary64.targetExponent (totalExponent r t) - t).toNat = 0 := by
    rw [targetExponent_eq]
    omega
  simp only [carried, shiftToTargetExponent, shiftToExponent, hshift]
  show (if h : r = 0 then UnpackedFloat.zero s else .finite s r (t + 0) _) = _
  simp only [add_zero]

theorem carried_of_eq {t : ℤ} (s : Sign) (ht : -1074 ≤ t) :
    carried s (2 ^ 53) t = .finite s (2 ^ 52) (t + 1) (by decide) := by
  have hshift : (Format.binary64.targetExponent (totalExponent (2 ^ 53) t) - t).toNat = 1 := by
    rw [targetExponent_eq, Nat.log2_two_pow]
    omega
  simp only [carried, shiftToTargetExponent, shiftToExponent, hshift]
  rfl

theorem Rounded.becomes {r : ℕ} {t : ℤ} (h : Rounded r t) (s : Sign) :
    Becomes (signed (isNegative s) (r * 2 ^ t)) ⟨Float.Model.pack (carried s r t)⟩ := by
  rcases h.canonical_or_carry with hc | ⟨rfl, hc⟩
  · rw [carried_of_lt s hc.lt hc.least]
    by_cases hzero : r = 0
    · have hsigned : signed (isNegative s) ((r : ℚ) * 2 ^ t) = 0 := by
        rw [hzero]
        cases s <;> simp [signed]
      rw [dif_pos hzero, hsigned]
      exact becomes_zero s
    · rw [dif_neg hzero]
      exact becomes_pack s _ hc
  · rw [carried_of_eq s h.least, carry_value]
    exact becomes_pack s _ hc

/-- The last place of a number by its leading bit: the number then has the full width, unless the
place is the least one. -/
theorem scaled_bounds {m : ℕ} {e t : ℤ} {x : ℚ} (hx : m ≤ x ∧ x < m + 1)
    (ht : t = max (m.log2 + e - 52) (-1074)) (hm : 0 < m ∨ t = -1074) :
    (t = -1074 ∨ 2 ^ 52 ≤ x * 2 ^ e / 2 ^ t) ∧ x * 2 ^ e / 2 ^ t < 2 ^ 53 := by
  have hpos : (0 : ℚ) < 2 ^ t := by positivity
  constructor
  · by_cases hleast : t = -1074
    · exact .inl hleast
    · have hplace : (52 : ℤ) + t = m.log2 + e := by omega
      have hm : 0 < m := by
        rcases hm with h | h
        · exact h
        · exact absurd h hleast
      have hlog : (2 : ℚ) ^ m.log2 ≤ x := by
        have : 2 ^ m.log2 ≤ m := Nat.log2_self_le hm.ne'
        calc (2 : ℚ) ^ m.log2 ≤ m := by exact_mod_cast this
          _ ≤ x := hx.1
      refine .inr ?_
      rw [le_div_iff₀ hpos]
      calc (2 : ℚ) ^ 52 * 2 ^ t = 2 ^ m.log2 * 2 ^ e := by
            rw [← zpow_natCast, ← zpow_natCast, ← zpow_add₀ two_ne_zero, ← zpow_add₀ two_ne_zero]
            congr 1
        _ ≤ x * 2 ^ e := by gcongr
  · have hlog : x < 2 ^ (m.log2 + 1) := by
      have : m + 1 ≤ 2 ^ (m.log2 + 1) := Nat.lt_log2_self
      calc x < m + 1 := hx.2
        _ ≤ 2 ^ (m.log2 + 1) := by exact_mod_cast this
    rw [div_lt_iff₀ hpos]
    calc x * 2 ^ e < 2 ^ (m.log2 + 1) * 2 ^ e := by gcongr
      _ ≤ 2 ^ 53 * 2 ^ t := by
          rw [← zpow_natCast, ← zpow_natCast, ← zpow_add₀ two_ne_zero, ← zpow_add₀ two_ne_zero]
          refine zpow_le_zpow_right₀ (by norm_num) ?_
          push_cast
          omega

/-- A significand with its extra bits is rounded to a nearest binary64 number, if its power is not
above that of the last place. -/
theorem rounds_roundWithAccuracy {m : ℕ} {e : ℤ} {acc : Accuracy} {x : ℚ} (s : Sign)
    (hx : Extends (ExtendedMantissa.ofMantissaAndAccuracy m acc) x)
    (he : e ≤ max (m.log2 + e - 52) (-1074))
    (hm : 0 < m ∨ max (m.log2 + e - 52) (-1074) = -1074) :
    Rounds (signed (isNegative s) (x * 2 ^ e))
      ⟨Float.Model.pack (roundWithAccuracy Format.binary64 s m e acc)⟩ := by
  let t : ℤ := max (m.log2 + e - 52) (-1074)
  let em := ExtendedMantissa.ofMantissaAndAccuracy m acc >>> (t - e).toNat
  have hmantissa : (ExtendedMantissa.ofMantissaAndAccuracy m acc).mantissa = m := by
    rcases acc with _ | _ | _ | _ <;> rfl
  have hshift : shiftToTargetExponent Format.binary64 m e acc = (em, t) := by
    simp only [shiftToTargetExponent, shiftToExponent, targetExponent_eq]
    congr 1
    omega
  have hscale : x / 2 ^ (t - e).toNat = x * 2 ^ e / 2 ^ t := by
    have hpower : (2 : ℚ) ^ t = 2 ^ (t - e).toNat * 2 ^ e := by
      rw [← zpow_natCast, ← zpow_add₀ two_ne_zero]
      congr 1
      omega
    rw [hpower]
    field_simp
  have hem : Extends em (x * 2 ^ e / 2 ^ t) := hscale ▸ hx.shiftRight (t - e).toNat
  have hbounds : (t = -1074 ∨ 2 ^ 52 ≤ x * 2 ^ e / 2 ^ t) ∧ x * 2 ^ e / 2 ^ t < 2 ^ 53 :=
    scaled_bounds (hmantissa ▸ hx.bounds) rfl hm
  have hround := hem.abs_rounded_sub_le
  have hleast : -1074 ≤ t := le_max_right _ _
  have hrounded := rounded_of_abs_sub_le hleast hround hbounds.1 hbounds.2
  refine ⟨_, (nearest_of_rounded hleast hround hbounds.1 hbounds.2).signed _, ?_⟩
  rw [roundWithAccuracy_eq, hshift]
  exact hrounded.becomes s

/-! ## Operations -/

theorem rounds_zero (s : Sign) : Rounds 0 ⟨Float.Model.pack (.zero s)⟩ := by
  exact ⟨0, OnGrid.zero.nearest, becomes_zero s⟩

theorem extends_exact (m : ℕ) :
    Extends (ExtendedMantissa.ofMantissaAndAccuracy m .exact) (m : ℚ) := by
  rfl

theorem log2_shiftLeft {m : ℕ} (hm : 0 < m) (k : ℕ) : (m <<< k).log2 = m.log2 + k := by
  rw [Nat.shiftLeft_eq]
  have hne : m * 2 ^ k ≠ 0 := by positivity
  rw [Nat.log2_eq_iff hne]
  have hlow : 2 ^ m.log2 ≤ m := Nat.log2_self_le hm.ne'
  have hhigh : m < 2 ^ (m.log2 + 1) := Nat.lt_log2_self
  constructor
  · rw [pow_add]
    exact Nat.mul_le_mul_right _ hlow
  · rw [Nat.add_right_comm, pow_add]
    exact Nat.mul_lt_mul_of_pos_right hhigh (by positivity)

/-- A significand and any power are rounded to a nearest binary64 number. -/
theorem rounds_round {m : ℕ} (hm : 0 < m) (e : ℤ) (s : Sign) :
    Rounds (signed (isNegative s) (m * 2 ^ e))
      ⟨Float.Model.pack (UnpackedFloat.round Format.binary64 s m e)⟩ := by
  let t : ℤ := max (m.log2 + e - 52) (-1074)
  let k := (e - t).toNat
  have hpos : 0 < m <<< k := by
    rw [Nat.shiftLeft_eq]
    positivity
  have hround : UnpackedFloat.round Format.binary64 s m e =
      roundWithAccuracy Format.binary64 s (m <<< k) (e - k) .exact := by
    simp only [UnpackedFloat.round, targetExponent_eq]
    rfl
  have hvalue : (m : ℚ) * 2 ^ e = ((m <<< k : ℕ) : ℚ) * 2 ^ (e - k) := by
    rw [Nat.shiftLeft_eq, zpow_sub₀ two_ne_zero, zpow_natCast]
    push_cast
    field_simp
  rw [hround, hvalue]
  refine rounds_roundWithAccuracy s (extends_exact _) ?_ (.inl hpos)
  rw [log2_shiftLeft hm]
  omega

theorem rounds_normalize (n e : ℤ) (s : Sign) :
    Rounds (n * 2 ^ e) ⟨Float.Model.pack (UnpackedFloat.normalize Format.binary64 n e s)⟩ := by
  rcases lt_trichotomy n 0 with hn | rfl | hn
  · have hcompare : compare n 0 = .lt := Int.compare_eq_lt.mpr hn
    have hround := rounds_round (m := (-n).toNat) (by omega) e .negative
    have hvalue : signed (isNegative .negative) (((-n).toNat : ℚ) * 2 ^ e) = n * 2 ^ e := by
      have hcast : (((-n).toNat : ℤ) : ℚ) = ((-n : ℤ) : ℚ) := by
        rw [Int.toNat_of_nonneg (by omega)]
      rw [Int.cast_natCast] at hcast
      rw [hcast, signed]
      simp
    rw [hvalue] at hround
    simpa only [UnpackedFloat.normalize, hcompare] using hround
  · rw [Int.cast_zero, zero_mul]
    exact rounds_zero s
  · have hcompare : compare n 0 = .gt := Int.compare_eq_gt.mpr hn
    have hround := rounds_round (m := n.toNat) (by omega) e .positive
    have hvalue : signed (isNegative .positive) ((n.toNat : ℚ) * 2 ^ e) = n * 2 ^ e := by
      have hcast : ((n.toNat : ℤ) : ℚ) = (n : ℚ) := by
        rw [Int.toNat_of_nonneg (by omega)]
      rw [Int.cast_natCast] at hcast
      rw [hcast, signed]
      simp
    rw [hvalue] at hround
    simpa only [UnpackedFloat.normalize, hcompare] using hround

/-- What is rounded between two finite numbers has a value. -/
theorem Rounds.exists_value {z p r : ℚ} {x : Float} (h : Rounds z x) (hp : OnGrid p) (hr : OnGrid r)
    (hlow : p ≤ z) (hhigh : z ≤ r) (hplt : |p| < 2 ^ 1024) (hrlt : |r| < 2 ^ 1024) :
    ∃ q, Nearest z q ∧ value? x = some q ∧ p ≤ q ∧ q ≤ r := by
  obtain ⟨q, hnearest, hbecomes⟩ := h
  have hpq := hnearest.ge hp hlow
  have hqr := hnearest.le_of_le hr hhigh
  refine ⟨q, hnearest, ?_, hpq, hqr⟩
  rcases hbecomes with hfinite | hinfinite
  · exact hfinite.2
  · have hlt : |q| < 2 ^ 1024 :=
      abs_lt.mpr ⟨(abs_lt.mp hplt).1.trans_le hpq, hqr.trans_lt (abs_lt.mp hrlt).2⟩
    exact absurd hlt hinfinite.1.not_gt

/-- Rounding does not leave the numbers up to a power of two that is a binary64 number. -/
theorem Rounds.exists_value_of_abs_le {z : ℚ} {x : Float} {n : ℕ} (h : Rounds z x)
    (hle : |z| ≤ 2 ^ n) (hn : n < 1024) : ∃ q, value? x = some q ∧ |q| ≤ 2 ^ n := by
  have hpower : |(2 : ℚ) ^ n| < 2 ^ 1024 := by
    rw [abs_of_pos (by positivity)]
    exact pow_lt_pow_right₀ (by norm_num) hn
  have hgrid : OnGrid (2 ^ n) := .two_pow n
  obtain ⟨q, -, hq, hlow, hhigh⟩ := h.exists_value hgrid.neg hgrid (abs_le.mp hle).1
    (abs_le.mp hle).2 (by rwa [abs_neg]) hpower
  exact ⟨q, hq, abs_le.mpr ⟨hlow, hhigh⟩⟩

theorem Rounds.value_eq {z : ℚ} {x : Float} (h : Rounds z x) (hz : OnGrid z)
    (hlt : |z| < 2 ^ 1024) : value? x = some z := by
  obtain ⟨q, hnearest, hfinite | hinfinite⟩ := h
  · rw [hfinite.2, hnearest.eq_of_onGrid hz]
  · rw [hnearest.eq_of_onGrid hz] at hinfinite
    exact absurd hlt hinfinite.1.not_gt

/-- What a number with a value unpacks to. -/
inductive Operand : UnpackedFloat → ℚ → Prop
  | zero (s : Sign) : Operand (.zero s) 0
  | finite {s : Sign} {m : ℕ} {e : ℤ} (hm : 0 < m) :
      Canonical m e → e ≤ 971 → Operand (.finite s m e hm) (signed (isNegative s) (m * 2 ^ e))

theorem power_le {x : Float} {negative : Bool} {m : ℕ} {e : ℤ}
    (h : decode x = .finite negative m e) : e ≤ 971 := by
  simp only [decode, Nat.pow_eq] at h
  split at h
  · split at h <;> cases h
  · split at h
    · cases h
      omega
    · cases h
      omega

theorem operand_of_value {x : Float} {q : ℚ} (h : value? x = some q) :
    Operand x.toModel.unpack q := by
  have hdecode := decode_eq_ofUnpacked x
  rw [value?] at h
  cases hu : x.toModel.unpack with
  | notANumber =>
    rw [hdecode, hu] at h
    cases h
  | infinity s =>
    rw [hdecode, hu] at h
    cases h
  | zero s =>
    rw [hdecode, hu] at h
    have hq : q = 0 := by
      cases s <;> simpa [Decoded.value?, signed] using h.symm
    subst hq
    exact .zero s
  | finite s m e hm =>
    rw [hu] at hdecode
    rw [hdecode] at h
    cases h
    exact .finite hm (canonical_decode hdecode) (power_le hdecode)

theorem Operand.onGrid {u : UnpackedFloat} {q : ℚ} (h : Operand u q) : OnGrid q := by
  cases h with
  | zero s => exact .zero
  | @finite s m e hm hc he =>
    refine OnGrid.signed ⟨m, e, ?_, hc.least, by push_cast; ring⟩ _
    rw [abs_of_nonneg (by positivity)]
    exact_mod_cast hc.lt.le

theorem Operand.abs_add_le {u : UnpackedFloat} {q : ℚ} (h : Operand u q) :
    |q| + 2 ^ (971 : ℤ) ≤ 2 ^ 1024 := by
  cases h with
  | zero s =>
    rw [abs_zero, zero_add, ← zpow_natCast]
    exact zpow_le_zpow_right₀ one_le_two (by norm_num)
  | @finite s m e hm hc he =>
    rw [abs_signed, abs_of_nonneg (by positivity)]
    exact mul_two_zpow_add_le hc.lt he

theorem Operand.abs_lt {u : UnpackedFloat} {q : ℚ} (h : Operand u q) : |q| < 2 ^ 1024 :=
  (lt_add_of_pos_right _ (by positivity)).trans_le h.abs_add_le

theorem onGrid_of_value {x : Float} {q : ℚ} (h : value? x = some q) : OnGrid q :=
  (operand_of_value h).onGrid

theorem abs_lt_of_value {x : Float} {q : ℚ} (h : value? x = some q) : |q| < 2 ^ 1024 :=
  (operand_of_value h).abs_lt

theorem Operand.rounds {u : UnpackedFloat} {q : ℚ} (h : Operand u q) :
    Rounds q ⟨Float.Model.pack u⟩ := by
  refine ⟨q, h.onGrid.nearest, ?_⟩
  cases h with
  | zero s => exact becomes_zero s
  | @finite s m e hm hc he => exact becomes_pack s hm hc

theorem Operand.neg {u : UnpackedFloat} {q : ℚ} (h : Operand u q) : Operand u.neg (-q) := by
  cases h with
  | zero s =>
    rw [neg_zero]
    exact .zero _
  | @finite s m e hm hc he =>
    have hneg :
        -signed (isNegative s) ((m : ℚ) * 2 ^ e) = signed (isNegative (-s)) (m * 2 ^ e) := by
      cases s <;> simp [signed]
    rw [hneg]
    exact .finite hm hc he

theorem apply_decreaseExponent (s : Sign) (m : ℕ) {e t : ℤ} (ht : t ≤ e) :
    ((s.apply ((decreaseExponent m e t).1 : ℤ) : ℤ) : ℚ) * 2 ^ t =
      signed (isNegative s) (m * 2 ^ e) := by
  have hshift : ((m <<< (e - t).toNat : ℕ) : ℚ) * 2 ^ t = m * 2 ^ e := by
    rw [Nat.shiftLeft_eq]
    push_cast
    rw [mul_assoc, ← zpow_natCast, ← zpow_add₀ two_ne_zero]
    congr 2
    omega
  cases s with
  | positive =>
    show (((m <<< (e - t).toNat : ℕ) : ℤ) : ℚ) * 2 ^ t = _
    rw [Int.cast_natCast, hshift]
    rfl
  | negative =>
    show ((-((m <<< (e - t).toNat : ℕ) : ℤ) : ℤ) : ℚ) * 2 ^ t = _
    rw [Int.cast_neg, Int.cast_natCast, neg_mul, hshift]
    rfl

theorem add_eq_pack (x y : Float) :
    x + y = ⟨Float.Model.pack (.add Format.binary64 x.toModel.unpack y.toModel.unpack)⟩ :=
  rfl

theorem sub_eq_pack (x y : Float) :
    x - y = ⟨Float.Model.pack (.sub Format.binary64 x.toModel.unpack y.toModel.unpack)⟩ :=
  rfl

theorem mul_eq_pack (x y : Float) :
    x * y = ⟨Float.Model.pack (.mul Format.binary64 x.toModel.unpack y.toModel.unpack)⟩ :=
  rfl

theorem div_eq_pack (x y : Float) :
    x / y = ⟨Float.Model.pack (.div Format.binary64 x.toModel.unpack y.toModel.unpack)⟩ :=
  rfl

variable {x y : Float} {p q : ℚ}

theorem rounds_add (hx : value? x = some p) (hy : value? y = some q) : Rounds (p + q) (x + y) := by
  have hu := operand_of_value hx
  have hv := operand_of_value hy
  rw [add_eq_pack]
  generalize x.toModel.unpack = u at hu
  generalize y.toModel.unpack = v at hv
  cases hu with
  | zero s =>
    cases hv with
    | zero s' =>
      rw [add_zero]
      cases s <;> cases s' <;> exact rounds_zero _
    | finite hm hc he =>
      rw [zero_add]
      exact (Operand.finite hm hc he).rounds
  | @finite s m e hm hc he =>
    cases hv with
    | zero s' =>
      rw [add_zero]
      exact (Operand.finite hm hc he).rounds
    | @finite s' m' e' hm' hc' he' =>
      rw [← apply_decreaseExponent s m (min_le_left e e'),
        ← apply_decreaseExponent s' m' (min_le_right e e'), ← add_mul, ← Int.cast_add]
      exact rounds_normalize _ _ _

theorem rounds_sub (hx : value? x = some p) (hy : value? y = some q) : Rounds (p - q) (x - y) := by
  have hu := operand_of_value hx
  have hv := operand_of_value hy
  rw [sub_eq_pack]
  generalize x.toModel.unpack = u at hu
  generalize y.toModel.unpack = v at hv
  cases hu with
  | zero s =>
    cases hv with
    | zero s' =>
      rw [sub_zero]
      cases s <;> cases s' <;> exact rounds_zero _
    | finite hm hc he =>
      rw [zero_sub]
      exact (Operand.finite hm hc he).neg.rounds
  | @finite s m e hm hc he =>
    cases hv with
    | zero s' =>
      rw [sub_zero]
      exact (Operand.finite hm hc he).rounds
    | @finite s' m' e' hm' hc' he' =>
      rw [← apply_decreaseExponent s m (min_le_left e e'),
        ← apply_decreaseExponent s' m' (min_le_right e e'), ← sub_mul, ← Int.cast_sub]
      exact rounds_normalize _ _ _

theorem signed_mul (s s' : Sign) (a b : ℚ) :
    signed (isNegative s) a * signed (isNegative s') b = signed (isNegative (s * s')) (a * b) := by
  cases s <;> cases s' <;> simp [signed]

theorem signed_div (s s' : Sign) (a b : ℚ) :
    signed (isNegative s) a / signed (isNegative s') b = signed (isNegative (s / s')) (a / b) := by
  cases s <;> cases s' <;> simp [signed, neg_div, div_neg] <;> rfl

theorem mul_finite {m m' : ℕ} {e e' : ℤ} (s s' : Sign) (hm : 0 < m) (hm' : 0 < m') :
    UnpackedFloat.mul Format.binary64 (.finite s m e hm) (.finite s' m' e' hm') =
      roundWithAccuracy Format.binary64 (s * s') (m * m') (e + e') .exact :=
  rfl

theorem rounds_mul (hx : value? x = some p) (hy : value? y = some q) : Rounds (p * q) (x * y) := by
  have hu := operand_of_value hx
  have hv := operand_of_value hy
  rw [mul_eq_pack]
  generalize x.toModel.unpack = u at hu
  generalize y.toModel.unpack = v at hv
  cases hu with
  | zero s =>
    rw [zero_mul]
    cases hv with
    | zero s' => exact rounds_zero _
    | finite hm hc he => exact rounds_zero _
  | @finite s m e hm hc he =>
    cases hv with
    | zero s' =>
      rw [mul_zero]
      exact rounds_zero _
    | @finite s' m' e' hm' hc' he' =>
      have hproduct : (m : ℚ) * 2 ^ e * (m' * 2 ^ e') = ((m * m' : ℕ) : ℚ) * 2 ^ (e + e') := by
        rw [zpow_add₀ two_ne_zero]
        push_cast
        ring
      have hpos : 0 < m * m' := Nat.mul_pos hm hm'
      rw [signed_mul, hproduct, mul_finite]
      refine rounds_roundWithAccuracy (s * s') (extends_exact _) ?_ (.inl hpos)
      -- one of the significands has the full width, or both powers are the least one
      have hplace : 52 ≤ (m * m').log2 ∨ e + e' ≤ -1074 := by
        by_cases hwide : 2 ^ 52 ≤ m * m'
        · exact .inl ((Nat.le_log2 hpos.ne').mpr hwide)
        · have hleft := Nat.le_mul_of_pos_right m hm'
          have hright := Nat.le_mul_of_pos_left m' hm
          have := hc.full
          have := hc'.full
          omega
      omega

theorem extends_fraction (m : ℕ) {num den : ℕ} (h : num < den) :
    Extends (ExtendedMantissa.ofMantissaAndAccuracy m (accuracyOfFraction num den))
      (m + num / den) := by
  have hden : (0 : ℚ) < den := by exact_mod_cast Nat.zero_lt_of_lt h
  have hone : (num : ℚ) / den < 1 := by
    rw [div_lt_one hden]
    exact_mod_cast h
  unfold accuracyOfFraction
  by_cases hzero : num = 0
  · rw [if_pos hzero]
    show (m : ℚ) + num / den = m
    rw [hzero]
    simp
  · have hpos : (0 : ℚ) < num / den := by
      have : (0 : ℚ) < num := by exact_mod_cast Nat.pos_of_ne_zero hzero
      positivity
    rw [if_neg hzero]
    rcases lt_trichotomy (2 * num) den with hlt | heq | hgt
    · have hhalf : (num : ℚ) / den < 1 / 2 := by
        have : (2 : ℚ) * num < den := by exact_mod_cast hlt
        rw [div_lt_iff₀ hden]
        linarith
      rw [Nat.compare_eq_lt.mpr hlt]
      show (m : ℚ) < m + num / den ∧ (m : ℚ) + num / den < m + 1 / 2
      constructor <;> linarith
    · have hhalf : (num : ℚ) / den = 1 / 2 := by
        have : (2 : ℚ) * num = den := by exact_mod_cast heq
        rw [div_eq_iff hden.ne']
        linarith
      rw [Nat.compare_eq_eq.mpr heq]
      show (m : ℚ) + num / den = m + 1 / 2
      rw [hhalf]
    · have hhalf : (1 : ℚ) / 2 < num / den := by
        have : (den : ℚ) < 2 * num := by exact_mod_cast hgt
        rw [lt_div_iff₀ hden]
        linarith
      rw [Nat.compare_eq_gt.mpr hgt]
      show (m : ℚ) + 1 / 2 < m + num / den ∧ (m : ℚ) + num / den < m + 1
      constructor <;> linarith

/-- The quotient of two significands, with as many places as the result has or more. -/
theorem rounds_divCore {m m' : ℕ} (hm : 0 < m) (hm' : 0 < m') (e e' : ℤ) (s : Sign) :
    Rounds (signed (isNegative s) (m * 2 ^ e / (m' * 2 ^ e')))
      ⟨Float.Model.pack (roundWithAccuracy Format.binary64 s (divCore Format.binary64 m e m' e').1
        (divCore Format.binary64 m e m' e').2.1 (divCore Format.binary64 m e m' e').2.2)⟩ := by
  let t : ℤ := min (e - e') (max (m.log2 + e - (m'.log2 + e') - 53) (-1074))
  let k := (e - e' - t).toNat
  have hcore : divCore Format.binary64 m e m' e' =
      ((m <<< k) / m', t, accuracyOfFraction ((m <<< k) % m') m') := by
    have hleast : Format.binary64.minExponent = -1074 := rfl
    have hwidth : ((Format.binary64.mantissaBits : ℕ) : ℤ) = 53 := rfl
    have htarget : Format.binary64.targetExponent (totalExponent m e - totalExponent m' e') =
        max (m.log2 + e - (m'.log2 + e') - 53) (-1074) := by
      rw [Format.targetExponent, totalExponent, totalExponent, hleast, hwidth]
      congr 1
      ring
    simp only [divCore, htarget]
    rfl
  have hden : (0 : ℚ) < m' := by exact_mod_cast hm'
  have hvalue : (m : ℚ) * 2 ^ e / (m' * 2 ^ e') =
      (((m <<< k / m' : ℕ) : ℚ) + ((m <<< k % m' : ℕ) : ℚ) / m') * 2 ^ t := by
    have hsplit :
        ((m <<< k / m' : ℕ) : ℚ) + ((m <<< k % m' : ℕ) : ℚ) / m' = (m <<< k : ℕ) / m' := by
      have hnat : m' * (m <<< k / m') + m <<< k % m' = m <<< k := Nat.div_add_mod _ _
      rw [eq_div_iff hden.ne', add_mul, div_mul_cancel₀ _ hden.ne']
      rw [mul_comm]
      exact_mod_cast hnat
    have hpower : (2 : ℚ) ^ e = 2 ^ k * 2 ^ t * 2 ^ e' := by
      rw [← zpow_natCast, ← zpow_add₀ two_ne_zero, ← zpow_add₀ two_ne_zero]
      congr 1
      omega
    rw [hsplit, hpower, Nat.shiftLeft_eq]
    push_cast
    field_simp
  rw [hcore, hvalue]
  dsimp only
  -- a quotient above the least place has the full width
  have hwide : t ≤ -1074 ∨ 2 ^ 52 ≤ m <<< k / m' := by
    by_cases ht : t ≤ -1074
    · exact .inl ht
    · refine .inr ?_
      have hk : 53 + m'.log2 ≤ m.log2 + k := by omega
      have hlow : 2 ^ m.log2 ≤ m := Nat.log2_self_le hm.ne'
      have hhigh : m' < 2 ^ (m'.log2 + 1) := Nat.lt_log2_self
      rw [Nat.le_div_iff_mul_le hm', Nat.shiftLeft_eq]
      calc 2 ^ 52 * m' ≤ 2 ^ 52 * 2 ^ (m'.log2 + 1) := Nat.mul_le_mul_left _ hhigh.le
        _ = 2 ^ (53 + m'.log2) := by ring
        _ ≤ 2 ^ (m.log2 + k) := Nat.pow_le_pow_right (by norm_num) hk
        _ = 2 ^ m.log2 * 2 ^ k := pow_add _ _ _
        _ ≤ m * 2 ^ k := Nat.mul_le_mul_right _ hlow
  refine rounds_roundWithAccuracy s (extends_fraction _ (Nat.mod_lt _ hm')) ?_ ?_
  · rcases hwide with ht | hwide
    · omega
    · have hlog : 52 ≤ (m <<< k / m').log2 := (Nat.le_log2 (by omega)).mpr hwide
      omega
  · by_cases hzero : m <<< k / m' = 0
    · right
      rw [hzero, Nat.log2_zero]
      omega
    · exact .inl (Nat.pos_of_ne_zero hzero)

theorem rounds_div (hx : value? x = some p) (hy : value? y = some q) (hq : q ≠ 0) :
    Rounds (p / q) (x / y) := by
  have hu := operand_of_value hx
  have hv := operand_of_value hy
  rw [div_eq_pack]
  generalize x.toModel.unpack = u at hu
  generalize y.toModel.unpack = v at hv
  cases hv with
  | zero s' => exact absurd rfl hq
  | @finite s' m' e' hm' hc' he' =>
    cases hu with
    | zero s =>
      rw [zero_div]
      exact rounds_zero _
    | @finite s m e hm hc he =>
      rw [signed_div]
      exact rounds_divCore hm hm' e e' (s / s')

/-- A small number minus a finite one is finite: the rounding goes no further than to the finite
number, and the last place of the largest numbers is not small. -/
theorem exists_value_of_small_sub (hx : value? x = some p) (hp : |p| ≤ 2 ^ 11)
    (hy : value? y = some q) : ∃ r, value? (x - y) = some r := by
  obtain ⟨r, hnearest, hbecomes⟩ := rounds_sub hx hy
  have hnear : |r - (p - q)| ≤ |p| := by
    have hle := hnearest.le (onGrid_of_value hy).neg
    rwa [neg_sub_left, sub_add_cancel, abs_neg] at hle
  have hlargest := (operand_of_value hy).abs_add_le
  have hgap : (2 : ℚ) ^ 11 + 2 ^ 11 < 2 ^ (971 : ℤ) := by
    rw [← two_mul, ← pow_succ', ← zpow_natCast]
    exact zpow_lt_zpow_right₀ one_lt_two (by norm_num)
  have hlt : |r| < 2 ^ 1024 :=
    calc |r| = |(r - (p - q)) + (p - q)| := by rw [sub_add_cancel]
      _ ≤ |r - (p - q)| + |p - q| := abs_add_le _ _
      _ ≤ 2 ^ 11 + (2 ^ 11 + |q|) :=
        add_le_add (hnear.trans hp) ((abs_sub p q).trans (add_le_add_left hp _))
      _ = |q| + (2 ^ 11 + 2 ^ 11) := by ring
      _ < |q| + 2 ^ (971 : ℤ) := add_lt_add_right hgap _
      _ ≤ 2 ^ 1024 := hlargest
  rcases hbecomes with hfinite | hinfinite
  · exact ⟨r, hfinite.2⟩
  · exact absurd hlt hinfinite.1.not_gt

theorem value?_neg (h : value? x = some p) : value? (-x) = some (-p) := by
  have hneg := (operand_of_value h).neg
  exact hneg.rounds.value_eq hneg.onGrid hneg.abs_lt

end Number

end ProbTrace
