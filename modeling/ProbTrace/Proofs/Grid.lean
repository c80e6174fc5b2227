import Mathlib
import ProbTrace.Proofs.Exactness

/-!
# The grid of binary64 numbers

Every finite binary64 number has a rational value, and the values are those with a significand of
53 bits.  Without a largest one they make a grid, on which every rational has a nearest number.  A
number of the grid becomes the binary64 number with its value, or an infinite one if it is beyond
the largest.  Rounding a rational to the last place of its leading bit gives a nearest number of the
grid.
-/

namespace ProbTrace

namespace Number

open Float.Model Float.Model.UnpackedFloat

/-! ## Values -/

/-- A number or its opposite. -/
def signed (negative : Bool) (q : ℚ) : ℚ :=
  if negative then -q else q

/-- The value of what a word stands for, if that is finite. -/
def Decoded.value? : Decoded → Option ℚ
  | nan => none
  | infinite _ => none
  | finite negative m p => some (signed negative (m * 2 ^ p))

/-- The value of a finite number. -/
def value? (x : Float) : Option ℚ :=
  (decode x).value?

/-- The numbers with a significand of binary64 width, however large they are. -/
def OnGrid (q : ℚ) : Prop :=
  ∃ n e : ℤ, |n| ≤ 2 ^ 53 ∧ -1074 ≤ e ∧ q = n * 2 ^ e

/-- A number of the grid that is as near as any. -/
structure Nearest (z q : ℚ) : Prop where
  onGrid : OnGrid q
  le : ∀ {g}, OnGrid g → |q - z| ≤ |g - z|

/-- The binary64 number that a number of the grid becomes: itself, or infinite if it is beyond the
largest one. -/
def Becomes (q : ℚ) (x : Float) : Prop :=
  (|q| < 2 ^ 1024 ∧ value? x = some q) ∨
    (2 ^ 1024 ≤ |q| ∧ decode x = .infinite (decide (q < 0)))

/-- A binary64 number that an exact result is rounded to. -/
def Rounds (z : ℚ) (x : Float) : Prop :=
  ∃ q, Nearest z q ∧ Becomes q x

theorem two_pow_mul_two_zpow (k : ℕ) (t : ℤ) : (2 : ℚ) ^ k * 2 ^ t = 2 ^ (k + t) := by
  rw [← zpow_natCast, ← zpow_add₀ two_ne_zero]

namespace OnGrid

theorem neg {q : ℚ} (h : OnGrid q) : OnGrid (-q) := by
  obtain ⟨n, e, hn, he, rfl⟩ := h
  refine ⟨-n, e, ?_, he, ?_⟩
  · rwa [abs_neg]
  · push_cast
    ring

theorem zero : OnGrid 0 :=
  ⟨0, 0, by norm_num, by norm_num, by norm_num⟩

theorem abs {q : ℚ} (h : OnGrid q) : OnGrid |q| := by
  rcases abs_choice q with heq | heq
  · rwa [heq]
  · rw [heq]
    exact h.neg

theorem two_zpow {e : ℤ} (he : -1074 ≤ e) : OnGrid (2 ^ e) :=
  ⟨1, e, by norm_num, he, by norm_num⟩

theorem natCast {n : ℕ} (hn : n ≤ 2 ^ 53) : OnGrid n := by
  refine ⟨n, 0, ?_, by norm_num, by simp⟩
  rw [abs_of_nonneg (by positivity)]
  exact_mod_cast hn

theorem two_pow (n : ℕ) : OnGrid (2 ^ n) := by
  rw [← zpow_natCast]
  exact .two_zpow (by omega)

theorem scale {q : ℚ} (h : OnGrid q) (k : ℕ) : OnGrid (2 ^ k * q) := by
  obtain ⟨n, e, hn, he, rfl⟩ := h
  refine ⟨n, k + e, hn, by omega, ?_⟩
  rw [mul_left_comm, two_pow_mul_two_zpow]

end OnGrid

theorem abs_signed (negative : Bool) (q : ℚ) : |signed negative q| = |q| := by
  cases negative <;> simp [signed]

theorem OnGrid.signed {q : ℚ} (h : OnGrid q) (negative : Bool) : OnGrid (signed negative q) := by
  cases negative
  · exact h
  · exact h.neg

theorem Nearest.signed {z q : ℚ} (h : Nearest z q) (negative : Bool) :
    Nearest (signed negative z) (signed negative q) := by
  cases negative with
  | false => exact h
  | true =>
    refine ⟨h.onGrid.neg, fun {g} hg => ?_⟩
    have hle := h.le hg.neg
    rw [abs_sub_comm] at hle
    calc |-q - -z| = |z - q| := by ring_nf
      _ ≤ |-g - z| := hle
      _ = |g - -z| := by rw [← abs_neg]; ring_nf

theorem OnGrid.nearest {q : ℚ} (h : OnGrid q) : Nearest q q := by
  refine ⟨h, fun {g} _ => ?_⟩
  rw [sub_self, abs_zero]
  exact abs_nonneg _

namespace Nearest

variable {z q g : ℚ}

/-- Rounding does not cross a number of the grid. -/
theorem ge (h : Nearest z q) (hg : OnGrid g) (hle : g ≤ z) : g ≤ q := by
  by_contra hlt
  push Not at hlt
  have hnear := h.le hg
  rw [abs_of_nonpos (by linarith), abs_of_nonpos (by linarith)] at hnear
  linarith

theorem le_of_le (h : Nearest z q) (hg : OnGrid g) (hle : z ≤ g) : q ≤ g := by
  by_contra hlt
  push Not at hlt
  have hnear := h.le hg
  rw [abs_of_nonneg (by linarith), abs_of_nonneg (by linarith)] at hnear
  linarith

theorem abs_le_of_le (h : Nearest z q) (hg : OnGrid g) (hle : |z| ≤ g) : |q| ≤ g := by
  obtain ⟨hlow, hhigh⟩ := abs_le.mp hle
  exact abs_le.mpr ⟨h.ge hg.neg hlow, h.le_of_le hg hhigh⟩

/-- A number of the grid is its own rounding. -/
theorem eq_of_onGrid (h : Nearest z q) (hz : OnGrid z) : q = z :=
  le_antisymm (h.le_of_le hz le_rfl) (h.ge hz le_rfl)

end Nearest

theorem OnGrid.exists_multiple {q : ℚ} (h : OnGrid q) : ∃ n : ℤ, q = n * 2 ^ (-1074 : ℤ) := by
  obtain ⟨n, e, -, he, rfl⟩ := h
  refine ⟨n * 2 ^ (e + 1074).toNat, ?_⟩
  rw [Int.cast_mul, Int.cast_pow, Int.cast_ofNat, mul_assoc, two_pow_mul_two_zpow]
  congr 2
  omega

/-- The least positive difference of two numbers of the grid. -/
theorem OnGrid.least_le_sub {p q : ℚ} (hp : OnGrid p) (hq : OnGrid q) (hlt : q < p) :
    2 ^ (-1074 : ℤ) ≤ p - q := by
  obtain ⟨m, rfl⟩ := hp.exists_multiple
  obtain ⟨n, rfl⟩ := hq.exists_multiple
  have hpos : (0 : ℚ) < 2 ^ (-1074 : ℤ) := by positivity
  have hsucc : n + 1 ≤ m := by
    have : (n : ℚ) < m := lt_of_mul_lt_mul_right hlt hpos.le
    exact_mod_cast this
  have hone : (1 : ℚ) ≤ m - n := by
    have : ((n + 1 : ℤ) : ℚ) ≤ m := by exact_mod_cast hsucc
    push_cast at this
    linarith
  calc (2 : ℚ) ^ (-1074 : ℤ) = 1 * 2 ^ (-1074 : ℤ) := (one_mul _).symm
    _ ≤ (m - n) * 2 ^ (-1074 : ℤ) := by gcongr
    _ = m * 2 ^ (-1074 : ℤ) - n * 2 ^ (-1074 : ℤ) := sub_mul _ _ _

/-- A difference of unequal numbers is not rounded to zero. -/
theorem Nearest.pos_of_lt {p q r : ℚ} (h : Nearest (p - q) r) (hp : OnGrid p) (hq : OnGrid q)
    (hlt : q < p) : 0 < r :=
  calc (0 : ℚ) < 2 ^ (-1074 : ℤ) := by positivity
    _ ≤ r := h.ge (.two_zpow le_rfl) (hp.least_le_sub hq hlt)

/-! ## Rounding to the last place -/

/-- The significands and powers that rounding to the last place gives.  One that was rounded up to
the next power of two is not canonical. -/
structure Rounded (r : ℕ) (t : ℤ) : Prop where
  le : r ≤ 2 ^ 53
  least : -1074 ≤ t
  full : t = -1074 ∨ 2 ^ 52 ≤ r

theorem rounded_of_abs_sub_le {x : ℚ} {t : ℤ} {r : ℕ} (ht : -1074 ≤ t) (hround : |r - x| ≤ 1 / 2)
    (hfull : t = -1074 ∨ 2 ^ 52 ≤ x) (hlt : x < 2 ^ 53) : Rounded r t := by
  obtain ⟨hlow, hhigh⟩ := abs_le.mp hround
  refine ⟨?_, ht, hfull.imp_right fun hfull => ?_⟩
  · have hupper : (r : ℚ) < (2 ^ 53 : ℕ) + 1 := by
      push_cast
      linarith
    exact Nat.lt_succ_iff.mp (by exact_mod_cast hupper)
  · have hlower : ((2 ^ 52 : ℕ) : ℚ) < r + 1 := by
      push_cast
      linarith
    exact Nat.lt_succ_iff.mp (by exact_mod_cast hlower)

theorem Rounded.canonical_or_carry {r : ℕ} {t : ℤ} (h : Rounded r t) :
    Canonical r t ∨ r = 2 ^ 53 ∧ Canonical (2 ^ 52) (t + 1) := by
  rcases h.le.lt_or_eq with hlt | heq
  · exact .inl ⟨hlt, h.least, h.full⟩
  · have hleast := h.least
    exact .inr ⟨heq, by norm_num, by omega, .inr le_rfl⟩

theorem carry_value (t : ℤ) : ((2 ^ 53 : ℕ) : ℚ) * 2 ^ t = ((2 ^ 52 : ℕ) : ℚ) * 2 ^ (t + 1) := by
  rw [zpow_add_one₀ two_ne_zero]
  push_cast
  ring

/-- Rounding to the last place of a number gives a number of the grid that is as near as any: a
number with a finer last place is below all that have the full width. -/
theorem nearest_of_rounded {z : ℚ} {t : ℤ} {r : ℕ} (ht : -1074 ≤ t)
    (hround : |r - z / 2 ^ t| ≤ 1 / 2) (hfull : t = -1074 ∨ 2 ^ 52 ≤ z / 2 ^ t)
    (hlt : z / 2 ^ t < 2 ^ 53) : Nearest z (r * 2 ^ t) := by
  have hpos : (0 : ℚ) < 2 ^ t := by positivity
  -- the distance in units of the last place
  have hscale (x : ℚ) : |x * 2 ^ t - z| = |x - z / 2 ^ t| * 2 ^ t := by
    rw [← abs_of_pos hpos, ← abs_mul, abs_of_pos hpos, sub_mul, div_mul_cancel₀ _ hpos.ne']
  have hmultiple (k : ℤ) : |r * 2 ^ t - z| ≤ |(k : ℚ) * 2 ^ t - z| := by
    rw [hscale, hscale]
    refine mul_le_mul_of_nonneg_right ?_ hpos.le
    by_cases hk : k = r
    · rw [hk]
      simp
    · have hone : (1 : ℚ) ≤ |(r : ℚ) - k| := by
        have : (1 : ℤ) ≤ |(r : ℤ) - k| := Int.one_le_abs (by omega)
        exact_mod_cast this
      have htriangle : |(r : ℚ) - k| ≤ |r - z / 2 ^ t| + |k - z / 2 ^ t| := by
        have := abs_sub_abs_le_abs_sub ((r : ℚ) - z / 2 ^ t) (k - z / 2 ^ t)
        have := abs_sub ((r : ℚ) - z / 2 ^ t) (k - z / 2 ^ t)
        calc |(r : ℚ) - k| = |(r - z / 2 ^ t) - (k - z / 2 ^ t)| := by ring_nf
          _ ≤ _ := this
      linarith
  refine ⟨⟨r, t, ?_, ht, by push_cast; ring⟩, fun {g} hg => ?_⟩
  · rw [abs_of_nonneg (by positivity)]
    exact_mod_cast (rounded_of_abs_sub_le ht hround hfull hlt).le
  · obtain ⟨n, e, hn, he, rfl⟩ := hg
    by_cases hte : t ≤ e
    · have hshift : (n : ℚ) * 2 ^ e = ((n * 2 ^ (e - t).toNat : ℤ) : ℚ) * 2 ^ t := by
        push_cast
        rw [mul_assoc, ← zpow_natCast, ← zpow_add₀ two_ne_zero]
        congr 2
        omega
      rw [hshift]
      exact hmultiple _
    · push Not at hte
      have hfull : 2 ^ 52 ≤ z / 2 ^ t := by
        rcases hfull with h | h
        · omega
        · exact h
      have hbound : (n : ℚ) * 2 ^ e ≤ 2 ^ 52 * 2 ^ t := by
        calc (n : ℚ) * 2 ^ e ≤ 2 ^ 53 * 2 ^ (t - 1) := by
              have hle : (n : ℚ) ≤ 2 ^ 53 := by exact_mod_cast (abs_le.mp hn).2
              have hpow : (2 : ℚ) ^ e ≤ 2 ^ (t - 1) :=
                zpow_le_zpow_right₀ (by norm_num) (by omega)
              gcongr
          _ = 2 ^ 52 * 2 ^ t := by
              rw [zpow_sub_one₀ two_ne_zero]
              ring
      have hbelow : 2 ^ 52 * 2 ^ t ≤ z := by
        rwa [le_div_iff₀ hpos] at hfull
      calc |r * 2 ^ t - z| ≤ |((2 ^ 52 : ℤ) : ℚ) * 2 ^ t - z| := hmultiple _
        _ = z - 2 ^ 52 * 2 ^ t := by
            push_cast
            rw [abs_of_nonpos (by linarith)]
            ring
        _ ≤ |n * 2 ^ e - z| := by
            rw [abs_of_nonpos (by linarith)]
            linarith

/-! ## Scaling a width -/

/-- The numbers below one end before it. -/
theorem OnGrid.le_of_lt_one {u : ℚ} (hu : OnGrid u) (hlt : u < 1) : u ≤ 1 - 2 ^ (-53 : ℤ) := by
  obtain ⟨n, e, hn, he, rfl⟩ := hu
  have hpos : (0 : ℚ) < 2 ^ e := by positivity
  by_cases hsmall : e < -53
  · have hle : (n : ℚ) ≤ 2 ^ 53 := by exact_mod_cast (abs_le.mp hn).2
    have hpower : (2 : ℚ) ^ e ≤ 2 ^ (-54 : ℤ) := zpow_le_zpow_right₀ (by norm_num) (by omega)
    calc (n : ℚ) * 2 ^ e ≤ 2 ^ 53 * 2 ^ (-54 : ℤ) := by gcongr
      _ ≤ 1 - 2 ^ (-53 : ℤ) := by norm_num
  · by_cases hwhole : 0 ≤ e
    · have hnonpos : n ≤ 0 := by
        by_contra hn
        have hone : (1 : ℚ) ≤ n := by exact_mod_cast (not_le.mp hn)
        have hscale : (1 : ℚ) ≤ 2 ^ e := one_le_zpow₀ (by norm_num) hwhole
        nlinarith
      have hcast : (n : ℚ) ≤ 0 := by exact_mod_cast hnonpos
      have hzero : (n : ℚ) * 2 ^ e ≤ 0 := mul_nonpos_of_nonpos_of_nonneg hcast hpos.le
      linarith [show (0 : ℚ) ≤ 1 - 2 ^ (-53 : ℤ) by norm_num]
    · have hone : (2 ^ (-e).toNat : ℤ) * (2 : ℚ) ^ e = 1 := by
        push_cast
        rw [two_pow_mul_two_zpow]
        have : ((-e).toNat : ℤ) + e = 0 := by omega
        rw [this, zpow_zero]
      have hbelow : n < 2 ^ (-e).toNat := by
        have : (n : ℚ) * 2 ^ e < ((2 ^ (-e).toNat : ℤ) : ℚ) * 2 ^ e := by rwa [hone]
        exact_mod_cast lt_of_mul_lt_mul_right this hpos.le
      have hle : (n : ℚ) ≤ ((2 ^ (-e).toNat : ℤ) : ℚ) - 1 := by
        have : n ≤ 2 ^ (-e).toNat - 1 := by omega
        exact_mod_cast this
      calc (n : ℚ) * 2 ^ e ≤ (((2 ^ (-e).toNat : ℤ) : ℚ) - 1) * 2 ^ e := by gcongr
        _ = 1 - 2 ^ e := by rw [sub_mul, hone, one_mul]
        _ ≤ 1 - 2 ^ (-53 : ℤ) := by
            have : (2 : ℚ) ^ (-53 : ℤ) ≤ 2 ^ e := zpow_le_zpow_right₀ (by norm_num) (by omega)
            linarith

/-- A positive number with as many places as it can have. -/
theorem OnGrid.exists_wide {q : ℚ} (h : OnGrid q) (hq : 0 < q) :
    ∃ n e : ℤ, q = n * 2 ^ e ∧ 0 < n ∧ n ≤ 2 ^ 53 ∧ -1074 ≤ e ∧ (e = -1074 ∨ 2 ^ 52 < n) := by
  obtain ⟨n, e, hn, he, rfl⟩ := h
  have hpos : 0 < n := by
    have : (0 : ℚ) < n := pos_of_mul_pos_left hq (by positivity)
    exact_mod_cast this
  have hle : n ≤ 2 ^ 53 := (abs_le.mp hn).2
  clear hn hq
  -- the significand is doubled as long as there is room for it
  obtain ⟨d, hd⟩ : ∃ d : ℕ, e = d - 1074 := ⟨(e + 1074).toNat, by omega⟩
  induction d generalizing n e with
  | zero => exact ⟨n, e, rfl, hpos, hle, he, .inl (by omega)⟩
  | succ d ih =>
    by_cases hwide : 2 ^ 52 < n
    · exact ⟨n, e, rfl, hpos, hle, he, .inr hwide⟩
    · have hdouble : (n : ℚ) * 2 ^ e = ((2 * n : ℤ) : ℚ) * 2 ^ (e - 1) := by
        rw [zpow_sub_one₀ two_ne_zero]
        push_cast
        ring
      rw [hdouble]
      exact ih (2 * n) (e - 1) (by omega) (by omega) (by omega) (by push_cast at hd; omega)

/-- A rounded width times a number below one is at most the width, also if the width was rounded
up: the product is then more than half a place below the rounded one. -/
theorem Nearest.scaled_le {w r u p : ℚ} {k : ℤ} (hw : w = k * 2 ^ (-1074 : ℤ)) (hpos : 0 < w)
    (hr : Nearest w r) (hu : OnGrid u) (hlt : u < 1) (hp : Nearest (r * u) p) : p ≤ w := by
  have hrpos : 0 ≤ r := hr.ge .zero hpos.le
  have hple : p ≤ r := hp.le_of_le hr.onGrid (by nlinarith)
  rcases le_or_gt r w with hle | hup
  · exact hple.trans hle
  · by_contra hgt
    push Not at hgt
    -- the width is not on the grid, and no number of the grid is between it and its rounding
    have hpr : p = r := by
      have hnear := hr.le hp.onGrid
      rw [abs_of_pos (by linarith), abs_of_pos (by linarith)] at hnear
      linarith
    obtain ⟨n, e, hre, hn, hle, he, hwide⟩ := hr.onGrid.exists_wide (by linarith)
    rcases hwide with rfl | hwide
    · have hscale : (0 : ℚ) < 2 ^ (-1074 : ℤ) := by positivity
      have hgrid : OnGrid w := by
        refine ⟨k, -1074, ?_, le_rfl, hw⟩
        have hlow : 0 < k := by
          have : (0 : ℚ) < k := pos_of_mul_pos_left (hw ▸ hpos) hscale.le
          exact_mod_cast this
        have hhigh : k < n := by
          have : (k : ℚ) < n := lt_of_mul_lt_mul_right (by rwa [← hw, ← hre]) hscale.le
          exact_mod_cast this
        rw [abs_of_pos hlow]
        omega
      exact absurd (hr.eq_of_onGrid hgrid) hup.ne'
    · have hscale : (0 : ℚ) < 2 ^ e := by positivity
      have hbelow : OnGrid (((n - 1 : ℤ) : ℚ) * 2 ^ e) :=
        ⟨n - 1, e, by rw [abs_of_nonneg (by omega)]; omega, he, rfl⟩
      have hnear := hp.le hbelow
      have hfull : (2 : ℚ) ^ 52 < n := by exact_mod_cast hwide
      have hgap : 2 ^ e / 2 < r - r * u := by
        calc (2 : ℚ) ^ e / 2 = 2 ^ 52 * 2 ^ e * 2 ^ (-53 : ℤ) := by norm_num; ring
          _ < n * 2 ^ e * 2 ^ (-53 : ℤ) := by gcongr
          _ = r * 2 ^ (-53 : ℤ) := by rw [hre]
          _ ≤ r * (1 - u) := by
              have := hu.le_of_lt_one hlt
              gcongr
              linarith
          _ = r - r * u := by ring
      have hdistance : ((n - 1 : ℤ) : ℚ) * 2 ^ e - r * u = r - r * u - 2 ^ e := by
        rw [hre]
        push_cast
        ring
      rw [hpr, hdistance, abs_of_pos (by linarith)] at hnear
      rcases le_abs'.mp hnear with h | h <;> linarith

/-! ## Words -/

/-- A word that does not mean "not a number" is kept. -/
theorem toNat_toBits_ofWord (negative : Bool) {w : ℕ} (hw : w ≤ infiniteWord) :
    (ofWord negative w).toBits.toNat = w + if negative then Nat.pow 2 63 else 0 := by
  have hsmall : w ≤ 2047 * 2 ^ 52 := hw
  let b : BitVec Format.binary64.numBits :=
    (UInt64.ofNat (w + if negative then Nat.pow 2 63 else 0)).toBitVec
  have hb : b.toNat = w + if negative then Nat.pow 2 63 else 0 := by
    show (w + if negative then Nat.pow 2 63 else 0) % 2 ^ 64 = _
    rw [Nat.pow_eq]
    refine Nat.mod_eq_of_lt ?_
    cases negative <;> simp <;> omega
  have hnumber : isNaNBits b = false := by
    by_contra hnan
    rw [Bool.not_eq_false, isNaNBits, decide_eq_true_eq] at hnan
    have hexponent := congrArg BitVec.toNat hnan.1
    rw [toNat_unpackExponent, hb] at hexponent
    refine hnan.2 (BitVec.eq_of_toNat_eq ?_)
    rw [toNat_unpackMantissa, hb]
    cases negative <;> simp [Nat.pow_eq] at hexponent ⊢ <;> omega
  have hkept : UnpackedFloat.pack Format.binary64 (UnpackedFloat.unpack Format.binary64 b) = b := by
    rw [pack_unpack b, hnumber]
    rfl
  show (UnpackedFloat.pack Format.binary64 (UnpackedFloat.unpack Format.binary64 b)).toNat = _
  rw [hkept, hb]

/-- The word of a significand and a power.  One with the full width counts as one more in the
exponent field. -/
def wordOf (m : ℕ) (e : ℤ) : ℕ :=
  (e + 1074).toNat * Nat.pow 2 52 + m

theorem decode_ofWord (negative : Bool) {m : ℕ} {e : ℤ} (hc : Canonical m e) (he : e ≤ 971) :
    decode (ofWord negative (wordOf m e)) = .finite negative m e := by
  have hlt := hc.lt
  have hleast := hc.least
  have hfull := hc.full
  have hword : wordOf m e ≤ infiniteWord := by
    simp only [wordOf, infiniteWord, Nat.pow_eq]
    omega
  have hbits := toNat_toBits_ofWord negative hword
  have hnegative :
      decide (Nat.pow 2 63 ≤ (ofWord negative (wordOf m e)).toBits.toNat) = negative := by
    rw [hbits]
    simp only [wordOf, Nat.pow_eq]
    cases negative with
    | false =>
      simp only [Bool.false_eq_true, if_false, decide_eq_false_iff_not]
      omega
    | true =>
      simp only [if_true, decide_eq_true_eq]
      omega
  have hexponent : (ofWord negative (wordOf m e)).toBits.toNat / 2 ^ 52 % 2 ^ 11 =
      (e + 1074).toNat + m / 2 ^ 52 := by
    rw [hbits]
    simp only [wordOf, Nat.pow_eq]
    split_ifs <;> omega
  have hfraction : (ofWord negative (wordOf m e)).toBits.toNat % 2 ^ 52 = m % 2 ^ 52 := by
    rw [hbits]
    simp only [wordOf, Nat.pow_eq]
    split_ifs <;> omega
  simp only [decode, hnegative, Nat.pow_eq, hexponent, hfraction]
  rw [if_neg (by omega)]
  by_cases hzero : (e + 1074).toNat + m / 2 ^ 52 = 0
  · rw [if_pos hzero]
    have he' : e = -1074 := by omega
    have hm' : m % 2 ^ 52 = m := by omega
    rw [he', hm']
  · rw [if_neg hzero]
    congr 1 <;> omega

theorem decode_ofWord_infinite (negative : Bool) :
    decode (ofWord negative infiniteWord) = .infinite negative := by
  cases negative <;> rfl

/-! ## Packing -/

theorem pack_unpack_model (f : Float.Model) : Float.Model.pack f.unpack = f := by
  obtain ⟨b, hb⟩ := f
  show Float.Model.mk ⟨_⟩ _ = _
  congr 1
  exact congrArg UInt64.ofBitVec (pack_unpack_of_valid hb)

theorem eq_of_ofUnpacked {u : UnpackedFloat} {s : Sign} {m : ℕ} {e : ℤ} (hm : 0 < m)
    (h : Decoded.ofUnpacked u = .finite (isNegative s) m e) : u = .finite s m e hm := by
  cases u with
  | notANumber => cases h
  | infinity s' => cases h
  | zero s' =>
    simp only [Decoded.ofUnpacked, Decoded.finite.injEq] at h
    omega
  | finite s' m' e' hm' =>
    simp only [Decoded.ofUnpacked, Decoded.finite.injEq] at h
    obtain ⟨hs, rfl, rfl⟩ := h
    cases s <;> cases s' <;> simp_all

/-- Packing keeps a significand and a power that words can have. -/
theorem decode_pack {m : ℕ} {e : ℤ} (s : Sign) (hm : 0 < m) (hc : Canonical m e) (he : e ≤ 971) :
    decode ⟨Float.Model.pack (.finite s m e hm)⟩ = .finite (isNegative s) m e := by
  have hdecode := decode_ofWord (isNegative s) hc he
  have hunpack := eq_of_ofUnpacked hm ((decode_eq_ofUnpacked _).symm.trans hdecode)
  rw [← hunpack, pack_unpack_model]
  exact hdecode

theorem decode_pack_infinity (s : Sign) :
    decode ⟨Float.Model.pack (.infinity s)⟩ = .infinite (isNegative s) := by
  cases s <;> rfl

theorem decode_pack_zero (s : Sign) :
    decode ⟨Float.Model.pack (.zero s)⟩ = .finite (isNegative s) 0 (-1074) := by
  cases s <;> rfl

theorem pack_of_large {m : ℕ} {e : ℤ} (s : Sign) (hm : 0 < m) (he : 972 ≤ e) :
    Float.Model.pack (.finite s m e hm) = Float.Model.pack (.infinity s) := by
  have hlarge : 2 ^ 11 ≤ (e + 1023 + 52).toNat + 1 := by omega
  have hpack : UnpackedFloat.pack Format.binary64 (.finite s m e hm) =
      packedInfinity Format.binary64 s := if_pos hlarge
  show Float.Model.mk ⟨_⟩ _ = Float.Model.mk ⟨_⟩ _
  congr 1
  exact congrArg UInt64.ofBitVec hpack

/-- The largest number is one last place below the power of two that is infinite. -/
theorem mul_two_zpow_add_le {m : ℕ} {e : ℤ} (hm : m < 2 ^ 53) (he : e ≤ 971) :
    (m : ℚ) * 2 ^ e + 2 ^ (971 : ℤ) ≤ 2 ^ 1024 := by
  calc (m : ℚ) * 2 ^ e + 2 ^ (971 : ℤ) ≤ m * 2 ^ (971 : ℤ) + 2 ^ (971 : ℤ) := by
        gcongr
        norm_num
    _ = (m + 1) * 2 ^ (971 : ℤ) := (add_one_mul _ _).symm
    _ ≤ 2 ^ 53 * 2 ^ (971 : ℤ) := by
        have hsucc : (m : ℚ) + 1 ≤ 2 ^ 53 := by exact_mod_cast hm
        gcongr
    _ = 2 ^ 1024 := two_pow_mul_two_zpow 53 971

theorem mul_two_zpow_lt {m : ℕ} {e : ℤ} (hm : m < 2 ^ 53) (he : e ≤ 971) :
    (m : ℚ) * 2 ^ e < 2 ^ 1024 :=
  (lt_add_of_pos_right _ (by positivity)).trans_le (mul_two_zpow_add_le hm he)

theorem le_mul_two_zpow {m : ℕ} {e : ℤ} (hm : 2 ^ 52 ≤ m) (he : 972 ≤ e) :
    2 ^ 1024 ≤ (m : ℚ) * 2 ^ e := by
  calc (2 : ℚ) ^ 1024 = 2 ^ 52 * 2 ^ (972 : ℤ) := (two_pow_mul_two_zpow 52 972).symm
    _ ≤ 2 ^ 52 * 2 ^ e := by
        gcongr
        norm_num
    _ ≤ (m : ℚ) * 2 ^ e := by
        have hle : (2 : ℚ) ^ 52 ≤ m := by exact_mod_cast hm
        gcongr

theorem signed_lt_zero {negative : Bool} {q : ℚ} (hq : 0 < q) :
    decide (signed negative q < 0) = negative := by
  cases negative <;> simp [signed, hq, hq.le]

/-- A number of the grid becomes a word by its power. -/
theorem becomes_of_decode {negative : Bool} {m : ℕ} {e : ℤ} {x : Float} (hc : Canonical m e)
    (hfinite : e ≤ 971 → decode x = .finite negative m e)
    (hinfinite : 972 ≤ e → decode x = .infinite negative) :
    Becomes (signed negative (m * 2 ^ e)) x := by
  by_cases he : e ≤ 971
  · refine .inl ⟨?_, ?_⟩
    · rw [abs_signed, abs_of_nonneg (by positivity)]
      exact mul_two_zpow_lt hc.lt he
    · rw [value?, hfinite he]
      rfl
  · have hfull : 2 ^ 52 ≤ m := by
      rcases hc.full with h | h
      · omega
      · exact h
    have hpos : (0 : ℚ) < m * 2 ^ e := by
      have : 0 < m := by omega
      positivity
    refine .inr ⟨?_, ?_⟩
    · rw [abs_signed, abs_of_pos hpos]
      exact le_mul_two_zpow hfull (by omega)
    · rw [hinfinite (by omega), signed_lt_zero hpos]

theorem becomes_zero (s : Sign) : Becomes 0 ⟨Float.Model.pack (.zero s)⟩ := by
  refine .inl ⟨by norm_num, ?_⟩
  rw [value?, decode_pack_zero]
  cases s <;> simp [Decoded.value?, signed]

/-- Packing makes a binary64 number of a significand and a power. -/
theorem becomes_pack {m : ℕ} {e : ℤ} (s : Sign) (hm : 0 < m) (hc : Canonical m e) :
    Becomes (signed (isNegative s) (m * 2 ^ e)) ⟨Float.Model.pack (.finite s m e hm)⟩ := by
  refine becomes_of_decode hc (decode_pack s hm hc) fun he => ?_
  rw [pack_of_large s hm he, decode_pack_infinity]

end Number

end ProbTrace
