import ProbTrace.Proofs.Conversion

/-!
# Finite values and their logarithms

Numbers of both kinds as values: their places, the binary64 numbers that they are rounded to, and
the operations that bring a value together with a binary64 number.  The logarithm of a binary64
number is not computed here; all that is needed of it is that it stays within bounds on the positive
finite numbers and is positive above one.  Integers that are too large to be rounded are scaled
first, so their logarithms do not sink to negative infinity either.
-/

namespace ProbTrace

open Number

namespace Numeric

variable {a : Numeric} {x : Float} {p q : ℚ}

/-- A number that becomes a binary64 number is rounded to a nearest one. -/
theorem nearest_of_toFloat (h : a.toFloat = .ok x) (hq : a.extent? = some (finitePlace q)) :
    ∃ p, Nearest q p ∧ value? x = some p := by
  cases a with
  | int i =>
    cases finitePlace_injective (Option.some.inj hq)
    rw [toFloat] at h
    split at h
    · rename_i y hy
      cases h
      exact nearest_of_ofInt hy
    · cases h
  | float y =>
    cases h
    have hvalue := extent?_eq_coe.mp hq
    exact ⟨q, (onGrid_of_value hvalue).nearest, hvalue⟩

/-- Rounding to a binary64 number keeps the sign. -/
theorem pos_iff_of_toFloat (h : a.toFloat = .ok x) (hq : a.extent? = some (finitePlace q))
    (hp : value? x = some p) : 0 < q ↔ 0 < p := by
  obtain ⟨p', hnearest, hp'⟩ := nearest_of_toFloat h hq
  cases hp.symm.trans hp'
  constructor
  · intro hpos
    cases a with
    | int i =>
      cases finitePlace_injective (Option.some.inj hq)
      have hone : (1 : ℚ) ≤ i := by exact_mod_cast (show 0 < i by exact_mod_cast hpos)
      exact one_pos.trans_le (hnearest.ge (onGrid_of_value value?_one) hone)
    | float y =>
      cases h
      cases hp.symm.trans (extent?_eq_coe.mp hq)
      exact hpos
  · intro hpos
    by_contra hle
    exact hpos.not_ge (hnearest.le_of_le .zero (not_lt.mp hle))

end Numeric

namespace Value

variable {v w d : Value} {a : Numeric} {x y : Float} {p q : ℚ}

/-! ## Places of values -/

/-- The place of a value among the numbers, if it is one. -/
def extent? (v : Value) : Option Place :=
  v.numeric?.bind Numeric.extent?

/-- A finite number. -/
def IsFinite (v : Value) : Prop :=
  ∃ q, v.extent? = some (finitePlace q)

/-- A finite number that is also a binary64 number. -/
def IsExact (v : Value) : Prop :=
  v.IsFinite ∧ ∃ x, v.toFloat = .ok x ∧ v.extent? = Number.extent? x

theorem extent?_of_numeric (h : v.numeric? = some a) : v.extent? = a.extent? := by
  rw [extent?, h]
  rfl

theorem exists_numeric_of_extent {p : Place} (h : v.extent? = some p) :
    ∃ a, v.numeric? = some a ∧ a.extent? = some p :=
  Option.bind_eq_some_iff.mp h

theorem IsFinite.exists_numeric (h : v.IsFinite) : ∃ a, v.numeric? = some a := by
  obtain ⟨q, hq⟩ := h
  obtain ⟨a, ha, -⟩ := exists_numeric_of_extent hq
  exact ⟨a, ha⟩

theorem toFloat_of_numeric (h : v.numeric? = some a) : v.toFloat = a.toFloat := by
  rw [toFloat, expectNumeric, h]
  rfl

theorem IsExact.exists_value (h : v.IsExact) :
    ∃ x q, v.toFloat = .ok x ∧ v.extent? = some (finitePlace q) ∧ value? x = some q := by
  obtain ⟨⟨q, hq⟩, x, hx, heq⟩ := h
  exact ⟨x, q, hx, hq, extent?_eq_coe.mp (heq ▸ hq)⟩

theorem IsFinite.exists_value (h : v.IsFinite) (hx : v.toFloat = .ok x) :
    ∃ p, value? x = some p := by
  obtain ⟨q, hq⟩ := h
  obtain ⟨a, ha, hq⟩ := exists_numeric_of_extent hq
  rw [toFloat_of_numeric ha] at hx
  obtain ⟨p, -, hp⟩ := Numeric.nearest_of_toFloat hx hq
  exact ⟨p, hp⟩

/-- A number that is enrolled keeps its place. -/
theorem exists_numeric_enroll (x : Float) (n : ℕ) :
    ∃ y, ((Value.float x).enroll n).1.numeric? = some (.float y) ∧
      Number.extent? y = Number.extent? x := by
  rw [Value.enroll]
  cases hnan : x.isNaN with
  | false => exact ⟨x, rfl, rfl⟩
  | true =>
    refine ⟨notANumber, rfl, ?_⟩
    have hnone : Number.extent? notANumber = none := rfl
    rw [hnone]
    cases hx : Number.extent? x with
    | none => rfl
    | some p =>
      rw [isNaN_eq_false_of_extent hx] at hnan
      cases hnan

/-! ## Comparison -/

/-- Two numbers are in a relation exactly if their places are. -/
theorem relateAtoms_eq_true {r : Relation} {b : Numeric} (hv : v.numeric? = some a)
    (hw : w.numeric? = some b) : v.relateAtoms r w = .ok true ↔
      ∃ p q, v.extent? = some p ∧ w.extent? = some q ∧ r.holds (compare p q) = true := by
  rw [relateAtoms_of_numeric r hv hw, Except.ok.injEq, Relation.ofNumbers_eq_true,
    extent?_of_numeric hv, extent?_of_numeric hw]

theorem relate_of_numeric (s : Store) (r : Relation) (h : v.numeric? = some a) :
    v.relate s r w = v.relateAtoms r w := by
  cases v <;> cases h <;> simp only [relate]

theorem greater_zero_iff {p : Place} (h : v.extent? = some p) :
    v.relateAtoms .greater (.int 0) = .ok true ↔ finitePlace 0 < p := by
  obtain ⟨a, ha, -⟩ := exists_numeric_of_extent h
  have hzero : (Value.int 0).extent? = some (finitePlace 0) := by
    show some (finitePlace ((0 : ℤ) : ℚ)) = _
    rw [Int.cast_zero]
  rw [relateAtoms_eq_true ha rfl]
  constructor
  · rintro ⟨p', r, hp', hr, hgreater⟩
    cases h.symm.trans hp'
    cases hzero.symm.trans hr
    exact Relation.holds_greater.mp hgreater
  · intro hpos
    exact ⟨_, _, h, hzero, Relation.holds_greater.mpr hpos⟩

/-! ## Arithmetic with a binary64 number -/

theorem subtract_of_float (hv : v.numeric? = some (.float x)) (w : Value) :
    v.subtract w = do
      let y ← w.toFloat
      return .float (x - y) := by
  rw [subtract, toFloat, expectNumeric, hv]
  cases w.expectNumeric <;> rfl

theorem divide_of_float (hv : v.numeric? = some (.float x)) (w : Value) :
    v.divide w = do
      let y ← w.toFloat
      if y == 0.0 then .error .divisionByZero else return .float (x / y) := by
  rw [divide, toFloat, expectNumeric, hv]
  cases w.expectNumeric <;> rfl

theorem multiply_of_float (hv : v.numeric? = some (.float x)) (hw : w.numeric? = some a) :
    v.multiply w = do
      let y ← w.toFloat
      return .float (x * y) := by
  rw [multiply, hv, hw, toFloat_of_numeric hw]
  rfl

theorem multiply_float (hv : v.numeric? = some a) (x : Float) :
    v.multiply (.float x) = do
      let y ← v.toFloat
      return .float (y * x) := by
  rw [multiply, hv, toFloat_of_numeric hv]
  cases a <;> rfl

theorem add_float (hv : v.numeric? = some a) (x : Float) :
    v.add (.float x) = do
      let y ← v.toFloat
      return .float (y + x) := by
  rw [add, hv, toFloat_of_numeric hv]
  cases a <;> rfl

/-- A difference is that of two integers, or both numbers are rounded first. -/
theorem subtract_cases (h : v.subtract w = .ok d) (hv : v.extent? = some (finitePlace p))
    (hw : w.extent? = some (finitePlace q)) :
    (∃ i : ℤ, d = .int i ∧ (i : ℚ) = p - q) ∨
      ∃ x y, v.toFloat = .ok x ∧ w.toFloat = .ok y ∧ d = .float (x - y) := by
  obtain ⟨a, ha, hp⟩ := exists_numeric_of_extent hv
  obtain ⟨b, hb, hq⟩ := exists_numeric_of_extent hw
  rw [toFloat_of_numeric ha, toFloat_of_numeric hb]
  rw [subtract, expectNumeric, expectNumeric, ha, hb] at h
  have h : a.combine (· - ·) (· - ·) b = .ok d := h
  cases a with
  | int i =>
    cases b with
    | int j =>
      cases h
      cases finitePlace_injective (Option.some.inj hp)
      cases finitePlace_injective (Option.some.inj hq)
      exact .inl ⟨i - j, rfl, by push_cast; rfl⟩
    | float y =>
      obtain ⟨x, hx, h⟩ := exists_of_bind_ok h
      cases h
      exact .inr ⟨x, y, hx, rfl, rfl⟩
  | float x =>
    obtain ⟨x', hx, h⟩ := exists_of_bind_ok h
    cases hx
    obtain ⟨y, hy, h⟩ := exists_of_bind_ok h
    cases h
    exact .inr ⟨x, y, rfl, hy, rfl⟩

/-- The difference of finite numbers is finite, or it is an infinite binary64 number. -/
theorem isFinite_or_infinite_of_subtract (h : v.subtract w = .ok d) (hv : v.IsFinite)
    (hw : w.IsFinite) :
    d.IsFinite ∨ ∃ x b, d = .float x ∧ Number.extent? x = some (infinitePlace b) := by
  obtain ⟨p, hp⟩ := hv
  obtain ⟨q, hq⟩ := hw
  rcases subtract_cases h hp hq with ⟨i, rfl, -⟩ | ⟨x, y, hx, hy, rfl⟩
  · exact .inl ⟨i, rfl⟩
  · obtain ⟨p', hp'⟩ := IsFinite.exists_value ⟨p, hp⟩ hx
    obtain ⟨q', hq'⟩ := IsFinite.exists_value ⟨q, hq⟩ hy
    rcases (rounds_sub hp' hq').value_or_infinite with ⟨r, -, hr⟩ | ⟨b, hb⟩
    · exact .inl ⟨r, extent?_eq_coe.mpr hr⟩
    · exact .inr ⟨_, b, rfl, hb⟩

/-! ## Logarithms -/

theorem logarithm_of_nonpos (hq : v.extent? = some (finitePlace q)) (hle : q ≤ 0) :
    v.logarithm = .error .wrongValue := by
  obtain ⟨a, ha, hq⟩ := exists_numeric_of_extent hq
  rw [logarithm, expectNumeric, ha]
  cases a with
  | int i =>
    cases finitePlace_injective (Option.some.inj hq)
    have hi : i ≤ 0 := by exact_mod_cast hle
    exact if_pos hi
  | float y =>
    have hvalue := extent?_eq_coe.mp hq
    have hnot : ¬ 0.0 < y := (lt_iff_value value?_zero hvalue).not.mpr hle.not_gt
    show logOfFloat y = _
    rw [logOfFloat, isNaN_of_value hvalue, if_neg Bool.false_ne_true, if_neg hnot]

/-- The logarithm of a positive number that is rounded is that of the rounded number. -/
theorem logarithm_of_pos (hx : v.toFloat = .ok x) (hfinite : v.IsFinite)
    (hpos : v.relateAtoms .greater (.int 0) = .ok true) :
    ∃ p, value? x = some p ∧ 0 < p ∧ v.logarithm = .ok x.log := by
  obtain ⟨q, hplace⟩ := hfinite
  have hqpos : 0 < q := finitePlace_lt.mp ((greater_zero_iff hplace).mp hpos)
  obtain ⟨a, ha, hq⟩ := exists_numeric_of_extent hplace
  rw [toFloat_of_numeric ha] at hx
  obtain ⟨p, -, hp⟩ := Numeric.nearest_of_toFloat hx hq
  have hppos : 0 < p := (Numeric.pos_iff_of_toFloat hx hq hp).mp hqpos
  refine ⟨p, hp, hppos, ?_⟩
  rw [logarithm, expectNumeric, ha]
  cases a with
  | int i =>
    cases finitePlace_injective (Option.some.inj hq)
    have hi : ¬ i ≤ 0 := not_le.mpr (by exact_mod_cast hqpos)
    rw [Numeric.toFloat] at hx
    split at hx
    · rename_i y hy
      cases hx
      show logOfInt i = _
      rw [logOfInt, if_neg hi, hy]
    · cases hx
  | float y =>
    cases hx
    exact logOfFloat_of_pos hp hppos

end Value

/-- What is known of the logarithm of binary64 numbers: on the positive finite ones it stays within
bounds, and above one it is positive. -/
structure LogBounds : Prop where
  bounded : ∀ x : Float, 0.0 < x → x.isInf = false → -1000.0 ≤ x.log ∧ x.log ≤ 1000.0
  positive : ∀ x : Float, 1.0 < x → x.isInf = false → 0.0 < x.log

theorem LogBounds.exists_value (h : LogBounds) {x : Float} {p : ℚ} (hp : value? x = some p)
    (hpos : 0 < p) : ∃ q, value? x.log = some q ∧ |q| ≤ 1000 := by
  have hlimit : value? 1000.0 = some 1000 := by
    have hdecode : decode 1000.0 = .finite false 8796093022208000 (-43) := rfl
    rw [value?, hdecode]
    norm_num [Decoded.value?, signed]
  obtain ⟨hlow, hhigh⟩ := h.bounded x ((lt_iff_value value?_zero hp).mpr hpos) (isInf_of_value hp)
  obtain ⟨q, hq, hge, hle⟩ := exists_value_of_le (value?_neg hlimit) hlimit hlow hhigh
  exact ⟨q, hq, abs_le.mpr ⟨hge, hle⟩⟩

namespace Number

/-- An integer that is scaled to lie between a half and one is positive. -/
theorem exists_value_halfScaled {n : ℕ} (hn : 0 < n) :
    ∃ q, value? (halfScaled n).1 = some q ∧ 0 < q := by
  have hhalf : value? 0.5 = some (1 / 2) := value?_half
  have hpower : 0 < 2 ^ (n.log2 + 1) := Nat.two_pow_pos _
  have hrounds := rounds_ofRatio false n hpower
  have hlow : (1 : ℚ) / 2 ≤ n / ((2 ^ (n.log2 + 1) : ℕ) : ℚ) := by
    have hself : (2 : ℚ) ^ n.log2 ≤ n := by exact_mod_cast Nat.log2_self_le hn.ne'
    rw [le_div_iff₀ (by exact_mod_cast hpower), pow_succ]
    push_cast
    linarith
  have hhigh : (n : ℚ) / ((2 ^ (n.log2 + 1) : ℕ) : ℚ) ≤ 1 := by
    rw [div_le_one (by exact_mod_cast hpower)]
    exact_mod_cast (Nat.lt_log2_self (n := n)).le
  obtain ⟨q, -, hq, hge, -⟩ := hrounds.exists_value (onGrid_of_value hhalf)
    (onGrid_of_value value?_one) hlow hhigh (abs_lt_of_value hhalf) (abs_lt_of_value value?_one)
  simp only [halfScaled, Nat.pow_eq]
  split
  · exact ⟨q, hq, by linarith⟩
  · exact ⟨1 / 2, hhalf, by norm_num⟩

/-- Adding multiples of a positive number does not lead to negative infinity. -/
theorem extent?_add_mul_ne_bot {x y : Float} {p c : ℚ} (n : ℕ) (hx : value? x = some p)
    (hy : value? y = some c) (hc : 0 < c) : extent? (x + y * n.toFloat) ≠ some ⊥ := by
  have hproduct : (∃ r, value? (y * n.toFloat) = some r ∧ 0 ≤ r) ∨
      extent? (y * n.toFloat) = some (infinitePlace false) := by
    rcases (rounds_toFloat n).value_or_top (by positivity) with ⟨k, hk, hnonneg⟩ | htop
    · exact (rounds_mul hy hk).value_or_top (by positivity)
    · exact .inr (extent?_mul_infinite hy hc htop)
  rcases hproduct with ⟨r, hr, hnonneg⟩ | htop
  · exact (rounds_add hx hr).extent_ne_bot (onGrid_of_value hx) (by linarith) (abs_lt_of_value hx)
  · rw [extent?_add_infinite hx htop]
    simp [infinitePlace]

theorem exists_logOfInt {i : ℤ} (hi : 0 < i) :
    ∃ s, logOfInt i = .ok s ∧ (LogBounds → extent? s ≠ some ⊥) := by
  rw [logOfInt, if_neg hi.not_ge]
  split
  · rename_i x hx
    refine ⟨_, rfl, fun hlog => ?_⟩
    obtain ⟨p, hnearest, hp⟩ := nearest_of_ofInt hx
    have hone : (1 : ℚ) ≤ i := by exact_mod_cast hi
    have hpos : 0 < p := one_pos.trans_le (hnearest.ge (onGrid_of_value value?_one) hone)
    obtain ⟨q, hq, -⟩ := hlog.exists_value hp hpos
    rw [extent?_eq_coe.mpr hq]
    simp
  · refine ⟨_, rfl, fun hlog => ?_⟩
    obtain ⟨p, hp, hpos⟩ := exists_value_halfScaled (n := i.natAbs) (by omega)
    obtain ⟨q, hq, -⟩ := hlog.exists_value hp hpos
    obtain ⟨c, hc, -⟩ := hlog.exists_value value?_two (by norm_num)
    have htwo : 0.0 < Float.log 2.0 := hlog.positive 2.0
      ((lt_iff_value value?_one value?_two).mpr (by norm_num)) (isInf_of_value value?_two)
    exact extent?_add_mul_ne_bot _ hq hc ((lt_iff_value value?_zero hc).mp htwo)

theorem exists_logOfFloat {x : Float} {p : Place} (h : extent? x = some p)
    (hpos : finitePlace 0 < p) :
    ∃ s, logOfFloat x = .ok s ∧ (LogBounds → extent? s ≠ some ⊥) := by
  have hlt : 0.0 < x := (lt_iff_extent 0.0 x).mpr ⟨_, p, extent?_eq_coe.mpr value?_zero, h, hpos⟩
  rcases value_or_infinite h with ⟨q, rfl, hq⟩ | ⟨b, rfl, hinf⟩
  · refine ⟨_, logOfFloat_of_pos hq (finitePlace_lt.mp hpos), fun hlog => ?_⟩
    obtain ⟨r, hr, -⟩ := hlog.exists_value hq (finitePlace_lt.mp hpos)
    rw [extent?_eq_coe.mpr hr]
    simp
  · refine ⟨x, ?_, fun _ => ?_⟩
    · rw [logOfFloat, isNaN_eq_false_of_extent h, if_neg Bool.false_ne_true, if_pos hlt, hinf]
      rfl
    · rw [h]
      intro hbot
      rw [Option.some.inj hbot] at hpos
      exact not_lt_bot hpos

end Number

/-- The logarithm of a positive number is not negative infinity. -/
theorem Value.exists_logarithm {v : Value} {p : Place} (h : v.extent? = some p)
    (hpos : finitePlace 0 < p) :
    ∃ s, v.logarithm = .ok s ∧ (LogBounds → Number.extent? s ≠ some ⊥) := by
  obtain ⟨a, ha, hp⟩ := exists_numeric_of_extent h
  rw [logarithm, expectNumeric, ha]
  cases a with
  | int i =>
    cases hp
    have hi : 0 < i := by exact_mod_cast finitePlace_lt.mp hpos
    exact exists_logOfInt hi
  | float x => exact exists_logOfFloat hp hpos

end ProbTrace
