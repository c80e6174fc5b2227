import ProbTrace.Proofs.Cells
import ProbTrace.Proofs.Logarithm
import ProbTrace.Proofs.Operation
import ProbTrace.Proofs.Watched

/-!
# Scores of what was drawn

A distribution that draws a value should not call that value impossible when it is asked for its
score.  This holds exactly of the values that can be scored: tails if the probability can be
rounded, a number between bounds that have a positive finite width, a normal number that is not too
many deviations away from its mean.  Every other value that is drawn has no score or the score
negative infinity.  The samplers accept more parameters than the densities do: bounds without a
positive width, a deviation that is not positive, and numbers so large that the arithmetic leaves
the binary64 numbers.
-/

namespace ProbTrace

open Number

namespace Random

/-- The next standard normal deviate is finite. -/
def DeviatesFinitely (ctx : Context) (m : Machine) : Prop :=
  ∀ z m', deviate ctx m = .ok z m' → ∃ e, value? z = some e

/-- The next standard normal deviate is not too large to be squared. -/
def DeviatesModerately (ctx : Context) (m : Machine) : Prop :=
  ∀ z m', deviate ctx m = .ok z m' → ∃ e, value? z = some e ∧ |e| ≤ 2 ^ 500

end Random

namespace Distribution

variable {ctx : Context} {m m' : Machine} {v p low high mean deviation : Value}

/-- A score that says that a value is possible. -/
def Allowed (r : Except Fault Float) : Prop :=
  ∃ s, r = .ok s ∧ (LogBounds → s ≠ negativeInfinity)

/-- No score, or one that says that a value is impossible. -/
def Excluded (r : Except Fault Float) : Prop :=
  (∃ f, r = .error f) ∨ ∃ s, r = .ok s ∧ (LogBounds → s = negativeInfinity)

/-- Bounds whose difference is positive and finite. -/
def Apart (low high : Value) : Prop :=
  ∃ width, high.subtract low = .ok width ∧ width.IsFinite ∧
    width.relateAtoms .greater (.int 0) = .ok true

/-- A value between two bounds. -/
def Within (low high v : Value) : Prop :=
  low.relateAtoms .lessEqual v = .ok true ∧ v.relateAtoms .lessEqual high = .ok true

/-- When a value that was drawn can be scored: heads always, tails if the probability has a nearest
binary64 number; a number if it did not leave bounds that are apart; a normal number if the
deviation is positive and half the square of its distance from the mean, in deviations, is
finite. -/
def Scorable : Distribution → List Value → Value → Prop
  | flip, [p], v => v = .bool true ∨ ∃ x, p.toFloat = .ok x
  | uniform, [low, high], v => Apart low high ∧ Within low high v
  | gaussian, [mean, deviation], v =>
    deviation.relateAtoms .greater (.int 0) = .ok true ∧
      ∃ distance ratio g, v.subtract mean = .ok distance ∧ distance.divide deviation = .ok ratio ∧
        ratio.toFloat = .ok g ∧ (Value.float (0.5 * g * g)).IsFinite
  | _, _, _ => False

/-- Parameters whose draws can be scored: a probability that has a nearest binary64 number; bounds
that are apart and binary64 numbers; a positive deviation, if the distance from the mean does not
become infinite. -/
def Regular : Distribution → List Value → Value → Prop
  | flip, [p], _ => ∃ x, p.toFloat = .ok x
  | uniform, [low, high], _ => Apart low high ∧ low.IsExact ∧ high.IsExact
  | gaussian, [mean, deviation], v =>
    deviation.relateAtoms .greater (.int 0) = .ok true ∧
      ∃ distance, v.subtract mean = .ok distance ∧ distance.IsFinite
  | _, _, _ => False

/-- A score that agrees with whether the value can be scored. -/
structure Judged (scorable : Prop) (r : Except Fault Float) : Prop where
  allowed : scorable → Allowed r
  excluded : ¬ scorable → Excluded r

theorem allowed_of_extent {r : Except Fault Float}
    (h : ∃ s, r = .ok s ∧ (LogBounds → Number.extent? s ≠ some ⊥)) : Allowed r := by
  obtain ⟨s, hs, hne⟩ := h
  refine ⟨s, hs, fun hlog heq => hne hlog ?_⟩
  rw [heq, extent?_negativeInfinity]

theorem allowed_of_value {s : Float} (h : LogBounds → ∃ q, value? s = some q) :
    Allowed (.ok s) := by
  refine allowed_of_extent ⟨s, rfl, fun hlog => ?_⟩
  obtain ⟨q, hq⟩ := h hlog
  rw [extent?_eq_coe.mpr hq]
  simp

/-! ## Coins -/

theorem safeLog_allowed {q : Place} (h : v.extent? = some q) (hpos : finitePlace 0 < q) :
    Allowed (safeLog v) := by
  rw [safeLog, (Value.greater_zero_iff h).mpr hpos]
  exact allowed_of_extent (Value.exists_logarithm h hpos)

theorem flip_sampled (h : sample ctx .flip [p] m = .ok v m') :
    ∃ b, (Value.float (ctx.stream m.draws)).relateAtoms .less p = .ok b ∧ v = .bool b := by
  obtain ⟨u, m₁, hdraw, h⟩ := Run.exists_of_bind h
  cases hdraw
  obtain ⟨b, m₂, hless, h⟩ := Run.exists_of_bind h
  cases h
  exact ⟨b, (Run.eq_of_ofExcept hless).1, rfl⟩

section Coins

variable {u x : Float} {b : Bool} {q r : ℚ}

/-- The score of tails is the logarithm of the other probability, if it can be computed. -/
theorem flipLogDensity_false (p : Value) :
    flipLogDensity (.bool false) p = p.toFloat.bind fun x => safeLog (.float (1.0 - x)) := by
  show (do safeLog (← (Value.float 1.0).subtract p)) = _
  rw [Value.subtract_of_float rfl]
  cases p.toFloat <;> rfl

theorem less_iff (hr : value? u = some r) (hp : p.extent? = some (finitePlace q)) :
    (Value.float u).relateAtoms .less p = .ok true ↔ r < q := by
  obtain ⟨a, ha, -⟩ := Value.exists_numeric_of_extent hp
  have hunit : (Value.float u).extent? = some (finitePlace r) := extent?_eq_coe.mpr hr
  rw [Value.relateAtoms_eq_true rfl ha]
  constructor
  · rintro ⟨r', q', hr', hq', hless⟩
    cases hunit.symm.trans hr'
    cases hp.symm.trans hq'
    exact finitePlace_lt.mp (Relation.holds_less.mp hless)
  · intro hless
    exact ⟨_, _, hunit, hp, Relation.holds_less.mpr (finitePlace_lt.mpr hless)⟩

/-- One minus a number below one is positive. -/
theorem one_sub_allowed {c : ℚ} (hc : value? x = some c) (hlt : c < 1) :
    Allowed (safeLog (.float (1.0 - x))) := by
  obtain ⟨d, hd, hbecomes⟩ := rounds_sub value?_one hc
  have hdpos : 0 < d := hd.pos_of_lt (onGrid_of_value value?_one) (onGrid_of_value hc) hlt
  obtain ⟨place, hplace, hpos⟩ := hbecomes.exists_extent_of_pos hdpos
  exact safeLog_allowed hplace hpos

/-- Heads is scored with a probability above a random number, tails with one that is at most a
random number. -/
theorem flip_judged (hlow : 0.0 ≤ u) (hhigh : u < 1.0) (hp : p.IsFinite)
    (h : (Value.float u).relateAtoms .less p = .ok b) :
    Judged (Scorable .flip [p] (.bool b)) (flipLogDensity (.bool b) p) := by
  obtain ⟨q, hq⟩ := hp
  obtain ⟨r, hr, hnonneg, hlt⟩ := exists_value_of_unit hlow hhigh
  cases b with
  | true =>
    refine ⟨fun _ => ?_, fun hnot => absurd (.inl rfl) hnot⟩
    exact safeLog_allowed hq (finitePlace_lt.mpr (hnonneg.trans_lt ((less_iff hr hq).mp h)))
  | false =>
    have hge : q ≤ r := by
      by_contra hless
      cases h.symm.trans ((less_iff hr hq).mpr (not_le.mp hless))
    rw [flipLogDensity_false]
    cases hx : p.toFloat with
    | error f =>
      refine ⟨?_, fun _ => .inl ⟨f, rfl⟩⟩
      rintro (hheads | ⟨x, hx'⟩)
      · cases hheads
      · cases hx.symm.trans hx'
    | ok x =>
      refine ⟨fun _ => ?_, fun hnot => absurd (.inr ⟨x, hx⟩) hnot⟩
      obtain ⟨a, ha, hplace⟩ := Value.exists_numeric_of_extent hq
      rw [Value.toFloat_of_numeric ha] at hx
      obtain ⟨c, hnearest, hc⟩ := Numeric.nearest_of_toFloat hx hplace
      exact one_sub_allowed hc ((hnearest.le_of_le (onGrid_of_value hr) hge).trans_lt hlt)

end Coins

/-! ## Numbers between two bounds -/

/-- A number drawn between two bounds: a random number scales the width, and all three are binary64
numbers by then. -/
structure DrawnBetween (low high v width : Value) (x w u : Float) : Prop where
  subtract : high.subtract low = .ok width
  low_toFloat : low.toFloat = .ok x
  width_toFloat : width.toFloat = .ok w
  unit : 0.0 ≤ u ∧ u < 1.0
  place : ∃ y, v.numeric? = some (.float y) ∧ Number.extent? y = Number.extent? (x + w * u)

theorem uniform_sampled (h : sample ctx .uniform [low, high] m = .ok v m') (hlow : low.IsFinite)
    (hdraws : ∀ i, 0.0 ≤ ctx.stream i ∧ ctx.stream i < 1.0) :
    ∃ width x w u, DrawnBetween low high v width x w u := by
  obtain ⟨a, ha⟩ := hlow.exists_numeric
  obtain ⟨width, m₁, hsubtract, h₁⟩ := Run.exists_of_bind h
  obtain ⟨hwidth, rfl⟩ := Run.eq_of_ofExcept hsubtract
  obtain ⟨u, m₂, hdraw, h₂⟩ := Run.exists_of_bind h₁
  cases hdraw
  obtain ⟨sum, m₃, hadd, h₃⟩ := Run.exists_of_bind h₂
  obtain ⟨hsum, rfl⟩ := Run.eq_of_ofExcept hadd
  cases h₃
  obtain ⟨c, hc⟩ := Value.exists_numeric_of_subtract hwidth
  obtain ⟨product, hproduct, hsum⟩ := exists_of_bind_ok hsum
  rw [Value.multiply_float hc] at hproduct
  obtain ⟨w, hw, hproduct⟩ := exists_of_bind_ok hproduct
  cases hproduct
  rw [Value.add_float ha] at hsum
  obtain ⟨x, hx, hsum⟩ := exists_of_bind_ok hsum
  cases hsum
  exact ⟨width, x, w, _, hwidth, hx, hw, hdraws _, Value.exists_numeric_enroll _ _⟩

theorem within_iff {a b c : Numeric} (hlow : low.numeric? = some a) (hhigh : high.numeric? = some b)
    (hv : v.numeric? = some c) : Within low high v ↔
      ∃ p q r, low.extent? = some p ∧ v.extent? = some q ∧ high.extent? = some r ∧
        p ≤ q ∧ q ≤ r := by
  rw [Within, Value.relateAtoms_eq_true hlow hv, Value.relateAtoms_eq_true hv hhigh]
  constructor
  · rintro ⟨⟨p, q, hp, hq, hle⟩, ⟨q', r, hq', hr, hle'⟩⟩
    cases hq.symm.trans hq'
    exact ⟨p, q, r, hp, hq, hr, Relation.holds_lessEqual.mp hle, Relation.holds_lessEqual.mp hle'⟩
  · rintro ⟨p, q, r, hp, hq, hr, hle, hle'⟩
    exact ⟨⟨p, q, hp, hq, Relation.holds_lessEqual.mpr hle⟩,
      q, r, hq, hr, Relation.holds_lessEqual.mpr hle'⟩

theorem uniformLogDensity_of_within {a b : Numeric} {s : Store} {width : Value}
    (hlow : low.numeric? = some a) (hv : v.numeric? = some b) (hwithin : Within low high v)
    (hwidth : high.subtract low = .ok width) :
    uniformLogDensity s v low high = do return -(← width.logarithm) := by
  rw [uniformLogDensity, Value.relate_of_numeric s _ hlow, Value.relate_of_numeric s _ hv,
    hwithin.1, hwithin.2, hwidth]
  cases hlog : width.logarithm <;> simp only [bind, Except.bind, hlog] <;> rfl

theorem uniformLogDensity_of_not_within {a b c : Numeric} {s : Store}
    (hlow : low.numeric? = some a) (hv : v.numeric? = some b) (hhigh : high.numeric? = some c)
    (hwithin : ¬ Within low high v) : uniformLogDensity s v low high = .ok negativeInfinity := by
  rw [uniformLogDensity, Value.relate_of_numeric s _ hlow, Value.relate_of_numeric s _ hv,
    Value.relateAtoms_of_numeric _ hlow hv, Value.relateAtoms_of_numeric _ hv hhigh]
  rw [Within, Value.relateAtoms_of_numeric _ hlow hv,
    Value.relateAtoms_of_numeric _ hv hhigh] at hwithin
  cases hleft : Relation.lessEqual.ofNumbers a b with
  | false => rfl
  | true =>
    cases hright : Relation.lessEqual.ofNumbers b c with
    | false => rfl
    | true => exact absurd ⟨by rw [hleft], by rw [hright]⟩ hwithin

/-- Scaling a rounded width by less than one and adding the lower bound does not pass the upper
bound. -/
theorem exists_value_between {w x u : Float} {a b r t : ℚ} (ha : value? x = some a) (hb : OnGrid b)
    (hblt : |b| < 2 ^ 1024) (hlt : a < b) (hr : value? w = some r) (hnearest : Nearest (b - a) r)
    (ht : value? u = some t) (hnonneg : 0 ≤ t) (hone : t < 1) :
    ∃ q, value? (x + w * u) = some q ∧ a ≤ q ∧ q ≤ b := by
  have hagrid := onGrid_of_value ha
  have hrpos : 0 ≤ r := hnearest.ge .zero (by linarith)
  obtain ⟨p, hp, hpvalue, hplow, -⟩ := (rounds_mul hr ht).exists_value .zero (onGrid_of_value hr)
    (by positivity) (by nlinarith) (by norm_num) (abs_lt_of_value hr)
  -- the exact width is a multiple of the least number, so a part of it is not rounded past it
  obtain ⟨k, hk⟩ : ∃ k : ℤ, b - a = k * 2 ^ (-1074 : ℤ) := by
    obtain ⟨i, hi⟩ := hb.exists_multiple
    obtain ⟨j, hj⟩ := hagrid.exists_multiple
    exact ⟨i - j, by rw [hi, hj, Int.cast_sub, sub_mul]⟩
  have hple := hnearest.scaled_le hk (by linarith) (onGrid_of_value ht) hone hp
  obtain ⟨q, -, hq, hlow, hhigh⟩ := (rounds_add ha hpvalue).exists_value hagrid hb (by linarith)
    (by linarith) (abs_lt_of_value ha) hblt
  exact ⟨q, hq, hlow, hhigh⟩

namespace DrawnBetween

variable {width : Value} {x w u : Float} {a b : ℚ}

theorem exists_numeric (h : DrawnBetween low high v width x w u) :
    ∃ c, v.numeric? = some c := by
  obtain ⟨y, hy, -⟩ := h.place
  exact ⟨_, hy⟩

theorem extent?_eq (h : DrawnBetween low high v width x w u) :
    v.extent? = Number.extent? (x + w * u) := by
  obtain ⟨y, hy, hplace⟩ := h.place
  exact (Value.extent?_of_numeric hy).trans hplace

/-- The width of exact bounds, rounded. -/
theorem exists_width (h : DrawnBetween low high v width x w u) (hfinite : width.IsFinite)
    (hlow : low.extent? = some (finitePlace a)) (ha : value? x = some a) {z : Float}
    (hz : high.toFloat = .ok z) (hhigh : high.extent? = some (finitePlace b))
    (hb : value? z = some b) : ∃ r, value? w = some r ∧ Nearest (b - a) r := by
  have hw := h.width_toFloat
  rcases Value.subtract_cases h.subtract hhigh hlow with ⟨i, rfl, hi⟩ | ⟨z', x', hz', hx', rfl⟩
  · obtain ⟨r, hnearest, hr⟩ := Numeric.nearest_of_toFloat (a := .int i) hw rfl
    exact ⟨r, hr, hi ▸ hnearest⟩
  · cases h.low_toFloat.symm.trans hx'
    cases hz.symm.trans hz'
    cases hw
    obtain ⟨q, hq⟩ := hfinite
    have hvalue : value? (z - x) = some q := extent?_eq_coe.mp hq
    rcases rounds_sub hb ha with ⟨r, hnearest, hfinite | hinfinite⟩
    · exact ⟨r, hfinite.2, hnearest⟩
    · rw [value?, hinfinite.2] at hvalue
      cases hvalue

/-- What is drawn between exact bounds lies between them. -/
theorem within_of_exact (h : DrawnBetween low high v width x w u) (hlow : low.IsExact)
    (hhigh : high.IsExact) (hfinite : width.IsFinite)
    (hpos : width.relateAtoms .greater (.int 0) = .ok true) : Within low high v := by
  obtain ⟨x', a, hx', hlowPlace, ha⟩ := hlow.exists_value
  cases h.low_toFloat.symm.trans hx'
  obtain ⟨z, b, hz, hhighPlace, hb⟩ := hhigh.exists_value
  obtain ⟨r, hr, hnearest⟩ := h.exists_width hfinite hlowPlace ha hz hhighPlace hb
  obtain ⟨t, ht, hnonneg, hlt⟩ := exists_value_of_unit h.unit.1 h.unit.2
  have hrpos : 0 < r := by
    obtain ⟨r', hr', hrpos, -⟩ := Value.logarithm_of_pos h.width_toFloat hfinite hpos
    cases hr.symm.trans hr'
    exact hrpos
  have hab : a < b := by
    by_contra hle
    exact hrpos.not_ge (hnearest.le_of_le .zero (by linarith [not_lt.mp hle]))
  obtain ⟨q, hq, hlq, hqh⟩ := exists_value_between ha (onGrid_of_value hb) (abs_lt_of_value hb) hab
    hr hnearest ht hnonneg hlt
  obtain ⟨c, hc⟩ := hlow.1.exists_numeric
  obtain ⟨e, he⟩ := hhigh.1.exists_numeric
  obtain ⟨n, hn⟩ := h.exists_numeric
  exact (within_iff hc he hn).mpr ⟨_, finitePlace q, _, hlowPlace,
    h.extent?_eq.trans (extent?_eq_coe.mpr hq), hhighPlace, finitePlace_le.mpr hlq,
    finitePlace_le.mpr hqh⟩

/-- An infinite width leaves no number between finite bounds: what is drawn is infinite or NaN. -/
theorem not_within_of_infinite (h : DrawnBetween low high v width x w u) {c : Bool}
    (hlow : low.IsFinite) (hhigh : high.IsFinite)
    (hw : Number.extent? w = some (infinitePlace c)) : ¬ Within low high v := by
  obtain ⟨t, ht⟩ := hlow.exists_value h.low_toFloat
  obtain ⟨d, hd⟩ := hlow.exists_numeric
  obtain ⟨e, he⟩ := hhigh.exists_numeric
  obtain ⟨a, ha⟩ := hlow
  obtain ⟨b, hb⟩ := hhigh
  obtain ⟨n, hn⟩ := h.exists_numeric
  rw [within_iff hd he hn]
  rintro ⟨p, q, r, hp, hq, hr, hpq, hqr⟩
  cases ha.symm.trans hp
  cases hb.symm.trans hr
  obtain ⟨q, rfl⟩ := exists_finitePlace hpq hqr
  have hsum := h.extent?_eq.symm.trans hq
  obtain ⟨r, hr, hnonneg, -⟩ := exists_value_of_unit h.unit.1 h.unit.2
  rcases hnonneg.eq_or_lt with rfl | hpos
  · rw [extent?_add_nan x (extent?_infinite_mul_zero hw hr)] at hsum
    cases hsum
  · rw [extent?_add_infinite ht (extent?_infinite_mul hw hr hpos)] at hsum
    exact infinitePlace_ne_coe c q (Option.some.inj hsum)

/-- A number between its bounds is scored with the logarithm of the width, every other one is
impossible. -/
theorem judged (h : DrawnBetween low high v width x w u) (s : Store) (hlow : low.IsFinite)
    (hhigh : high.IsFinite) :
    Judged (Scorable .uniform [low, high] v) (uniformLogDensity s v low high) := by
  obtain ⟨a, ha⟩ := hlow.exists_numeric
  obtain ⟨b, hb⟩ := hhigh.exists_numeric
  obtain ⟨n, hn⟩ := h.exists_numeric
  constructor
  · rintro ⟨⟨width', hwidth', hfinite, hpos⟩, hwithin⟩
    cases h.subtract.symm.trans hwidth'
    obtain ⟨r, hr, hrpos, hlog⟩ := Value.logarithm_of_pos h.width_toFloat hfinite hpos
    rw [uniformLogDensity_of_within ha hn hwithin h.subtract, hlog]
    refine allowed_of_value fun hbounds => ?_
    obtain ⟨l, hl, -⟩ := hbounds.exists_value hr hrpos
    exact ⟨-l, value?_neg hl⟩
  · intro hnot
    by_cases hwithin : Within low high v
    · rcases Value.isFinite_or_infinite_of_subtract h.subtract hhigh hlow with
        hfinite | ⟨z, c, rfl, hinfinite⟩
      · have hpos : ¬ width.relateAtoms .greater (.int 0) = .ok true := fun hpos =>
          hnot ⟨⟨width, h.subtract, hfinite, hpos⟩, hwithin⟩
        obtain ⟨d, hd⟩ := hfinite
        rw [Value.greater_zero_iff hd, finitePlace_lt, not_lt] at hpos
        rw [uniformLogDensity_of_within ha hn hwithin h.subtract,
          Value.logarithm_of_nonpos hd hpos]
        exact .inl ⟨_, rfl⟩
      · have hw := h.width_toFloat
        cases hw
        exact absurd hwithin (h.not_within_of_infinite hlow hhigh hinfinite)
    · exact .inr ⟨_, uniformLogDensity_of_not_within ha hn hb hwithin, fun _ => rfl⟩

theorem scorable (h : DrawnBetween low high v width x w u)
    (hregular : Regular .uniform [low, high] v) : Scorable .uniform [low, high] v := by
  obtain ⟨⟨width', hwidth', hfinite, hpos⟩, hlow, hhigh⟩ := hregular
  cases h.subtract.symm.trans hwidth'
  exact ⟨⟨width, hwidth', hfinite, hpos⟩, h.within_of_exact hlow hhigh hfinite hpos⟩

end DrawnBetween

/-! ## Normal numbers -/

/-- A number drawn around a mean: a standard normal deviate scales the deviation, and all three are
binary64 numbers by then. -/
structure DrawnAround (mean deviation v : Value) (x s z : Float) : Prop where
  mean_toFloat : mean.toFloat = .ok x
  deviation_toFloat : deviation.toFloat = .ok s
  place : ∃ y, v.numeric? = some (.float y) ∧ Number.extent? y = Number.extent? (x + z * s)

theorem gaussian_sampled (h : sample ctx .gaussian [mean, deviation] m = .ok v m')
    (hmean : mean.IsFinite) (hdeviation : deviation.IsFinite) :
    ∃ x s z m₁, Random.deviate ctx m = .ok z m₁ ∧ DrawnAround mean deviation v x s z := by
  obtain ⟨a, ha⟩ := hmean.exists_numeric
  obtain ⟨b, hb⟩ := hdeviation.exists_numeric
  obtain ⟨z, m₁, hz, h₁⟩ := Run.exists_of_bind h
  obtain ⟨sum, m₂, hadd, h₂⟩ := Run.exists_of_bind h₁
  obtain ⟨hsum, rfl⟩ := Run.eq_of_ofExcept hadd
  cases h₂
  obtain ⟨product, hproduct, hsum⟩ := exists_of_bind_ok hsum
  rw [Value.multiply_of_float rfl hb] at hproduct
  obtain ⟨s, hs, hproduct⟩ := exists_of_bind_ok hproduct
  cases hproduct
  rw [Value.add_float ha] at hsum
  obtain ⟨x, hx, hsum⟩ := exists_of_bind_ok hsum
  cases hsum
  exact ⟨x, s, z, _, hz, hx, hs, Value.exists_numeric_enroll _ _⟩

section Scores

variable {x y z s t g : Float} {a c e k f : ℚ} {b : Bool}

/-- The sum of a mean and a multiple of the deviation is rounded twice or infinite. -/
theorem nearest_or_infinite_of_sum (hx : value? x = some a) (hs : value? s = some c)
    (hz : value? z = some e) :
    (∃ g q, Nearest (e * c) g ∧ Nearest (a + g) q ∧ value? (x + z * s) = some q) ∨
      ∃ b, Number.extent? (x + z * s) = some (infinitePlace b) := by
  rcases (rounds_mul hz hs).value_or_infinite with ⟨g, hg, hgvalue⟩ | ⟨b, hb⟩
  · rcases (rounds_add hx hgvalue).value_or_infinite with ⟨q, hq, hqvalue⟩ | hinfinite
    · exact .inl ⟨g, q, hg, hq, hqvalue⟩
    · exact .inr hinfinite
  · exact .inr ⟨b, extent?_add_infinite hx hb⟩

/-- The distance of a normal number from its mean, in deviations, is not NaN. -/
theorem value_or_infinite_of_ratio (hx : value? x = some a) (hs : value? s = some c) (hc : 0 < c)
    (hz : value? z = some e) (hy : Number.extent? y = Number.extent? (x + z * s)) :
    (∃ f, value? ((y - x) / s) = some f) ∨
      ∃ b, Number.extent? ((y - x) / s) = some (infinitePlace b) := by
  have hdistance : (∃ d, value? (y - x) = some d) ∨
      ∃ b, Number.extent? (y - x) = some (infinitePlace b) := by
    rcases nearest_or_infinite_of_sum hx hs hz with ⟨-, q, -, -, hq⟩ | ⟨b, hb⟩
    · have hq : value? y = some q := extent?_eq_coe.mp (hy.trans (extent?_eq_coe.mpr hq))
      rcases (rounds_sub hq hx).value_or_infinite with ⟨d, -, hd⟩ | hinfinite
      · exact .inl ⟨d, hd⟩
      · exact .inr hinfinite
    · exact .inr ⟨b, extent?_infinite_sub (hy.trans hb) hx⟩
  rcases hdistance with ⟨d, hd⟩ | ⟨b, hb⟩
  · rcases (rounds_div hd hs hc.ne').value_or_infinite with ⟨f, -, hf⟩ | hinfinite
    · exact .inl ⟨f, hf⟩
    · exact .inr hinfinite
  · exact .inr ⟨b, extent?_infinite_div hb hs hc⟩

/-- Half of a finite number is finite and has its sign. -/
theorem nearest_half (hg : value? g = some f) :
    ∃ h, Nearest (1 / 2 * f) h ∧ value? (0.5 * g) = some h := by
  have hgrid : OnGrid |f| := (onGrid_of_value hg).abs
  have hle : |1 / 2 * f| ≤ |f| := by
    rw [abs_mul, abs_of_pos one_half_pos]
    linarith [abs_nonneg f]
  have hlt : |(|f|)| < 2 ^ 1024 := by
    rw [abs_abs]
    exact abs_lt_of_value hg
  obtain ⟨h, hnearest, hh, -⟩ := (rounds_mul value?_half hg).exists_value hgrid.neg hgrid
    (abs_le.mp hle).1 (abs_le.mp hle).2 (by rwa [abs_neg]) hlt
  exact ⟨h, hnearest, hh⟩

/-- Half the square of a number that is not NaN is finite or positive infinity. -/
theorem value_or_top_of_halfSquare
    (hg : (∃ f, value? g = some f) ∨ ∃ b, Number.extent? g = some (infinitePlace b)) :
    (∃ l, value? (0.5 * g * g) = some l) ∨
      Number.extent? (0.5 * g * g) = some (infinitePlace false) := by
  rcases hg with ⟨f, hf⟩ | ⟨b, hb⟩
  · obtain ⟨h, hnearest, hh⟩ := nearest_half hf
    have hsquare : 0 ≤ h * f := by
      rcases le_total 0 f with hnonneg | hnonpos
      · exact mul_nonneg (hnearest.ge .zero (by linarith)) hnonneg
      · exact mul_nonneg_of_nonpos_of_nonpos (hnearest.le_of_le .zero (by linarith)) hnonpos
    rcases (rounds_mul hh hf).value_or_top hsquare with ⟨l, hl, -⟩ | htop
    · exact .inl ⟨l, hl⟩
    · exact .inr htop
  · exact .inr (extent?_infinite_mul_infinite
      (extent?_mul_infinite value?_half one_half_pos hb) hb)

theorem exists_value_of_halfSquare (hg : value? g = some f) (hf : |f| ≤ 2 ^ 501) :
    ∃ l, value? (0.5 * g * g) = some l := by
  obtain ⟨h, hnearest, hh⟩ := nearest_half hg
  have hhalf : |h| ≤ 2 ^ 501 := by
    refine hnearest.abs_le_of_le (.two_pow 501) ?_
    rw [abs_mul, abs_of_pos one_half_pos]
    exact (mul_le_of_le_one_left (abs_nonneg f) (by norm_num)).trans hf
  have hsquare : |h * f| ≤ 2 ^ 1002 :=
    calc |h * f| = |h| * |f| := abs_mul h f
      _ ≤ 2 ^ 501 * 2 ^ 501 := by gcongr
      _ = 2 ^ 1002 := by rw [← pow_add]
  obtain ⟨l, hl, -⟩ := (rounds_mul hh hg).exists_value_of_abs_le hsquare (by norm_num)
  exact ⟨l, hl⟩

/-- A finite distance from the mean is at most twice as many deviations as the bound of the
deviate. -/
theorem abs_distance_le {d : ℚ} (hx : value? x = some a) (hs : value? s = some c) (hc : 0 < c)
    (hz : value? z = some e) (he : |e| ≤ 2 ^ 500)
    (hy : Number.extent? y = Number.extent? (x + z * s)) (hd : value? (y - x) = some d) :
    |d| ≤ 2 ^ 501 * c := by
  rcases nearest_or_infinite_of_sum hx hs hz with ⟨g, q, hg, hq, hqvalue⟩ | ⟨b, hb⟩
  · have hgle : |g| ≤ 2 ^ 500 * c := by
      refine hg.abs_le_of_le ((onGrid_of_value hs).scale 500) ?_
      rw [abs_mul, abs_of_pos hc]
      gcongr
    -- the mean is a candidate for the rounded sum, so the rounding moves it by at most `|g|`
    have hnear : |q - (a + g)| ≤ |g| := by
      have hle := hq.le (onGrid_of_value hx)
      rwa [sub_add_cancel_left, abs_neg] at hle
    have hdistance : |q - a| ≤ 2 ^ 501 * c :=
      calc |q - a| = |(q - (a + g)) + g| := by ring_nf
        _ ≤ |q - (a + g)| + |g| := abs_add_le _ _
        _ ≤ 2 ^ 500 * c + 2 ^ 500 * c := add_le_add (hnear.trans hgle) hgle
        _ = 2 ^ 501 * c := by rw [← two_mul, ← mul_assoc, ← pow_succ']
    have hyvalue : value? y = some q := extent?_eq_coe.mp (hy.trans (extent?_eq_coe.mpr hqvalue))
    rcases (rounds_sub hyvalue hx).value_or_infinite with ⟨d', hnearest, hd'⟩ | ⟨b, hb⟩
    · cases hd.symm.trans hd'
      exact hnearest.abs_le_of_le ((onGrid_of_value hs).scale 501) hdistance
    · exact absurd hb (extent?_ne_infinite hd b)
  · exact absurd (extent?_infinite_sub (hy.trans hb) hx) (extent?_ne_infinite hd b)

theorem divide_of_pos (hs : deviation.toFloat = .ok s) (hc : value? s = some c) (hpos : 0 < c)
    (x : Float) : (Value.float x).divide deviation = .ok (.float (x / s)) := by
  have hzero : ¬ (s == 0.0) = true := by
    rw [beq_iff_extent, extent?_eq_coe.mpr hc, extent?_eq_coe.mpr value?_zero]
    rintro ⟨p, hp, hq⟩
    cases hp
    exact hpos.ne (finitePlace_injective (Option.some.inj hq))
  rw [Value.divide_of_float rfl, hs]
  exact if_neg hzero

theorem gaussianLogDensity_of_pos (hv : v.numeric? = some (.float y))
    (hx : mean.toFloat = .ok x) (hs : deviation.toFloat = .ok s) (hc : value? s = some c)
    (hpos : 0 < c) (hlog : deviation.logarithm = .ok s.log) :
    gaussianLogDensity v mean deviation =
      .ok (standardPeak - s.log - 0.5 * ((y - x) / s) * ((y - x) / s)) := by
  rw [gaussianLogDensity, Value.subtract_of_float hv, hx]
  show (do
    let z ← (← (Value.float (y - x)).divide deviation).toFloat
    let width ← deviation.logarithm
    return standardPeak - width - 0.5 * z * z) = _
  rw [divide_of_pos hs hc hpos, hlog]
  rfl

theorem gaussianLogDensity_error {f : Fault} (h : deviation.logarithm = .error f) :
    ∃ f', gaussianLogDensity v mean deviation = .error f' := by
  cases hscore : gaussianLogDensity v mean deviation with
  | error f' => exact ⟨f', rfl⟩
  | ok score =>
    obtain ⟨_, -, hscore⟩ := exists_of_bind_ok hscore
    obtain ⟨_, -, hscore⟩ := exists_of_bind_ok hscore
    obtain ⟨_, -, hscore⟩ := exists_of_bind_ok hscore
    obtain ⟨_, hwidth, -⟩ := exists_of_bind_ok hscore
    cases h.symm.trans hwidth

theorem value?_fullTurn : value? (2.0 * 3.141592653589793) = some (7074237752028440 / 2 ^ 50) := by
  have hdecode : decode (2.0 * 3.141592653589793) = .finite false 7074237752028440 (-50) := rfl
  rw [value?, hdecode]
  norm_num [Decoded.value?, signed]

/-- The part of the score that does not depend on the value. -/
theorem exists_value_of_peak (hlog : LogBounds) (hc : value? s = some c) (hpos : 0 < c) :
    ∃ k, value? (standardPeak - s.log) = some k ∧ |k| ≤ 2 ^ 11 := by
  obtain ⟨l, hl, hlabs⟩ := hlog.exists_value value?_fullTurn (by norm_num)
  obtain ⟨r, hr, hrabs⟩ := hlog.exists_value hc hpos
  have hpeak : |-(1 / 2) * l| ≤ 2 ^ 9 := by
    rw [abs_mul, abs_neg, abs_of_pos one_half_pos]
    linarith
  obtain ⟨p, hp, hpabs⟩ := (rounds_mul (value?_neg value?_half) hl).exists_value_of_abs_le hpeak
    (by norm_num)
  have hdifference : |p - r| ≤ 2 ^ 11 := by
    have hsum := abs_sub p r
    linarith
  exact (rounds_sub hp hr).exists_value_of_abs_le hdifference (by norm_num)

end Scores

namespace DrawnAround

variable {x y s z : Float} {c : ℚ}

theorem subtract_eq (h : DrawnAround mean deviation v x s z) (hv : v.numeric? = some (.float y)) :
    v.subtract mean = .ok (.float (y - x)) := by
  rw [Value.subtract_of_float hv, h.mean_toFloat]
  rfl

theorem scorable_iff (h : DrawnAround mean deviation v x s z) (hv : v.numeric? = some (.float y))
    (hc : value? s = some c) (hpos : 0 < c)
    (hgreater : deviation.relateAtoms .greater (.int 0) = .ok true) :
    Scorable .gaussian [mean, deviation] v ↔
      ∃ l, value? (0.5 * ((y - x) / s) * ((y - x) / s)) = some l := by
  have hdivide := divide_of_pos h.deviation_toFloat hc hpos (y - x)
  constructor
  · rintro ⟨-, distance, ratio, g, hdistance, hratio, hg, l, hl⟩
    cases (h.subtract_eq hv).symm.trans hdistance
    cases hdivide.symm.trans hratio
    cases hg
    exact ⟨l, extent?_eq_coe.mp hl⟩
  · rintro ⟨l, hl⟩
    exact ⟨hgreater, _, _, _, h.subtract_eq hv, hdivide, rfl, l, extent?_eq_coe.mpr hl⟩

/-- A number is scored if half the square of its distance is finite, every other one is
impossible. -/
theorem judged (h : DrawnAround mean deviation v x s z) (hz : ∃ e, value? z = some e)
    (hmean : mean.IsFinite) (hdeviation : deviation.IsFinite) :
    Judged (Scorable .gaussian [mean, deviation] v) (gaussianLogDensity v mean deviation) := by
  by_cases hgreater : deviation.relateAtoms .greater (.int 0) = .ok true
  · obtain ⟨c, hc, hpos, hlog⟩ := Value.logarithm_of_pos h.deviation_toFloat hdeviation hgreater
    obtain ⟨a, ha⟩ := hmean.exists_value h.mean_toFloat
    obtain ⟨e, he⟩ := hz
    obtain ⟨y, hv, hy⟩ := h.place
    have hiff := h.scorable_iff hv hc hpos hgreater
    rw [gaussianLogDensity_of_pos hv h.mean_toFloat h.deviation_toFloat hc hpos hlog]
    rcases value_or_top_of_halfSquare (value_or_infinite_of_ratio ha hc hpos he hy) with
      ⟨l, hl⟩ | htop
    · refine ⟨fun _ => allowed_of_value fun hbounds => ?_, fun hnot => ?_⟩
      · obtain ⟨k, hk, hkabs⟩ := exists_value_of_peak hbounds hc hpos
        exact exists_value_of_small_sub hk hkabs hl
      · exact absurd (hiff.mpr ⟨l, hl⟩) hnot
    · refine ⟨fun hscorable => ?_, fun _ => .inr ⟨_, rfl, fun hbounds => ?_⟩⟩
      · obtain ⟨l, hl⟩ := hiff.mp hscorable
        exact absurd htop (extent?_ne_infinite hl false)
      · obtain ⟨k, hk, -⟩ := exists_value_of_peak hbounds hc hpos
        exact eq_negativeInfinity (extent?_sub_infinite hk htop)
  · refine ⟨fun hscorable => absurd hscorable.1 hgreater, fun _ => .inl ?_⟩
    obtain ⟨q, hq⟩ := hdeviation
    rw [Value.greater_zero_iff hq, finitePlace_lt, not_lt] at hgreater
    exact gaussianLogDensity_error (Value.logarithm_of_nonpos hq hgreater)

/-- A moderate deviate does not lead so far away that the distance cannot be squared. -/
theorem scorable (h : DrawnAround mean deviation v x s z)
    (hz : ∃ e, value? z = some e ∧ |e| ≤ 2 ^ 500) (hmean : mean.IsFinite)
    (hdeviation : deviation.IsFinite) (hregular : Regular .gaussian [mean, deviation] v) :
    Scorable .gaussian [mean, deviation] v := by
  obtain ⟨hgreater, distance, hdistance, d, hd⟩ := hregular
  obtain ⟨c, hc, hpos, -⟩ := Value.logarithm_of_pos h.deviation_toFloat hdeviation hgreater
  obtain ⟨a, ha⟩ := hmean.exists_value h.mean_toFloat
  obtain ⟨e, hz, he⟩ := hz
  obtain ⟨y, hv, hy⟩ := h.place
  cases (h.subtract_eq hv).symm.trans hdistance
  have hvalue : value? (y - x) = some d := extent?_eq_coe.mp hd
  have hratio : |d / c| ≤ 2 ^ 501 := by
    rw [abs_div, abs_of_pos hpos, div_le_iff₀ hpos]
    exact abs_distance_le ha hc hpos hz he hy hvalue
  obtain ⟨f, hf, hfabs⟩ := (rounds_div hvalue hc hpos.ne').exists_value_of_abs_le hratio
    (by norm_num)
  exact (h.scorable_iff hv hc hpos hgreater).mpr (exists_value_of_halfSquare hf hfabs)

end DrawnAround

/-! ## All distributions -/

section Samples

variable {d : Distribution} {params : List Value}

/-- What is drawn for finite parameters, one case for each distribution. -/
inductive Drawn (ctx : Context) (m : Machine) : Distribution → List Value → Value → Prop
  | flip {p : Value} {b : Bool} : p.IsFinite →
      (Value.float (ctx.stream m.draws)).relateAtoms .less p = .ok b → Drawn ctx m .flip [p] (.bool b)
  | uniform {low high v width : Value} {x w u : Float} : low.IsFinite → high.IsFinite →
      DrawnBetween low high v width x w u → Drawn ctx m .uniform [low, high] v
  | gaussian {mean deviation v : Value} {x s z : Float} {m₁ : Machine} : mean.IsFinite →
      deviation.IsFinite → Random.deviate ctx m = .ok z m₁ → DrawnAround mean deviation v x s z →
      Drawn ctx m .gaussian [mean, deviation] v

theorem drawn_of_sample (h : sample ctx d params m = .ok v m') (hfinite : ∀ p ∈ params, p.IsFinite)
    (hdraws : ∀ i, 0.0 ≤ ctx.stream i ∧ ctx.stream i < 1.0) : Drawn ctx m d params v := by
  have hsample := h
  unfold sample at h
  split at h
  · rename_i p
    obtain ⟨b, hless, rfl⟩ := flip_sampled hsample
    exact .flip (hfinite p (by simp)) hless
  · rename_i low high
    have hlow := hfinite low (by simp)
    obtain ⟨width, x, w, u, hdrawn⟩ := uniform_sampled hsample hlow hdraws
    exact .uniform hlow (hfinite high (by simp)) hdrawn
  · rename_i mean deviation
    have hmean := hfinite mean (by simp)
    have hdeviation := hfinite deviation (by simp)
    obtain ⟨x, s, z, m₁, hz, hdrawn⟩ := gaussian_sampled hsample hmean hdeviation
    exact .gaussian hmean hdeviation hz hdrawn
  · cases h

/-- The score of a value that was drawn for finite parameters. -/
theorem Drawn.judged (h : Drawn ctx m d params v) (s : Store)
    (hdraws : ∀ i, 0.0 ≤ ctx.stream i ∧ ctx.stream i < 1.0)
    (hdeviate : Random.DeviatesFinitely ctx m) :
    Judged (d.Scorable params v) (d.logDensity s (v :: params)) := by
  cases h with
  | flip hp hless => exact flip_judged (hdraws m.draws).1 (hdraws m.draws).2 hp hless
  | uniform hlow hhigh hdrawn => exact hdrawn.judged s hlow hhigh
  | gaussian hmean hdeviation hz hdrawn =>
    exact hdrawn.judged (hdeviate _ _ hz) hmean hdeviation

/-- What is drawn for regular parameters can be scored. -/
theorem Drawn.scorable (h : Drawn ctx m d params v) (hdeviate : Random.DeviatesModerately ctx m)
    (hregular : d.Regular params v) : d.Scorable params v := by
  cases h with
  | flip _ _ => exact .inr hregular
  | uniform _ _ hdrawn => exact hdrawn.scorable hregular
  | gaussian hmean hdeviation hz hdrawn =>
    exact hdrawn.scorable (hdeviate _ _ hz) hmean hdeviation hregular

end Samples

end Distribution

/-! ## Application with a target -/

namespace Evaluator

variable {ctx : Context} {d : Distribution} {params : List Value} {inputs output v : Value}
  {intervene target : Option Trace} {o : Overlays Trace} {m m' : Machine}

theorem checkOutput_of_withOutput {s : Store} (h : withOutput s intervene target output = .ok o) :
    checkOutput s o.output = .ok () ∧ o.intervene = intervene ∧ o.target = target := by
  unfold withOutput at h
  split at h
  · cases h
    exact ⟨rfl, rfl, rfl⟩
  · obtain ⟨⟨⟩, hcheck, h⟩ := exists_of_bind_ok h
    cases h
    exact ⟨hcheck, rfl, rfl⟩
  · cases h

/-- Recording into an output that was checked succeeds. -/
theorem exists_record {out : Option Trace} (h : checkOutput m.store out = .ok ()) (v : Value) :
    ∃ m', record out v m = .ok () m' := by
  cases out with
  | none => exact ⟨m, rfl⟩
  | some t =>
    rcases t.isWritable_cases m.store with hw | ⟨n, rfl, hw⟩
    · simp [checkOutput, hw] at h
    · exact ⟨_, Run.edit_ok (Trace.put_writable (some v) hw)⟩

/-- Applying a distribution checks inputs and output first. -/
theorem apply_random (hinputs : inputs.items? = some params)
    (ho : withOutput m.store intervene target output = .ok o) :
    apply ctx (.special (.random d)) inputs intervene target output m =
      (applyRandom ctx d params o >>= fun r => pure (r.1, Value.float r.2)) m := by
  have hcheck : checkInputs inputs = .ok params := by
    rw [checkInputs, hinputs]
  rw [apply, hcheck]
  show (Run.ofExcept (withOutput m.store intervene target output) >>= fun o =>
      applyAt ctx depthLimit (.special (.random d)) inputs o) m = _
  rw [ho]
  show applyWith ctx _ (.special (.random d)) inputs o m = _
  rw [applyWith, hcheck]
  show (Run.ofExcept (checkOutput m.store o.output) >>= fun _ => _) m = _
  rw [(checkOutput_of_withOutput ho).1]
  rfl

/-- Without an observed or forced value the value is drawn. -/
theorem sample_of_applyRandom {score : Float} (htarget : overlayValue? m.store o.target = none)
    (hintervene : overlayValue? m.store o.intervene = none)
    (h : applyRandom ctx d params o m = .ok (v, score) m') :
    ∃ m₁, d.sample ctx params m = .ok v m₁ := by
  obtain ⟨s, _, hstore, h₁⟩ := Run.exists_of_bind h
  cases hstore
  rw [htarget, hintervene] at h₁
  obtain ⟨w, m₁, hsample, h₂⟩ := Run.exists_of_bind h₁
  obtain ⟨_, _, hpair, h₃⟩ := Run.exists_of_bind h₂
  cases hpair
  obtain ⟨_, _, -, h₄⟩ := Run.exists_of_bind h₃
  cases h₄
  exact ⟨_, hsample⟩

/-- An observed value without a forced one is scored. -/
theorem applyRandom_observed (htarget : overlayValue? m.store o.target = some v)
    (hintervene : overlayValue? m.store o.intervene = none) :
    applyRandom ctx d params o m =
      (Run.ofExcept (d.logDensity m.store (v :: params)) >>= fun s =>
        record o.output v >>= fun _ => pure (v, s)) m := by
  rw [applyRandom, Run.store_bind, htarget, hintervene]
  rfl

/-- Without overlays the value is drawn. -/
theorem sample_of_apply {score : Value} (hinputs : inputs.items? = some params)
    (h : apply ctx (.special (.random d)) inputs none none output m = .ok (v, score) m') :
    ∃ m₁, d.sample ctx params m = .ok v m₁ := by
  obtain ⟨o, ho⟩ : ∃ o, withOutput m.store none none output = .ok o := by
    obtain ⟨_, m₁, hchecked, h₁⟩ := Run.exists_of_bind h
    obtain ⟨-, rfl⟩ := Run.eq_of_ofExcept hchecked
    obtain ⟨_, _, hstore, h₂⟩ := Run.exists_of_bind h₁
    cases hstore
    obtain ⟨o, m₂, ho, -⟩ := Run.exists_of_bind h₂
    exact ⟨o, (Run.eq_of_ofExcept ho).1⟩
  obtain ⟨-, hintervene, htarget⟩ := checkOutput_of_withOutput ho
  rw [apply_random hinputs ho] at h
  obtain ⟨⟨w, s⟩, m₁, hrun, hpure⟩ := Run.exists_of_bind h
  cases hpure
  exact sample_of_applyRandom (by rw [htarget]; rfl) (by rw [hintervene]; rfl) hrun

section Observed

variable {t : Trace}

/-- A distribution scores the value of the target and records it. -/
theorem apply_observed (hinputs : inputs.items? = some params)
    (htarget : m.store.value? t = some v)
    (ho : withOutput m.store none (some t) output = .ok o) :
    apply ctx (.special (.random d)) inputs none (some t) output m =
      (Run.ofExcept (d.logDensity m.store (v :: params)) >>= fun s =>
        record o.output v >>= fun _ => pure (v, Value.float s)) m := by
  obtain ⟨-, hnone, hsome⟩ := checkOutput_of_withOutput ho
  rw [apply_random hinputs ho]
  show EStateM.bind (applyRandom ctx d params o) _ m = _
  rw [EStateM.bind, applyRandom_observed (v := v) (by rw [hsome]; exact htarget)
    (by rw [hnone]; rfl)]
  show ((Run.ofExcept (d.logDensity m.store (v :: params)) >>= fun s =>
    record o.output v >>= fun _ => pure (v, s)) >>= fun r => pure (r.1, Value.float r.2)) m = _
  simp only [bind_assoc, pure_bind]

theorem exists_apply_of_score {s : Float} (hinputs : inputs.items? = some params)
    (htarget : m.store.value? t = some v)
    (ho : withOutput m.store none (some t) output = .ok o)
    (hs : d.logDensity m.store (v :: params) = .ok s) :
    ∃ m', apply ctx (.special (.random d)) inputs none (some t) output m =
      .ok (v, .float s) m' := by
  obtain ⟨m', hrecord⟩ := exists_record (checkOutput_of_withOutput ho).1 v
  refine ⟨m', ?_⟩
  rw [apply_observed hinputs htarget ho, hs]
  show EStateM.bind (record o.output v) _ m = _
  rw [EStateM.bind, hrecord]
  rfl

theorem apply_of_no_score {f : Fault} (hinputs : inputs.items? = some params)
    (htarget : m.store.value? t = some v)
    (ho : withOutput m.store none (some t) output = .ok o)
    (hf : d.logDensity m.store (v :: params) = .error f) :
    apply ctx (.special (.random d)) inputs none (some t) output m =
      .error (.fault (m.store.raised f)) m := by
  rw [apply_observed hinputs htarget ho, hf]
  rfl

end Observed

/-- A value that was drawn for finite parameters gets a score that says that it is possible exactly
if it can be scored: with any other value as its target the distribution raises, and nothing has
changed, or the score is negative infinity.  What is drawn for regular parameters can be scored,
unless a standard normal deviate is too large to be squared. -/
theorem scored_of_drawn {ctx' : Context} {score output' : Value} {m₁ m₂ : Machine} {t : Trace}
    (hinputs : inputs.items? = some params) (hfinite : ∀ p ∈ params, p.IsFinite)
    (hdraws : ∀ i, 0.0 ≤ ctx.stream i ∧ ctx.stream i < 1.0)
    (hdeviate : Random.DeviatesFinitely ctx m)
    (hdrawn : apply ctx (.special (.random d)) inputs none none output m = .ok (v, score) m₁)
    (htarget : m₂.store.value? t = some v)
    (houtput : withOutput m₂.store none (some t) output' = .ok o) :
    (d.Scorable params v →
      ∃ s m₃, apply ctx' (.special (.random d)) inputs none (some t) output' m₂ =
        .ok (v, .float s) m₃ ∧ (LogBounds → s ≠ negativeInfinity)) ∧
    (¬ d.Scorable params v →
      (∃ f, apply ctx' (.special (.random d)) inputs none (some t) output' m₂ =
        .error (.fault f) m₂) ∨
      ∃ s m₃, apply ctx' (.special (.random d)) inputs none (some t) output' m₂ =
        .ok (v, .float s) m₃ ∧ (LogBounds → s = negativeInfinity)) ∧
    (Random.DeviatesModerately ctx m → d.Regular params v → d.Scorable params v) := by
  obtain ⟨m', hsample⟩ := sample_of_apply hinputs hdrawn
  have hvalue := Distribution.drawn_of_sample hsample hfinite hdraws
  have hjudged := hvalue.judged m₂.store hdraws hdeviate
  refine ⟨fun h => ?_, fun h => ?_, hvalue.scorable⟩
  · obtain ⟨s, hs, hpossible⟩ := hjudged.allowed h
    obtain ⟨m₃, hrun⟩ := exists_apply_of_score hinputs htarget houtput hs
    exact ⟨s, m₃, hrun, hpossible⟩
  · rcases hjudged.excluded h with ⟨f, hf⟩ | ⟨s, hs, himpossible⟩
    · exact .inl ⟨_, apply_of_no_score hinputs htarget houtput hf⟩
    · obtain ⟨m₃, hrun⟩ := exists_apply_of_score hinputs htarget houtput hs
      exact .inr ⟨s, m₃, hrun, himpossible⟩

/-- What is drawn between zero and one is possible. -/
theorem unitInterval_scored :
    ∃ v score m₁, apply .halves (.special (.random .uniform)) (.list [.int 0, .int 1]) none none
        .null { spare := some 0.5 } = .ok (v, score) m₁ ∧
      ∃ s m₃, apply .halves (.special (.random .uniform)) (.list [.int 0, .int 1]) none
        (some (.leaf v)) .null {} = .ok (v, .float s) m₃ ∧ (LogBounds → s ≠ negativeInfinity) := by
  obtain ⟨⟨v, score⟩, m₁, hdrawn⟩ := exists_of_returns (x := apply .halves
    (.special (.random .uniform)) (.list [.int 0, .int 1]) none none .null { spare := some 0.5 })
    (by decide +kernel)
  have hfinite : ∀ p ∈ [Value.int 0, .int 1], p.IsFinite := by
    intro p hp
    rcases List.mem_pair.mp hp with rfl | rfl
    · exact ⟨_, rfl⟩
    · exact ⟨_, rfl⟩
  have hmoderate : Random.DeviatesModerately .halves { spare := some 0.5 } := by
    rintro z m' ⟨⟩
    refine ⟨1 / 2, value?_half, ?_⟩
    rw [abs_of_pos one_half_pos]
    exact one_half_lt_one.le.trans (one_le_pow₀ one_le_two)
  have hdeviate : Random.DeviatesFinitely .halves { spare := some 0.5 } := by
    intro z m' h
    obtain ⟨e, he, -⟩ := hmoderate z m' h
    exact ⟨e, he⟩
  have hregular : Distribution.Regular .uniform [.int 0, .int 1] v := by
    refine ⟨⟨.int 1, rfl, ⟨_, rfl⟩, rfl⟩, ⟨⟨_, rfl⟩, 0.0, rfl, ?_⟩, ⟨⟨_, rfl⟩, 1.0, rfl, ?_⟩⟩
    · rw [extent?_eq_coe.mpr value?_zero, ← Int.cast_zero]
      rfl
    · rw [extent?_eq_coe.mpr value?_one, ← Int.cast_one]
      rfl
  have htarget : ({} : Machine).store.value? (.leaf v) = some v := rfl
  have houtput : withOutput ({} : Machine).store none (some (.leaf v)) .null =
      .ok { target := some (.leaf v) } := rfl
  obtain ⟨hscored, -, hscorable⟩ :=
    scored_of_drawn rfl hfinite Context.halves_stream hdeviate hdrawn htarget houtput
  exact ⟨v, score, m₁, hdrawn, hscored (hscorable hmoderate hregular)⟩

/-- The only number between one and one is drawn, but it has no score. -/
theorem emptyInterval_notScored :
    (∃ m₁, apply .halves (.special (.random .uniform)) (.list [.int 1, .int 1]) none none .null {} =
        .ok (.float 1.0, .float 0.0) m₁) ∧
      apply .halves (.special (.random .uniform)) (.list [.int 1, .int 1]) none
        (some (.leaf (.float 1.0))) .null {} = .error (.fault .wrongValue) {} := by
  have hdrawn : withOutput ({} : Machine).store none none .null = .ok {} := rfl
  have hscored : withOutput ({} : Machine).store none (some (.leaf (.float 1.0))) .null =
      .ok { target := some (.leaf (.float 1.0)) } := rfl
  constructor
  · rw [apply_random rfl hdrawn]
    exact ⟨_, rfl⟩
  · have hdensity : Distribution.logDensity {} .uniform [.float 1.0, .int 1, .int 1] =
        .error .wrongValue := rfl
    exact apply_of_no_score rfl rfl hscored hdensity

end Evaluator
end ProbTrace
