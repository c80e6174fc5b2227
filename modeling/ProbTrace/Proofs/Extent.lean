import Mathlib
import ProbTrace.Proofs.Rounding

/-!
# Places in the order of numbers

A binary64 number that is not NaN has a place among the rationals with a least and a greatest
element.  Comparisons go by these places: one number is below another exactly if its place is.  The
operations on infinite numbers follow from what the operands unpack to.
-/

namespace ProbTrace

namespace Number

open Float.Model Float.Model.UnpackedFloat

/-! ## Places -/

/-- The places of numbers: the rationals, with one below and one above all others. -/
abbrev Place := WithBot (WithTop ℚ)

/-- The place of a finite number. -/
abbrev finitePlace (q : ℚ) : Place :=
  (q : WithTop ℚ)

/-- The place of an infinite number. -/
def infinitePlace (negative : Bool) : Place :=
  if negative then ⊥ else ⊤

/-- The place of what a word stands for, if that is a number. -/
def Decoded.extent? : Decoded → Option Place
  | nan => none
  | infinite negative => some (infinitePlace negative)
  | finite negative m p => some (finitePlace (signed negative (m * 2 ^ p)))

/-- The place of a number in the order, if it is one. -/
def extent? (x : Float) : Option Place :=
  (decode x).extent?

theorem infinitePlace_ne_coe (negative : Bool) (q : ℚ) :
    infinitePlace negative ≠ finitePlace q := by
  cases negative <;> simp [infinitePlace]

theorem extent?_eq_coe {x : Float} {q : ℚ} :
    extent? x = some (finitePlace q) ↔ value? x = some q := by
  rw [extent?, value?]
  cases decode x with
  | nan => simp [Decoded.extent?, Decoded.value?]
  | infinite negative => simp [Decoded.extent?, Decoded.value?, infinitePlace_ne_coe]
  | finite negative m p => simp [Decoded.extent?, Decoded.value?]

theorem finitePlace_le {p q : ℚ} : finitePlace p ≤ finitePlace q ↔ p ≤ q := by
  rw [WithBot.coe_le_coe, WithTop.coe_le_coe]

theorem finitePlace_lt {p q : ℚ} : finitePlace p < finitePlace q ↔ p < q := by
  rw [WithBot.coe_lt_coe, WithTop.coe_lt_coe]

theorem finitePlace_injective : Function.Injective finitePlace :=
  WithBot.coe_injective.comp WithTop.coe_injective

theorem extent?_ne_infinite {x : Float} {q : ℚ} (h : value? x = some q) (negative : Bool) :
    extent? x ≠ some (infinitePlace negative) := by
  rw [extent?_eq_coe.mpr h]
  exact fun heq => infinitePlace_ne_coe negative q (Option.some.inj heq).symm

/-- A place between finite ones is finite. -/
theorem exists_finitePlace {a b : ℚ} {p : Place} (hlow : finitePlace a ≤ p)
    (hhigh : p ≤ finitePlace b) : ∃ q, p = finitePlace q := by
  obtain ⟨t, rfl, ht⟩ := WithBot.coe_le_iff.mp hlow
  obtain ⟨s, rfl, hs⟩ := WithTop.le_coe_iff.mp (WithBot.coe_le_coe.mp hhigh)
  exact ⟨s, rfl⟩

/-- The places by what numbers unpack to. -/
inductive Placed : UnpackedFloat → Option Place → Prop
  | nan : Placed .notANumber none
  | infinite (s : Sign) : Placed (.infinity s) (some (infinitePlace (isNegative s)))
  | finite {u : UnpackedFloat} {q : ℚ} :
      Operand u q → Placed u (some (finitePlace q))

theorem placed (x : Float) : Placed x.toModel.unpack (extent? x) := by
  have hdecode := decode_eq_ofUnpacked x
  cases hu : x.toModel.unpack with
  | notANumber =>
    rw [extent?, hdecode, hu]
    exact .nan
  | infinity s =>
    rw [extent?, hdecode, hu]
    exact .infinite s
  | zero s =>
    rw [hu] at hdecode
    have hvalue : value? x = some 0 := by
      rw [value?, hdecode]
      cases s <;> simp [Decoded.value?, signed]
    rw [extent?_eq_coe.mpr hvalue]
    exact .finite (hu ▸ operand_of_value hvalue)
  | finite s m e hm =>
    rw [hu] at hdecode
    have hvalue : value? x = some (signed (isNegative s) (m * 2 ^ e)) := by
      rw [value?, hdecode]
      rfl
    rw [extent?_eq_coe.mpr hvalue]
    exact .finite (hu ▸ operand_of_value hvalue)

/-! ## Order -/

theorem compare_map {α β : Type} [LinearOrder α] [LinearOrder β] {f : α → β} (hf : StrictMono f)
    (a b : α) : compare (f a) (f b) = compare a b := by
  rw [← cmp_eq_compare, ← cmp_eq_compare, hf.cmp_map_eq]

theorem compare_scaled {a b c : ℚ} (hc : 0 < c) : compare (a * c) (b * c) = compare a b :=
  compare_map (strictMono_mul_right_of_pos hc) a b

theorem compare_neg (a b : ℚ) : compare (-a) (-b) = (compare a b).swap := by
  rw [← cmp_eq_compare, ← cmp_eq_compare, cmp_swap]
  exact StrictAnti.cmp_map_eq (fun _ _ => neg_lt_neg) a b

theorem compare_coe (p q : ℚ) :
    compare (finitePlace p) (finitePlace q) = compare p q :=
  compare_map (WithBot.coe_strictMono.comp WithTop.coe_strictMono) p q

theorem cast_units {m : ℕ} {e : ℤ} (he : -1074 ≤ e) :
    (units m e : ℚ) = m * 2 ^ e * 2 ^ (1074 : ℤ) := by
  rw [units, mul_assoc, ← zpow_add₀ two_ne_zero]
  push_cast
  rw [← zpow_natCast]
  congr 2
  omega

theorem Canonical.compare_eq {m m' : ℕ} {e e' : ℤ} (hc : Canonical m e) (hc' : Canonical m' e') :
    (compare e e').then (compare m m') = compare ((m : ℚ) * 2 ^ e) (m' * 2 ^ e') := by
  have hscale : (0 : ℚ) < 2 ^ (1074 : ℤ) := by positivity
  rw [← compare_scaled hscale, ← cast_units hc.least, ← cast_units hc'.least]
  rcases lt_trichotomy e e' with h | rfl | h
  · have hlt : (units m e : ℚ) < units m' e' := by exact_mod_cast hc.units_lt hc' h
    rw [compare_lt_iff_lt.mpr h, compare_lt_iff_lt.mpr hlt]
    rfl
  · have hpos : (0 : ℚ) < 2 ^ (e + 1074).toNat := by positivity
    rw [compare_eq_iff_eq.mpr rfl, units, units]
    push_cast
    rw [compare_scaled hpos]
    exact (compare_map Nat.strictMono_cast m m').symm
  · have hlt : (units m' e' : ℚ) < units m e := by exact_mod_cast hc'.units_lt hc h
    rw [compare_gt_iff_gt.mpr h, compare_gt_iff_gt.mpr hlt]
    rfl

/-- Finite numbers are compared by their values. -/
theorem Operand.compare_eq {u v : UnpackedFloat} {p q : ℚ} (hu : Operand u p) (hv : Operand v q) :
    u.compare v = some (compare p q) := by
  cases hu with
  | zero s =>
    cases hv with
    | zero s' =>
      rw [compare_eq_iff_eq.mpr rfl]
      rfl
    | @finite s' m' e' hm' hc' he' =>
      have hpos : (0 : ℚ) < m' * 2 ^ e' := by positivity
      cases s' with
      | positive =>
        rw [compare_lt_iff_lt.mpr (by simpa [signed] using hpos)]
        rfl
      | negative =>
        rw [compare_gt_iff_gt.mpr (by simpa [signed] using hpos)]
        rfl
  | @finite s m e hm hc he =>
    have hpos : (0 : ℚ) < m * 2 ^ e := by positivity
    cases hv with
    | zero s' =>
      cases s with
      | positive =>
        rw [compare_gt_iff_gt.mpr (by simpa [signed] using hpos)]
        rfl
      | negative =>
        rw [compare_lt_iff_lt.mpr (by simpa [signed] using hpos)]
        rfl
    | @finite s' m' e' hm' hc' he' =>
      have hpos' : (0 : ℚ) < m' * 2 ^ e' := by positivity
      have hmagnitudes := hc.compare_eq hc'
      cases s with
      | positive =>
        cases s' with
        | positive => exact congrArg some hmagnitudes
        | negative =>
          have hgt : -((m' : ℚ) * 2 ^ e') < m * 2 ^ e := by linarith
          rw [compare_gt_iff_gt.mpr (by simpa [signed] using hgt)]
          rfl
      | negative =>
        cases s' with
        | positive =>
          have hlt : -((m : ℚ) * 2 ^ e) < m' * 2 ^ e' := by linarith
          rw [compare_lt_iff_lt.mpr (by simpa [signed] using hlt)]
          rfl
        | negative =>
          have hswap := compare_neg ((m : ℚ) * 2 ^ e) (m' * 2 ^ e')
          rw [← hmagnitudes] at hswap
          exact congrArg some hswap.symm


theorem Operand.compare_infinity {u : UnpackedFloat} {q : ℚ} (h : Operand u q) (s : Sign) :
    u.compare (.infinity s) = some (if isNegative s then .gt else .lt) ∧
      UnpackedFloat.compare (.infinity s) u = some (if isNegative s then .lt else .gt) := by
  cases h with
  | zero _ => cases s <;> exact ⟨rfl, rfl⟩
  | @finite s' m e hm hc he => cases s <;> cases s' <;> exact ⟨rfl, rfl⟩

theorem compare_coe_infinitePlace (q : ℚ) (negative : Bool) :
    compare (finitePlace q) (infinitePlace negative) =
      if negative then .gt else .lt := by
  cases negative with
  | false => exact compare_lt_iff_lt.mpr (WithBot.coe_lt_coe.mpr (WithTop.coe_lt_top q))
  | true => exact compare_gt_iff_gt.mpr (WithBot.bot_lt_coe _)

theorem compare_infinitePlace_coe (q : ℚ) (negative : Bool) :
    compare (infinitePlace negative) (finitePlace q) =
      if negative then .lt else .gt := by
  cases negative with
  | false => exact compare_gt_iff_gt.mpr (WithBot.coe_lt_coe.mpr (WithTop.coe_lt_top q))
  | true => exact compare_lt_iff_lt.mpr (WithBot.bot_lt_coe _)

theorem compare_infinitePlace (s s' : Sign) :
    UnpackedFloat.compare (.infinity s) (.infinity s') =
      some (compare (infinitePlace (isNegative s)) (infinitePlace (isNegative s'))) := by
  have htop : (⊥ : Place) < ⊤ := bot_lt_top
  cases s <;> cases s'
  · exact congrArg some (compare_eq_iff_eq.mpr rfl).symm
  · exact congrArg some (compare_lt_iff_lt.mpr htop).symm
  · exact congrArg some (compare_gt_iff_gt.mpr htop).symm
  · exact congrArg some (compare_eq_iff_eq.mpr rfl).symm

/-- Numbers are compared by their places. -/
theorem Placed.compare_eq {u v : UnpackedFloat} {p q : Option Place}
    (hu : Placed u p) (hv : Placed v q) :
    u.compare v = p.bind fun p => q.map (compare p) := by
  cases hu with
  | nan => cases v <;> rfl
  | infinite s =>
    cases hv with
    | nan => rfl
    | infinite s' => exact compare_infinitePlace s s'
    | finite hv =>
      show _ = some _
      rw [(hv.compare_infinity s).2, compare_infinitePlace_coe]
  | finite hu =>
    cases hv with
    | nan => cases hu <;> rfl
    | infinite s' =>
      show _ = some _
      rw [(hu.compare_infinity s').1, compare_coe_infinitePlace]
    | finite hv =>
      show _ = some _
      rw [hu.compare_eq hv, compare_coe]

theorem compare_unpack (x y : Float) :
    x.toModel.unpack.compare y.toModel.unpack =
      (extent? x).bind fun p => (extent? y).map (compare p) :=
  (placed x).compare_eq (placed y)

theorem isLE_compare {α : Type} [LinearOrder α] {p q : α} : (compare p q).isLE = true ↔ p ≤ q := by
  rcases lt_trichotomy p q with h | rfl | h
  · rw [compare_lt_iff_lt.mpr h]
    simpa using h.le
  · rw [compare_eq_iff_eq.mpr rfl]
    simp
  · rw [compare_gt_iff_gt.mpr h]
    simpa using h

/-- One number is below another exactly if it is so in the order. -/
theorem lt_iff_extent (x y : Float) :
    x < y ↔ ∃ p q, extent? x = some p ∧ extent? y = some q ∧ p < q := by
  show decide (x.toModel < y.toModel) = true ↔ _
  rw [decide_eq_true_iff]
  show (x.toModel.unpack.compare y.toModel.unpack == some .lt) = true ↔ _
  rw [beq_iff_eq, compare_unpack]
  cases extent? x <;> cases extent? y <;> simp [compare_lt_iff_lt]

theorem le_iff_extent (x y : Float) :
    x ≤ y ↔ ∃ p q, extent? x = some p ∧ extent? y = some q ∧ p ≤ q := by
  show decide (x.toModel ≤ y.toModel) = true ↔ _
  rw [decide_eq_true_iff]
  show (x.toModel.unpack.compare y.toModel.unpack).any (·.isLE) = true ↔ _
  rw [compare_unpack]
  cases extent? x <;> cases extent? y <;> simp [isLE_compare]

theorem beq_iff_extent (x y : Float) :
    (x == y) = true ↔ ∃ p, extent? x = some p ∧ extent? y = some p := by
  show (x.toModel.unpack.compare y.toModel.unpack == some .eq) = true ↔ _
  rw [beq_iff_eq, compare_unpack]
  cases extent? x with
  | none => simp
  | some p =>
    cases extent? y with
    | none => simp
    | some q =>
      simp only [Option.bind_some, Option.map_some, Option.some.injEq, compare_eq_iff_eq]
      constructor
      · rintro rfl
        exact ⟨p, rfl, rfl⟩
      · rintro ⟨_, rfl, rfl⟩
        rfl

/-- A number between two finite ones is finite. -/
theorem exists_value_of_le {x y z : Float} {p r : ℚ} (hx : value? x = some p)
    (hz : value? z = some r) (hxy : x ≤ y) (hyz : y ≤ z) :
    ∃ q, value? y = some q ∧ p ≤ q ∧ q ≤ r := by
  obtain ⟨p', q, hp', hq, hle⟩ := (le_iff_extent x y).mp hxy
  obtain ⟨q', r', hq', hr', hle'⟩ := (le_iff_extent y z).mp hyz
  cases (extent?_eq_coe.mpr hx).symm.trans hp'
  cases (extent?_eq_coe.mpr hz).symm.trans hr'
  cases hq.symm.trans hq'
  obtain ⟨s, rfl⟩ := exists_finitePlace hle hle'
  exact ⟨s, extent?_eq_coe.mp hq, finitePlace_le.mp hle, finitePlace_le.mp hle'⟩

theorem le_of_below {x y : Float} (h : x < y) : x ≤ y := by
  obtain ⟨p, q, hp, hq, hlt⟩ := (lt_iff_extent x y).mp h
  exact (le_iff_extent x y).mpr ⟨p, q, hp, hq, hlt.le⟩

/-! ## Finite numbers -/

theorem value?_one : value? 1.0 = some 1 := by
  have hdecode : decode 1.0 = .finite false (2 ^ 52) (-52) := rfl
  rw [value?, hdecode]
  norm_num [Decoded.value?, signed]

theorem value?_zero : value? 0.0 = some 0 := by
  have hdecode : decode 0.0 = .finite false 0 (-1074) := rfl
  rw [value?, hdecode]
  norm_num [Decoded.value?, signed]

theorem value?_half : value? 0.5 = some (1 / 2) := by
  have hdecode : decode 0.5 = .finite false (2 ^ 52) (-53) := rfl
  rw [value?, hdecode]
  norm_num [Decoded.value?, signed]

theorem value?_two : value? 2.0 = some 2 := by
  have hdecode : decode 2.0 = .finite false (2 ^ 52) (-51) := rfl
  rw [value?, hdecode]
  norm_num [Decoded.value?, signed]

theorem isNaN_of_value {x : Float} {q : ℚ} (h : value? x = some q) : x.isNaN = false := by
  have hu := operand_of_value h
  show x.toModel.unpack.isNaN = false
  generalize x.toModel.unpack = u at hu
  cases hu <;> rfl

theorem isInf_of_value {x : Float} {q : ℚ} (h : value? x = some q) : x.isInf = false := by
  have hu := operand_of_value h
  show x.toModel.unpack.isInf = false
  generalize x.toModel.unpack = u at hu
  cases hu <;> rfl

theorem lt_iff_value {x y : Float} {p q : ℚ} (hx : value? x = some p) (hy : value? y = some q) :
    x < y ↔ p < q := by
  rw [lt_iff_extent, extent?_eq_coe.mpr hx, extent?_eq_coe.mpr hy]
  simp

/-- A random number has a value. -/
theorem exists_value_of_unit {u : Float} (hlow : 0.0 ≤ u) (hhigh : u < 1.0) :
    ∃ p, value? u = some p ∧ 0 ≤ p ∧ p < 1 := by
  obtain ⟨p, hp, hnonneg, -⟩ := exists_value_of_le value?_zero value?_one hlow (le_of_below hhigh)
  exact ⟨p, hp, hnonneg, (lt_iff_value hp value?_one).mp hhigh⟩

theorem Rounds.value_or_infinite {z : ℚ} {x : Float} (h : Rounds z x) :
    (∃ q, Nearest z q ∧ value? x = some q) ∨ ∃ b, extent? x = some (infinitePlace b) := by
  obtain ⟨q, hnearest, hfinite | hinfinite⟩ := h
  · exact .inl ⟨q, hnearest, hfinite.2⟩
  · refine .inr ⟨decide (q < 0), ?_⟩
    rw [extent?, hinfinite.2]
    rfl

theorem Rounds.value_or_top {z : ℚ} {x : Float} (h : Rounds z x) (hz : 0 ≤ z) :
    (∃ q, value? x = some q ∧ 0 ≤ q) ∨ extent? x = some (infinitePlace false) := by
  obtain ⟨q, hnearest, hfinite | hinfinite⟩ := h
  · exact .inl ⟨q, hfinite.2, hnearest.ge .zero hz⟩
  · have hq : ¬ q < 0 := (hnearest.ge .zero hz).not_gt
    rw [extent?, hinfinite.2, decide_eq_false hq]
    exact .inr rfl

/-- What lies above a finite number is not rounded to negative infinity. -/
theorem Rounds.extent_ne_bot {z g : ℚ} {x : Float} (h : Rounds z x) (hg : OnGrid g) (hle : g ≤ z)
    (hlt : |g| < 2 ^ 1024) : extent? x ≠ some ⊥ := by
  obtain ⟨q, hnearest, hfinite | hinfinite⟩ := h
  · rw [extent?_eq_coe.mpr hfinite.2]
    simp
  · have hge : g ≤ q := hnearest.ge hg hle
    have hnonneg : ¬ q < 0 := by
      intro hneg
      have hlarge := hinfinite.1
      rw [abs_of_neg hneg] at hlarge
      exact (neg_le_neg hge).not_gt ((neg_lt.mp (abs_lt.mp hlt).1).trans_le hlarge)
    rw [extent?, hinfinite.2, decide_eq_false hnonneg]
    simp [Decoded.extent?, infinitePlace]

theorem Becomes.exists_extent_of_pos {q : ℚ} {x : Float} (h : Becomes q x) (hq : 0 < q) :
    ∃ p, extent? x = some p ∧ finitePlace 0 < p := by
  rcases h with hfinite | hinfinite
  · exact ⟨_, extent?_eq_coe.mpr hfinite.2, finitePlace_lt.mpr hq⟩
  · refine ⟨_, ?_, WithBot.coe_lt_coe.mpr (WithTop.coe_lt_top 0)⟩
    rw [extent?, hinfinite.2, decide_eq_false hq.not_gt]
    rfl

theorem infinitePlace_injective : Function.Injective infinitePlace := by
  intro b b'
  cases b <;> cases b' <;> simp [infinitePlace]

theorem exists_unpack_infinity {x : Float} {b : Bool} (h : extent? x = some (infinitePlace b)) :
    ∃ s, isNegative s = b ∧ x.toModel.unpack = .infinity s := by
  have hplaced := placed x
  generalize x.toModel.unpack = u at hplaced ⊢
  generalize extent? x = p at hplaced h
  cases hplaced with
  | nan => cases h
  | infinite s => exact ⟨s, infinitePlace_injective (Option.some.inj h), rfl⟩
  | finite hu => exact absurd (Option.some.inj h).symm (infinitePlace_ne_coe _ _)

theorem extent?_pack_infinity (s : Sign) :
    extent? ⟨Float.Model.pack (.infinity s)⟩ = some (infinitePlace (isNegative s)) := by
  rw [extent?, decode_pack_infinity]
  rfl

theorem extent?_pack_nan : extent? ⟨Float.Model.pack .notANumber⟩ = none :=
  rfl

theorem extent?_negativeInfinity : extent? negativeInfinity = some ⊥ :=
  rfl

/-- Negative infinity is the only number at its place. -/
theorem eq_negativeInfinity {x : Float} (h : extent? x = some ⊥) : x = negativeInfinity := by
  obtain ⟨s, hs, hx⟩ := exists_unpack_infinity (b := true) h
  cases s with
  | positive => cases hs
  | negative =>
    have hpack : x = ⟨Float.Model.pack x.toModel.unpack⟩ := by rw [pack_unpack_model]
    rw [hpack, hx]
    rfl

theorem isNaN_eq_false_of_extent {x : Float} {p : Place} (h : extent? x = some p) :
    x.isNaN = false := by
  have hplaced := placed x
  rw [h] at hplaced
  show x.toModel.unpack.isNaN = false
  generalize x.toModel.unpack = u at hplaced
  cases hplaced with
  | infinite s => rfl
  | finite hu => cases hu <;> rfl

theorem value_or_infinite {x : Float} {p : Place} (h : extent? x = some p) :
    (∃ q, p = finitePlace q ∧ value? x = some q) ∨ ∃ b, p = infinitePlace b ∧ x.isInf = true := by
  have hplaced := placed x
  rw [h] at hplaced
  have hinf : x.isInf = x.toModel.unpack.isInf := rfl
  rw [hinf]
  generalize x.toModel.unpack = u at hplaced
  generalize hp : some p = o at hplaced
  cases hplaced with
  | nan => cases hp
  | infinite s =>
    cases hp
    exact .inr ⟨_, rfl, rfl⟩
  | finite hu =>
    cases hp
    exact .inl ⟨_, rfl, extent?_eq_coe.mp h⟩

section Operands

variable {x y : Float} {p q : ℚ} {b : Bool}

theorem extent?_add_infinite (hx : value? x = some p) (hy : extent? y = some (infinitePlace b)) :
    extent? (x + y) = some (infinitePlace b) := by
  obtain ⟨s, rfl, hs⟩ := exists_unpack_infinity hy
  have hu := operand_of_value hx
  rw [add_eq_pack, hs]
  generalize x.toModel.unpack = u at hu
  cases hu <;> exact extent?_pack_infinity s

theorem extent?_add_nan (x : Float) (hy : extent? y = none) : extent? (x + y) = none := by
  have hplaced := placed y
  rw [hy] at hplaced
  rw [add_eq_pack]
  generalize y.toModel.unpack = v at hplaced
  cases hplaced
  cases x.toModel.unpack <;> exact extent?_pack_nan

theorem extent?_infinite_sub (hx : extent? x = some (infinitePlace b)) (hy : value? y = some q) :
    extent? (x - y) = some (infinitePlace b) := by
  obtain ⟨s, rfl, hs⟩ := exists_unpack_infinity hx
  have hv := operand_of_value hy
  rw [sub_eq_pack, hs]
  generalize y.toModel.unpack = v at hv
  cases hv <;> exact extent?_pack_infinity s

theorem extent?_sub_infinite (hx : value? x = some p) (hy : extent? y = some (infinitePlace b)) :
    extent? (x - y) = some (infinitePlace (!b)) := by
  obtain ⟨s, rfl, hs⟩ := exists_unpack_infinity hy
  have hu := operand_of_value hx
  have hsign : (!isNegative s) = isNegative (-s) := by cases s <;> rfl
  rw [sub_eq_pack, hs, hsign]
  generalize x.toModel.unpack = u at hu
  cases hu <;> exact extent?_pack_infinity (-s)

theorem Operand.exists_of_pos {u : UnpackedFloat} (h : Operand u p) (hp : 0 < p) :
    ∃ m e hm, u = .finite .positive m e hm := by
  cases h with
  | zero _ => exact absurd hp (lt_irrefl 0)
  | @finite s m e hm hc he =>
    cases s with
    | positive => exact ⟨m, e, hm, rfl⟩
    | negative =>
      have hpos : (0 : ℚ) < m * 2 ^ e := by positivity
      simp only [signed, isNegative, if_true] at hp
      linarith

theorem extent?_mul_infinite (hx : value? x = some p) (hp : 0 < p)
    (hy : extent? y = some (infinitePlace b)) : extent? (x * y) = some (infinitePlace b) := by
  obtain ⟨s, rfl, hs⟩ := exists_unpack_infinity hy
  obtain ⟨m, e, hm, hu⟩ := (operand_of_value hx).exists_of_pos hp
  have hsign : Sign.positive * s = s := by cases s <;> rfl
  rw [mul_eq_pack, hs, hu]
  show extent? ⟨Float.Model.pack (.infinity (.positive * s))⟩ = _
  rw [hsign, extent?_pack_infinity]

theorem extent?_infinite_mul (hx : extent? x = some (infinitePlace b)) (hy : value? y = some q)
    (hq : 0 < q) : extent? (x * y) = some (infinitePlace b) := by
  obtain ⟨s, rfl, hs⟩ := exists_unpack_infinity hx
  obtain ⟨m, e, hm, hv⟩ := (operand_of_value hy).exists_of_pos hq
  have hsign : s * Sign.positive = s := by cases s <;> rfl
  rw [mul_eq_pack, hs, hv]
  show extent? ⟨Float.Model.pack (.infinity (s * .positive))⟩ = _
  rw [hsign, extent?_pack_infinity]

theorem extent?_infinite_mul_zero (hx : extent? x = some (infinitePlace b))
    (hy : value? y = some 0) : extent? (x * y) = none := by
  obtain ⟨s, rfl, hs⟩ := exists_unpack_infinity hx
  have hv := operand_of_value hy
  rw [mul_eq_pack, hs]
  generalize hzero : (0 : ℚ) = z at hv
  generalize y.toModel.unpack = v at hv
  cases hv with
  | zero s' => exact extent?_pack_nan
  | @finite s' m e hm hc he =>
    have hpos : (0 : ℚ) < m * 2 ^ e := by positivity
    cases s' <;> simp only [signed, isNegative, if_true, Bool.false_eq_true, if_false] at hzero <;>
      linarith

theorem extent?_infinite_mul_infinite (hx : extent? x = some (infinitePlace b))
    (hy : extent? y = some (infinitePlace b)) :
    extent? (x * y) = some (infinitePlace false) := by
  obtain ⟨s, rfl, hs⟩ := exists_unpack_infinity hx
  obtain ⟨s', hsign, hs'⟩ := exists_unpack_infinity hy
  have hpositive : s * s' = .positive := by
    cases s <;> cases s' <;> first | rfl | cases hsign
  rw [mul_eq_pack, hs, hs']
  show extent? ⟨Float.Model.pack (.infinity (s * s'))⟩ = _
  rw [hpositive, extent?_pack_infinity]
  rfl

theorem extent?_infinite_div (hx : extent? x = some (infinitePlace b)) (hy : value? y = some q)
    (hq : 0 < q) : extent? (x / y) = some (infinitePlace b) := by
  obtain ⟨s, rfl, hs⟩ := exists_unpack_infinity hx
  obtain ⟨m, e, hm, hv⟩ := (operand_of_value hy).exists_of_pos hq
  have hsign : s / Sign.positive = s := by cases s <;> rfl
  rw [div_eq_pack, hs, hv]
  show extent? ⟨Float.Model.pack (.infinity (s / .positive))⟩ = _
  rw [hsign, extent?_pack_infinity]

end Operands

end Number

end ProbTrace
