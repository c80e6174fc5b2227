import Mathlib
import ProbTrace.Value.Agreement

/-!
# Numbers by their exact value

Numbers of both kinds have an exact value: every finite one is a multiple of the least positive
binary64 number, so that a value is an integer in that unit.  Two numbers compare as equal exactly
if they have the same value.  For two binary64 numbers this is because a value has one significand
and one exponent only.
-/

namespace ProbTrace

namespace Number

open Float.Model

/-! ## The fields of a word -/

/-- Whether a sign is the negative one. -/
@[simp] def isNegative : UnpackedFloat.Sign → Bool
  | .negative => true
  | .positive => false

/-- What an unpacked word stands for. -/
@[simp] def Decoded.ofUnpacked : UnpackedFloat → Decoded
  | .notANumber => .nan
  | .infinity sign => .infinite (isNegative sign)
  | .zero sign => .finite (isNegative sign) 0 (-1074)
  | .finite sign significand power _ => .finite (isNegative sign) significand power

section Fields

open UnpackedFloat

theorem toNat_unpackMantissa (b : BitVec Format.binary64.numBits) :
    (unpackMantissa b).toNat = b.toNat % 2 ^ 52 := by
  simp [unpackMantissa]

theorem toNat_unpackExponent (b : BitVec Format.binary64.numBits) :
    (unpackExponent b).toNat = b.toNat / 2 ^ 52 % 2 ^ 11 := by
  simp [unpackExponent, Nat.shiftRight_eq_div_pow]

theorem toNat_unpackSign (b : BitVec Format.binary64.numBits) :
    (unpackSign b).toNat = b.toNat / 2 ^ 63 := by
  have hlt : b.toNat < 2 ^ 64 := b.isLt
  have hone : b.toNat / 2 ^ 63 < 2 := by omega
  simp only [unpackSign, BitVec.toNat_cast, BitVec.extractLsb_toNat, Nat.shiftRight_eq_div_pow]
  exact Nat.mod_eq_of_lt hone

theorem isNegative_unpackSign (b : BitVec Format.binary64.numBits) :
    isNegative (Sign.ofBitVec (unpackSign b)) = decide (Nat.pow 2 63 ≤ b.toNat) := by
  have hsign := toNat_unpackSign b
  rw [Sign.ofBitVec, Nat.pow_eq]
  by_cases hword : 2 ^ 63 ≤ b.toNat
  · have hset : unpackSign b ≠ 0#1 := by
      intro hzero
      rw [hzero] at hsign
      simp only [BitVec.toNat_ofNat] at hsign
      omega
    rw [if_neg hset, decide_eq_true hword]
    rfl
  · have hclear : unpackSign b = 0#1 := by
      apply BitVec.eq_of_toNat_eq
      rw [hsign]
      simp only [BitVec.toNat_ofNat]
      omega
    rw [if_pos hclear, decide_eq_false hword]
    rfl

end Fields

/-- The leading bit of a normal number is not in its word. -/
theorem toNat_leadingBit (m : BitVec 52) : (1#1 ++ m).toNat = 2 ^ 52 + m.toNat := by
  rw [BitVec.toNat_append, ← Nat.shiftLeft_add_eq_or_of_lt m.isLt]
  rfl

/-- Decoding a word gives what it unpacks to. -/
theorem decode_eq_ofUnpacked (x : Float) : decode x = .ofUnpacked x.toModel.unpack := by
  have hword : x.toBits.toNat = x.toModel.toBits.toBitVec.toNat := rfl
  have hsign := isNegative_unpackSign x.toModel.toBits.toBitVec
  have hfield := toNat_unpackExponent x.toModel.toBits.toBitVec
  have hfraction := toNat_unpackMantissa x.toModel.toBits.toBitVec
  have hbias : Format.binary64.exponentBias = 1023 := rfl
  have hlast (e : BitVec 11) : e.toNat = 2047 ↔ e = -1#11 :=
    ⟨fun heq => BitVec.eq_of_toNat_eq heq, congrArg BitVec.toNat⟩
  have hfirst (e : BitVec 11) : e.toNat = 0 ↔ e = 0#11 :=
    ⟨fun heq => BitVec.eq_of_toNat_eq heq, congrArg BitVec.toNat⟩
  have hzero (m : BitVec 52) : m.toNat = 0 ↔ m = 0#52 :=
    ⟨fun heq => BitVec.eq_of_toNat_eq heq, congrArg BitVec.toNat⟩
  simp only [decode, hword, Float.Model.unpack, UnpackedFloat.unpack, hbias]
  rw [Nat.pow_eq, Nat.pow_eq, ← hsign, ← hfield, ← hfraction]
  simp only [hlast, hfirst, hzero]
  split
  · split <;> rfl
  split
  · rename_i hnull
    split
    · rename_i hfraction
      rw [hfraction]
      rfl
    · rw [hnull]
      rfl
  · simp only [Decoded.ofUnpacked, toNat_leadingBit]
    rfl

/-! ## Significands and powers -/

/-- How many times the least positive binary64 number goes into a number. -/
def units (significand : Nat) (power : Int) : Nat :=
  significand * 2 ^ (power + 1074).toNat

/-- A significand and a power of two as words have them: the significand has its full width unless
the power is the least one. -/
structure Canonical (significand : Nat) (power : Int) : Prop where
  lt : significand < 2 ^ 53
  least : -1074 ≤ power
  full : power = -1074 ∨ 2 ^ 52 ≤ significand

namespace Canonical

variable {m n : Nat} {p q : Int}

/-- A number with a larger power is larger. -/
theorem units_lt (hm : Canonical m p) (hn : Canonical n q) (hlt : p < q) :
    units m p < units n q := by
  have hfull : 2 ^ 52 ≤ n := by
    have := hm.least
    rcases hn.full with h | h <;> omega
  have hsucc : (p + 1074).toNat + 1 ≤ (q + 1074).toNat := by
    have := hm.least
    omega
  calc m * 2 ^ (p + 1074).toNat
      < 2 ^ 53 * 2 ^ (p + 1074).toNat := Nat.mul_lt_mul_of_pos_right hm.lt (Nat.two_pow_pos _)
    _ = 2 ^ 52 * 2 ^ ((p + 1074).toNat + 1) := by rw [Nat.pow_succ]; ring
    _ ≤ n * 2 ^ (q + 1074).toNat :=
      Nat.mul_le_mul hfull (Nat.pow_le_pow_right (by decide) hsucc)

/-- A value has one power and one significand. -/
theorem units_eq_iff (hm : Canonical m p) (hn : Canonical n q) :
    units m p = units n q ↔ p = q ∧ m = n := by
  constructor
  · intro heq
    have hpower : p = q := by
      rcases lt_trichotomy p q with h | h | h
      · exact absurd heq (hm.units_lt hn h).ne
      · exact h
      · exact absurd heq (hn.units_lt hm h).ne'
    subst hpower
    exact ⟨rfl, Nat.eq_of_mul_eq_mul_right (Nat.two_pow_pos _) heq⟩
  · rintro ⟨rfl, rfl⟩
    rfl

end Canonical

theorem canonical_decode {x : Float} {negative : Bool} {m : Nat} {p : Int}
    (h : decode x = .finite negative m p) : Canonical m p := by
  simp only [decode, Nat.pow_eq] at h
  have hfraction : x.toBits.toNat % 2 ^ 52 < 2 ^ 52 := Nat.mod_lt _ (by decide)
  split at h
  · split at h <;> cases h
  split at h
  · cases h
    exact ⟨by omega, by omega, .inl rfl⟩
  · cases h
    exact ⟨by omega, by omega, .inr (by omega)⟩

/-! ## Exact values -/

/-- The value of a number that is one.  A finite value counts least positive binary64 numbers. -/
inductive Exact where
  | infinite (negative : Bool)
  | finite (units : Int)

/-- The exact value of what a word stands for. -/
@[simp] def Decoded.amount? : Decoded → Option Exact
  | nan => none
  | infinite negative => some (.infinite negative)
  | finite negative m p => some (.finite (if negative then -(units m p : Int) else units m p))

@[simp] theorem units_zero (p : Int) : units 0 p = 0 :=
  Nat.zero_mul _

theorem units_pos {m : Nat} (hm : 0 < m) (p : Int) : 0 < units m p :=
  Nat.mul_pos hm (Nat.two_pow_pos _)

/-- Words that unpack to numbers compare as equal exactly if these have the same value. -/
theorem compare_unpacked_eq {u v : UnpackedFloat}
    (hu : ∀ {negative m p}, Decoded.ofUnpacked u = .finite negative m p → Canonical m p)
    (hv : ∀ {negative m p}, Decoded.ofUnpacked v = .finite negative m p → Canonical m p) :
    u.compare v = some .eq ↔
      ∃ e, (Decoded.ofUnpacked u).amount? = some e ∧ (Decoded.ofUnpacked v).amount? = some e := by
  cases u with
  | notANumber => simp [UnpackedFloat.compare]
  | infinity s =>
    cases v with
    | notANumber => simp [UnpackedFloat.compare]
    | infinity s' => cases s <;> cases s' <;> simp [UnpackedFloat.compare] <;> rfl
    | zero s' => cases s <;> simp [UnpackedFloat.compare]
    | finite s' n q hn => cases s <;> simp [UnpackedFloat.compare]
  | zero s =>
    cases v with
    | notANumber => simp [UnpackedFloat.compare]
    | infinity s' => cases s' <;> simp [UnpackedFloat.compare]
    | zero s' => simp [UnpackedFloat.compare]
    | finite s' n q hn =>
      have hpos := units_pos hn q
      cases s' <;> simp [UnpackedFloat.compare] <;> omega
  | finite s m p hm =>
    have hpos := units_pos hm p
    cases v with
    | notANumber => simp [UnpackedFloat.compare]
    | infinity s' => cases s' <;> simp [UnpackedFloat.compare]
    | zero s' => cases s <;> simp [UnpackedFloat.compare] <;> omega
    | finite s' n q hn =>
      have hpos' := units_pos hn q
      have hequal := (hu rfl).units_eq_iff (hv rfl)
      cases s <;> cases s' <;> simp [UnpackedFloat.compare, ← hequal] <;> omega

theorem beq_iff_exact (x y : Float) :
    (x == y) = true ↔ ∃ e, (decode x).amount? = some e ∧ (decode y).amount? = some e := by
  have hcanonical (z : Float) {negative : Bool} {m : Nat} {p : Int}
      (h : Decoded.ofUnpacked z.toModel.unpack = .finite negative m p) : Canonical m p :=
    canonical_decode ((decode_eq_ofUnpacked z).trans h)
  rw [decode_eq_ofUnpacked, decode_eq_ofUnpacked,
    ← compare_unpacked_eq (hcanonical x) (hcanonical y)]
  show (x.toModel.unpack.compare y.toModel.unpack == some .eq) = true ↔ _
  exact beq_iff_eq

theorem units_one (p : Int) : units 1 p = 2 ^ (p + 1074).toNat :=
  Nat.one_mul _

/-- The numerator and the denominator of a number, and their common factor in units. -/
theorem exists_units_eq {p : Int} (hp : -1074 ≤ p) (m : Nat) :
    ∃ c, 0 < c ∧ units 1 0 = Nat.pow 2 (-p).toNat * c ∧
      units m p = (if 0 ≤ p then m * Nat.pow 2 p.toNat else m) * c := by
  by_cases hsign : 0 ≤ p
  · refine ⟨units 1 0, units_pos Nat.one_pos 0, ?_, ?_⟩
    · have hpower : (-p).toNat = 0 := by omega
      rw [hpower, Nat.pow_eq, Nat.pow_zero, Nat.one_mul]
    · have hpower : (p + 1074).toNat = p.toNat + ((0 : Int) + 1074).toNat := by omega
      rw [if_pos hsign, units, units_one, hpower, Nat.pow_add, Nat.mul_assoc, Nat.pow_eq]
  · refine ⟨units 1 p, units_pos Nat.one_pos p, ?_, ?_⟩
    · have hpower : ((0 : Int) + 1074).toNat = (-p).toNat + (p + 1074).toNat := by omega
      rw [units_one, units_one, hpower, Nat.pow_add, Nat.pow_eq]
    · rw [if_neg hsign, units, units_one]

/-- An integer and a binary64 number compare as equal exactly if they have the same value. -/
theorem compareInt_eq (i : Int) (x : Float) :
    compareInt i x = some .eq ↔ (decode x).amount? = some (.finite (i * units 1 0)) := by
  cases hx : decode x with
  -- One has many units: it is generalized lest its power of two be evaluated.
  | nan =>
    generalize units 1 0 = one
    simp [compareInt, hx]
  | infinite negative =>
    generalize units 1 0 = one
    cases negative <;> simp [compareInt, hx]
  | finite negative m p =>
    obtain ⟨c, hc, hone, hunits⟩ := exists_units_eq (canonical_decode hx).least m
    simp only [compareInt, hx, ratio, Decoded.amount?, Option.some.injEq, Exact.finite.injEq,
      compare_eq_iff_eq, hone, hunits]
    generalize (if 0 ≤ p then m * Nat.pow 2 p.toNat else m) = num
    generalize Nat.pow 2 (-p).toNat = den
    have hfactor : (c : Int) ≠ 0 := by omega
    have hleft : (if negative = true then -((num * c : Nat) : Int) else (num * c : Nat)) =
        (if negative = true then -(num : Int) else num) * c := by
      cases negative <;> simp
    have hright : i * ((den * c : Nat) : Int) = i * den * c := by
      rw [Int.natCast_mul, Int.mul_assoc]
    rw [hleft, hright, mul_left_inj' hfactor]
    exact eq_comm

end Number

open Number

/-- The exact value of a number. -/
def Numeric.amount? : Numeric → Option Exact
  | int i => some (.finite (i * units 1 0))
  | float x => (decode x).amount?

/-- Numbers compare as equal exactly if they have the same value. -/
theorem Numeric.compare?_eq (a b : Numeric) :
    a.compare? b = some .eq ↔ ∃ e, a.amount? = some e ∧ b.amount? = some e := by
  cases a with
  | int i =>
    cases b with
    | int j =>
      have hone : (units 1 0 : Int) ≠ 0 := by
        have := units_pos Nat.one_pos 0
        omega
      simp only [compare?, amount?, Option.some.injEq, compare_eq_iff_eq]
      constructor
      · rintro rfl
        exact ⟨_, rfl, rfl⟩
      · rintro ⟨_, rfl, heq⟩
        exact (mul_left_inj' hone).mp (Exact.finite.inj heq).symm
    | float y =>
      rw [compare?, compareInt_eq]
      constructor
      · intro heq
        exact ⟨_, rfl, heq⟩
      · rintro ⟨_, ⟨⟩, heq⟩
        exact heq
  | float x =>
    cases b with
    | int j =>
      have hswap : (compareInt j x).map Ordering.swap = some .eq ↔ compareInt j x = some .eq := by
        rcases compareInt j x with _ | _ | _ | _ <;> simp
      rw [compare?, hswap, compareInt_eq]
      constructor
      · intro heq
        exact ⟨_, heq, rfl⟩
      · rintro ⟨_, heq, ⟨⟩⟩
        exact heq
    | float y =>
      have hless : x < y → ¬ (x == y) = true := by
        intro hlt heq
        have hlt : x.toModel.unpack.compare y.toModel.unpack = some .lt :=
          beq_iff_eq.mp (of_decide_eq_true hlt)
        have heq : x.toModel.unpack.compare y.toModel.unpack = some .eq := beq_iff_eq.mp heq
        cases hlt.symm.trans heq
      rw [amount?, amount?, ← beq_iff_exact]
      by_cases h : x < y
      · simp [compare?, h, hless h]
      · by_cases heq : (x == y) = true <;> simp [compare?, h, heq]

theorem Numeric.amount?_eq_none {a : Numeric} :
    a.amount? = none ↔ ∃ x, a = .float x ∧ x.isNaN = true := by
  cases a with
  | int i =>
    constructor
    · rintro ⟨⟩
    · rintro ⟨_, ⟨⟩, _⟩
  | float x =>
    have hnan : (decode x).amount? = none ↔ x.toModel.unpack.isNaN = true := by
      rw [decode_eq_ofUnpacked]
      cases x.toModel.unpack <;> simp
    rw [amount?, hnan]
    constructor
    · intro h
      exact ⟨x, rfl, h⟩
    · rintro ⟨_, ⟨⟩, h⟩
      exact h

/-! ## Values without parts -/

/-- What agreement takes a value without parts for. -/
inductive Essence where
  | number (e : Exact)
  | null
  | text (s : String)
  | symbol (s : String)
  | tag (serial : Nat)
  | closure (serial : Nat)
  | builtin (b : Builtin)
  | special (s : Special)

namespace Value

/-- What a value that is no number is taken for. -/
def label? : Value → Option Essence
  | null => some .null
  | text s => some (.text s)
  | symbol s => some (.symbol s)
  | tag serial _ => some (.tag serial)
  | closure serial _ _ _ => some (.closure serial)
  | builtin b => some (.builtin b)
  | special s => some (.special s)
  | _ => none

/-- What a value without parts is taken for; nothing for a number that is not one. -/
def essence? (v : Value) : Option Essence :=
  match v.numeric? with
  | some a => a.amount?.map .number
  | none => v.label?

theorem label?_ne_number (v : Value) (e : Exact) : v.label? ≠ some (.number e) := by
  cases v <;> simp [label?]

/-- Values that are no numbers agree exactly if they are taken for the same. -/
theorem sameAtom_iff_label {v w : Value} (hv : v.numeric? = none) (hw : w.numeric? = none) :
    v.sameAtom w = true ↔ ∃ e, v.label? = some e ∧ w.label? = some e := by
  unfold sameAtom
  simp only [hv, hw]
  cases v <;> cases w <;> simp [label?] <;> exact eq_comm

/-- A value without parts: neither a sequence nor a trace. -/
def IsAtom : Value → Prop
  | list _ | tuple _ | quoted _ | brackets _ | trace _ => False
  | _ => True

/-- A number that is not one. -/
def IsNaN : Value → Prop
  | float x => x.isNaN = true
  | undefined _ => True
  | _ => False

theorem essence?_eq_none {v : Value} (hv : v.IsAtom) : v.essence? = none ↔ v.IsNaN := by
  have hnan : Numeric.amount? (.float notANumber) = none :=
    Numeric.amount?_eq_none.mpr ⟨notANumber, rfl, rfl⟩
  cases v with
  | list _ | tuple _ | quoted _ | brackets _ | trace _ => cases hv
  | bool _ | int _ | float _ => simp [essence?, numeric?, IsNaN, Numeric.amount?_eq_none]
  | undefined serial => simp [essence?, numeric?, IsNaN, hnan]
  | _ => simp [essence?, numeric?, label?, IsNaN]

theorem isAtom_of_essence {v : Value} {e : Essence} (h : v.essence? = some e) : v.IsAtom := by
  cases v with
  | list _ | tuple _ | quoted _ | brackets _ | trace _ => cases h
  | _ => trivial

/-- Values without parts agree exactly if they are taken for the same. -/
theorem sameAtom_iff (v w : Value) :
    v.sameAtom w = true ↔ ∃ e, v.essence? = some e ∧ w.essence? = some e := by
  cases hv : v.numeric? with
  | none =>
    cases hw : w.numeric? with
    | none => simp only [sameAtom_iff_label hv hw, essence?, hv, hw]
    | some b =>
      simp only [sameAtom, essence?, hv, hw, Bool.false_eq_true, false_iff]
      rintro ⟨e, he, hnumber⟩
      obtain ⟨x, -, rfl⟩ := Option.map_eq_some_iff.mp hnumber
      exact v.label?_ne_number x he
  | some a =>
    cases hw : w.numeric? with
    | none =>
      simp only [sameAtom, essence?, hv, hw, Bool.false_eq_true, false_iff]
      rintro ⟨e, hnumber, he⟩
      obtain ⟨x, -, rfl⟩ := Option.map_eq_some_iff.mp hnumber
      exact w.label?_ne_number x he
    | some b =>
      simp only [sameAtom, essence?, hv, hw, beq_iff_eq, Numeric.compare?_eq]
      constructor
      · rintro ⟨x, ha, hb⟩
        exact ⟨.number x, by rw [ha]; rfl, by rw [hb]; rfl⟩
      · rintro ⟨e, ha, hb⟩
        obtain ⟨x, hx, rfl⟩ := Option.map_eq_some_iff.mp ha
        obtain ⟨y, hy, heq⟩ := Option.map_eq_some_iff.mp hb
        cases heq
        exact ⟨x, hx, hy⟩

theorem sameAtom_symm {v w : Value} (h : v.sameAtom w = true) : w.sameAtom v = true := by
  obtain ⟨e, hv, hw⟩ := (sameAtom_iff v w).mp h
  exact (sameAtom_iff w v).mpr ⟨e, hw, hv⟩

theorem sameAtom_trans {u v w : Value} (h : u.sameAtom v = true) (h' : v.sameAtom w = true) :
    u.sameAtom w = true := by
  obtain ⟨e, hu, hv⟩ := (sameAtom_iff u v).mp h
  obtain ⟨e', hv', hw⟩ := (sameAtom_iff v w).mp h'
  cases hv.symm.trans hv'
  exact (sameAtom_iff u w).mpr ⟨e, hu, hw⟩

/-- A value without parts agrees with itself unless it is a number that is not one. -/
theorem sameAtom_self {v : Value} (hv : v.IsAtom) : v.sameAtom v = true ↔ ¬ v.IsNaN := by
  rw [sameAtom_iff, ← essence?_eq_none hv]
  cases v.essence? <;> simp

end Value
end ProbTrace
