import ProbTrace.Evaluator

/-!
# Failures of operations

An operation on values fails plainly when an operand is of the wrong type or out of range: there is
no message, so that no value is shown.  This holds of all arithmetic, of comparisons, of
sequences, with the exceptions of building a pair and an address, and of densities.
-/

namespace ProbTrace

/-- Faults without a message. -/
def Fault.isPlain : Fault → Bool
  | .wrongType | .wrongValue | .outOfRange | .divisionByZero | .tooLarge | .outOfMemory
  | .noSuchOperation => true
  | _ => false

theorem Fault.shown_of_isPlain {f : Fault} (h : f.isPlain = true) : f.shown = [] := by
  cases f <;> first | rfl | cases h

/-- A computation on values whose faults have no message. -/
def FailsPlainly {α : Type} (x : Except Fault α) : Prop :=
  ∀ f, x = .error f → f.isPlain = true

namespace FailsPlainly

variable {α β : Type} {x : Except Fault α}

theorem ok (a : α) : FailsPlainly (.ok a : Except Fault α) :=
  fun _ h => nomatch h

theorem error {f : Fault} (h : f.isPlain = true) : FailsPlainly (.error f : Except Fault α) := by
  intro g hg
  cases hg
  exact h

theorem bind {f : α → Except Fault β} (hx : FailsPlainly x) (hf : ∀ a, FailsPlainly (f a)) :
    FailsPlainly (x >>= f) := by
  cases x with
  | error g => exact error (hx g rfl)
  | ok a => exact hf a

theorem foldlM {f : α → β → Except Fault α} (hf : ∀ a b, FailsPlainly (f a b)) (bs : List β)
    (a : α) : FailsPlainly (bs.foldlM f a) := by
  induction bs generalizing a with
  | nil => exact ok a
  | cons b bs ih =>
    rw [List.foldlM_cons]
    exact (hf a b).bind ih

end FailsPlainly

/-! ## Numbers -/

namespace Numeric

theorem toFloat_plain (a : Numeric) : FailsPlainly a.toFloat := by
  cases a with
  | float x => exact .ok x
  | int i =>
    simp only [toFloat]
    split
    · exact .ok _
    · exact .error rfl

theorem combine_plain (exact : Int → Int → Int) (rounded : Float → Float → Float)
    (a b : Numeric) : FailsPlainly (a.combine exact rounded b) := by
  unfold combine
  split
  · exact .ok _
  · exact a.toFloat_plain.bind fun _ => b.toFloat_plain.bind fun _ => .ok _

theorem divide_plain (a b : Numeric) : FailsPlainly (a.divide b) := by
  unfold divide
  split
  · split
    · exact .error rfl
    · split
      · exact .ok _
      · exact .error rfl
  · refine a.toFloat_plain.bind fun x => b.toFloat_plain.bind fun y => ?_
    split
    · exact .error rfl
    · exact .ok _

end Numeric

theorem logOfFloat_plain (x : Float) : FailsPlainly (logOfFloat x) := by
  unfold logOfFloat
  split
  · exact .ok _
  · split
    · exact .ok _
    · exact .error rfl

theorem Random.squareRoot_plain (x : Float) : FailsPlainly (squareRoot x) := by
  unfold squareRoot
  split
  · exact .error rfl
  · exact .ok _

theorem logOfInt_plain (i : Int) : FailsPlainly (logOfInt i) := by
  unfold logOfInt
  split
  · exact .error rfl
  · split
    · exact .ok _
    · exact .ok _

theorem checkMemory_plain (size : Nat) : FailsPlainly (checkMemory size) := by
  unfold checkMemory
  split
  · exact .error rfl
  · exact .ok _

theorem repeatCount_plain (size : Nat) (count : Int) : FailsPlainly (repeatCount size count) := by
  unfold repeatCount
  split
  · exact .error rfl
  · exact .ok _

namespace Value

theorem expectNumeric_plain (v : Value) : FailsPlainly v.expectNumeric := by
  unfold expectNumeric
  split
  · exact .ok _
  · exact .error rfl

theorem toFloat_plain (v : Value) : FailsPlainly v.toFloat :=
  v.expectNumeric_plain.bind fun a => a.toFloat_plain

theorem negate_plain (v : Value) : FailsPlainly v.negate :=
  v.expectNumeric_plain.bind fun _ => .ok _

theorem subtract_plain (v w : Value) : FailsPlainly (v.subtract w) :=
  v.expectNumeric_plain.bind fun a => w.expectNumeric_plain.bind fun b =>
    a.combine_plain _ _ b

theorem divide_plain (v w : Value) : FailsPlainly (v.divide w) :=
  v.expectNumeric_plain.bind fun a => w.expectNumeric_plain.bind fun b => a.divide_plain b

theorem exponential_plain (v : Value) : FailsPlainly v.exponential := by
  refine v.toFloat_plain.bind fun x => ?_
  dsimp only
  split
  · exact .error rfl
  · exact .ok _

theorem logarithm_plain (v : Value) : FailsPlainly v.logarithm := by
  refine v.expectNumeric_plain.bind fun a => ?_
  cases a with
  | int i => exact logOfInt_plain i
  | float x => exact logOfFloat_plain x

/-! ## Sequences -/

theorem add_plain (v w : Value) : FailsPlainly (v.add w) := by
  unfold add
  split
  · exact Numeric.combine_plain _ _ _ _
  · split
    · exact .ok _
    · split
      · split
        · exact .ok _
        · exact .error rfl
      · exact .error rfl

theorem repeated_plain (v : Value) (count : Int) : FailsPlainly (v.repeated count) := by
  unfold repeated
  split
  · refine (repeatCount_plain _ _).bind fun n => ?_
    dsimp only
    split
    · exact .error rfl
    · exact (checkMemory_plain _).bind fun _ => .ok _
  · exact (repeatCount_plain _ _).bind fun n => (checkMemory_plain _).bind fun _ => .ok _
  · exact .error rfl

theorem multiply_plain (v w : Value) : FailsPlainly (v.multiply w) := by
  unfold multiply
  split
  · exact Numeric.combine_plain _ _ _ _
  · exact w.repeated_plain _
  · exact v.repeated_plain _
  · exact .error rfl

theorem expectElements_plain (v : Value) : FailsPlainly v.expectElements := by
  unfold expectElements
  split
  · exact .ok _
  · exact .error rfl

theorem itemAt_plain (vs : List Value) (i : Int) : FailsPlainly (itemAt vs i) := by
  unfold itemAt
  generalize (if i < 0 then i + ↑vs.length else i) = position
  dsimp only
  split
  · exact .error rfl
  · split
    · exact .ok _
    · exact .error rfl

theorem first_plain (v : Value) : FailsPlainly v.first :=
  v.expectElements_plain.bind fun vs => itemAt_plain vs 0

theorem rest_plain (v : Value) : FailsPlainly v.rest := by
  unfold rest
  split
  · exact .ok _
  · exact .ok _
  · exact .error rfl

theorem nth_plain (v w : Value) : FailsPlainly (v.nth w) := by
  refine v.expectElements_plain.bind fun vs => ?_
  split
  · exact itemAt_plain vs _
  · exact .error rfl

theorem length_plain (v : Value) : FailsPlainly v.length :=
  v.expectElements_plain.bind fun _ => .ok _

theorem range_plain (v : Value) : FailsPlainly v.range := by
  unfold range
  split
  · dsimp only
    split
    · exact .error rfl
    · exact (checkMemory_plain _).bind fun _ => .ok _
  · exact .error rfl

/-! ## Order -/

theorem relateAtoms_plain (r : Relation) (v w : Value) : FailsPlainly (v.relateAtoms r w) := by
  unfold relateAtoms
  split
  · exact .ok _
  · split
    · exact .ok _
    · exact .error rfl

end Value

mutual

theorem Value.relate_plain (s : Store) (r : Relation) : ∀ v w : Value, FailsPlainly (v.relate s r w)
  | .list vs, w => by
    simp only [Value.relate]
    split
    · exact relateItems_plain s r vs _
    · exact .error rfl
  | .tuple vs, w => by
    simp only [Value.relate]
    split
    · exact relateItems_plain s r vs _
    · exact .error rfl
  | .quoted v, w => by
    simp only [Value.relate]
    split
    · split
      · exact .ok _
      · exact v.relate_plain s r _
    · exact .ok _
    · exact .error rfl
  | .brackets vs, w => by
    simp only [Value.relate]
    split
    · split
      · exact .ok _
      · exact relateItems_plain s r vs _
    · exact .error rfl
    · exact .ok _
    · exact .error rfl
  | .null, w | .bool _, w | .int _, w | .float _, w | .undefined _, w | .text _, w | .symbol _, w
  | .trace _, w | .tag _ _, w | .closure _ _ _ _, w | .builtin _, w | .special _, w => by
    simp only [Value.relate]
    exact Value.relateAtoms_plain r _ w

theorem relateItems_plain (s : Store) (r : Relation) : ∀ vs ws : List Value,
    FailsPlainly (relateItems s r vs ws)
  | [], _ => .ok _
  | _ :: _, [] => .ok _
  | v :: vs, w :: ws => by
    simp only [relateItems]
    split
    · exact relateItems_plain s r vs ws
    · exact v.relate_plain s r w

end

/-! ## Builtins and distributions -/

namespace Builtin

theorem relation_plain (s : Store) (r : Relation) (v w : Value) :
    FailsPlainly (relation s r v w) :=
  (v.relate_plain s r w).bind fun _ => .ok _

theorem logarithm_plain (v : Value) (base? : Option Value) : FailsPlainly (logarithm v base?) := by
  refine v.logarithm_plain.bind fun x => ?_
  cases base? with
  | none => exact .ok _
  | some base => exact base.logarithm_plain.bind fun y => Numeric.divide_plain _ _

/-- Only `pair` and `addr` may show an operand when they fail. -/
theorem compute_plain (s : Store) {b : Builtin} (hpair : b ≠ pair) (haddress : b ≠ address)
    (vs : List Value) : FailsPlainly (b.compute s vs) := by
  unfold compute
  split
  · exact .ok _
  · exact .foldlM Value.add_plain _ _
  · exact Value.negate_plain _
  · exact .foldlM Value.subtract_plain _ _
  · exact .foldlM Value.multiply_plain _ _
  · exact Value.divide_plain _ _
  · exact .foldlM Value.divide_plain _ _
  · exact .ok _
  · exact .ok _
  · exact relation_plain _ _ _ _
  · exact relation_plain _ _ _ _
  · exact relation_plain _ _ _ _
  · exact relation_plain _ _ _ _
  · exact .ok _
  · exact .ok _
  · exact .ok _
  · exact absurd rfl hpair
  · exact absurd rfl haddress
  · exact Value.first_plain _
  · exact Value.rest_plain _
  · exact Value.nth_plain _ _
  · exact Value.length_plain _
  · exact Value.range_plain _
  · exact (Value.exponential_plain _).bind fun _ => .ok _
  · exact logarithm_plain _ _
  · exact logarithm_plain _ _
  · exact .error rfl

end Builtin

namespace Distribution

theorem safeLog_plain (v : Value) : FailsPlainly (safeLog v) := by
  refine (v.relateAtoms_plain _ _).bind fun b => ?_
  cases b with
  | true => exact v.logarithm_plain
  | false => exact .ok _

theorem flipLogDensity_plain (v p : Value) : FailsPlainly (flipLogDensity v p) := by
  unfold flipLogDensity
  split
  · exact safeLog_plain p
  · exact (Value.subtract_plain _ p).bind safeLog_plain

theorem uniformLogDensity_plain (s : Store) (v low high : Value) :
    FailsPlainly (uniformLogDensity s v low high) := by
  refine (low.relate_plain s _ v).bind fun b => ?_
  cases b with
  | false => exact .ok _
  | true =>
    refine (v.relate_plain s _ high).bind fun b => ?_
    cases b with
    | false => exact .ok _
    | true =>
      exact (high.subtract_plain low).bind fun width => width.logarithm_plain.bind fun _ => .ok _

theorem gaussianLogDensity_plain (v mean deviation : Value) :
    FailsPlainly (gaussianLogDensity v mean deviation) := by
  refine (v.subtract_plain mean).bind fun distance => ?_
  refine (distance.divide_plain deviation).bind fun z => z.toFloat_plain.bind fun x => ?_
  exact deviation.logarithm_plain.bind fun _ => .ok _

theorem logDensity_plain (s : Store) (d : Distribution) (vs : List Value) :
    FailsPlainly (d.logDensity s vs) := by
  unfold logDensity
  split
  · exact flipLogDensity_plain _ _
  · exact uniformLogDensity_plain _ _ _ _
  · exact gaussianLogDensity_plain _ _ _
  · exact .error rfl

end Distribution

theorem Evaluator.addScore_plain (total : Float) (score : Value) :
    FailsPlainly (addScore total score) :=
  score.toFloat_plain.bind fun _ => .ok _

end ProbTrace
