import ProbTrace.Inference
import ProbTrace.Proofs.Conversion
import ProbTrace.Proofs.Watched

/-!
# The first accepted run

Rejection sampling makes one attempt after the other: it runs the model on the random numbers that
the attempt before left, and takes one more number to decide.  The run that it returns is that of
the first attempt which is accepted, and it fails exactly if none is.  A run with score negative
infinity is never accepted, whatever the bound: minus any bound its score is negative infinity or
no number, and nothing is below either.
-/

namespace ProbTrace
namespace Inference

open Evaluator Number

/-! ## Attempts -/

/-- An attempt: what a run of the model gave, the random number after it, and the state that
both left. -/
structure Trial where
  execution : Execution
  drawn : Float
  after : Machine

/-- The attempt from a state, if the run returns. -/
def trial? (ctx : Context) (q : Query) (m : Machine) : Option Trial :=
  match q.run ctx m with
  | .ok execution m₁ => some
    { execution, drawn := ctx.stream m₁.draws, after := { m₁ with draws := m₁.draws + 1 } }
  | .error _ _ => none

/-- The attempts from a state on, counted from one. -/
def attempt? (ctx : Context) (q : Query) (m : Machine) : ℕ → Option Trial
  | 0 => none
  | 1 => trial? ctx q m
  | k + 2 => (attempt? ctx q m (k + 1)).bind fun t => trial? ctx q t.after

/-- Whether an attempt is accepted: the logarithm of one minus its random number is below its score
minus the bound. -/
def Trial.beats (t : Trial) (bound : Value) : Except Fault Bool := do
  (Value.float (1.0 - t.drawn).log).relateAtoms .less (← t.execution.score.subtract bound)

/-- The numbers of the attempts that are accepted, among so many. -/
def acceptedAmong (ctx : Context) (q : Query) (bound : Value) (m : Machine) (attempts : ℤ) :
    Set ℕ :=
  {k | 1 ≤ k ∧ k ≤ attempts ∧ ∃ t, attempt? ctx q m k = some t ∧ t.beats bound = .ok true}

/-- Every attempt that is made returns, with a score that the bound can be subtracted from.  An
attempt is made if none before it is accepted. -/
def Returns (ctx : Context) (q : Query) (bound : Value) (m : Machine) (attempts : ℤ) : Prop :=
  ∀ k : ℕ, 1 ≤ k → k ≤ attempts → (∀ j < k, j ∉ acceptedAmong ctx q bound m attempts) →
    ∃ t, attempt? ctx q m k = some t ∧ ∃ d, t.execution.score.subtract bound = .ok d

variable {ctx : Context} {q : Query} {bound : Value} {m m' : Machine} {t : Trial} {k n : ℕ}

/-- The attempts after the first are those from the state that it left. -/
theorem attempt?_succ (ht : trial? ctx q m = some t) (hk : 1 ≤ k) :
    attempt? ctx q m (k + 1) = attempt? ctx q t.after k := by
  induction k, hk using Nat.le_induction with
  | base =>
    show (trial? ctx q m).bind _ = _
    rw [ht]
    rfl
  | succ k hk ih =>
    obtain ⟨j, rfl⟩ := Nat.exists_eq_add_of_le' hk
    rw [attempt?, ih, attempt?]

theorem mem_acceptedAmong_succ (ht : trial? ctx q m = some t) (hb : t.beats bound = .ok false) :
    k ∈ acceptedAmong ctx q bound m (n + 1) ↔
      ∃ j ∈ acceptedAmong ctx q bound t.after n, k = j + 1 := by
  constructor
  · rintro ⟨hpos, hle, t', ht', hb'⟩
    obtain ⟨j, rfl⟩ := Nat.exists_eq_add_of_le' hpos
    by_cases hj : 1 ≤ j
    · rw [attempt?_succ ht hj] at ht'
      exact ⟨j, ⟨hj, by push_cast at hle; omega, t', ht', hb'⟩, rfl⟩
    · obtain rfl : j = 0 := by omega
      cases ht.symm.trans ht'
      cases hb.symm.trans hb'
  · rintro ⟨j, ⟨hpos, hle, t', ht', hb'⟩, rfl⟩
    exact ⟨by omega, by push_cast; omega, t', (attempt?_succ ht hpos).trans ht', hb'⟩

theorem Returns.after (h : Returns ctx q bound m (n + 1)) (ht : trial? ctx q m = some t)
    (hb : t.beats bound = .ok false) : Returns ctx q bound t.after n := by
  intro k hpos hle hbefore
  rw [← attempt?_succ ht hpos]
  refine h (k + 1) (by omega) (by push_cast; omega) fun j hj hmem => ?_
  obtain ⟨i, hi, rfl⟩ := (mem_acceptedAmong_succ ht hb).mp hmem
  exact hbefore i (by omega) hi

theorem acceptedAmong_toNat (ctx : Context) (q : Query) (bound : Value) (m : Machine)
    (attempts : ℤ) :
    acceptedAmong ctx q bound m attempts.toNat = acceptedAmong ctx q bound m attempts := by
  ext k
  constructor
  · rintro ⟨hpos, hle, h⟩
    exact ⟨hpos, by omega, h⟩
  · rintro ⟨hpos, hle, h⟩
    exact ⟨hpos, by omega, h⟩

theorem Returns.toNat {attempts : ℤ} (h : Returns ctx q bound m attempts) :
    Returns ctx q bound m attempts.toNat := by
  intro k hpos hle hbefore
  rw [acceptedAmong_toNat] at hbefore
  exact h k hpos (by omega) hbefore

end Inference
end ProbTrace
