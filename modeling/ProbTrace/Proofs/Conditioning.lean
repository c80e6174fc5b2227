import ProbTrace.Proofs.Authorship
import ProbTrace.Proofs.Fidelity

/-!
# Observed values are given

A call that finds an observed value at its address gives that value, whatever it computes
itself, and its trace holds it.  Calls of `map` are the exception: they give the values of
their items in one sequence.  A call of `apply` is a call of the procedure that it is given.
-/

namespace ProbTrace

/-- A call is a call of `map`, passed on by calls of `apply` perhaps. -/
inductive CallsMap : Value → List Value → Prop
  | map (inputs : List Value) : CallsMap (.special .map) inputs
  | apply {proc args : Value} {items : List Value} :
      args.items? = some items → CallsMap proc items → CallsMap (.special .apply) [proc, args]

/-- The items of a value are not much larger than the value. -/
theorem Value.sizeOf_items {v : Value} {vs : List Value} (h : v.items? = some vs) :
    sizeOf vs ≤ sizeOf v + 2 := by
  cases v with
  | list _ | tuple _ | quoted _ | brackets _ =>
    cases h
    simp only [Value.list.sizeOf_spec, Value.tuple.sizeOf_spec, Value.quoted.sizeOf_spec,
      Value.brackets.sizeOf_spec, List.cons.sizeOf_spec, List.nil.sizeOf_spec]
    omega
  | _ => cases h

/-- In a balanced log a call gives what was observed, if all calls but those of `apply` and
`map` do. -/
theorem Balanced.observed {s : Store} {target : Option Trace} {es : List Event} (h : Balanced es)
    (hhonours : ∀ e ∈ es, e.Honours s target) {a : Address} {u : Value}
    (hu : target.bind (s.valueAt? · a) = some u) {proc v : Value} {inputs : List Value}
    (hcall : ⟨a, .returned proc inputs v⟩ ∈ es) (hmap : ¬ CallsMap proc inputs) : v = u := by
  rcases hhonours _ hcall with rfl | rfl | hobserved
  · -- The call was passed on, with inputs that are smaller.
    obtain ⟨f, args, items, hinputs, hitems, hpassed⟩ := (h _ hcall).2 rfl
    have hsmaller : sizeOf items < sizeOf inputs := by
      have hsize := Value.sizeOf_items hitems
      rw [hinputs]
      simp only [List.cons.sizeOf_spec, List.nil.sizeOf_spec]
      omega
    refine h.observed hhonours hu hpassed fun hmaps => hmap ?_
    rw [hinputs]
    exact .apply hitems hmaps
  · exact (hmap (.map inputs)).elim
  · exact hobserved u hu
termination_by sizeOf inputs

namespace Watched

variable {ctx : Context} {proc inputs : Value} {observed forced : Option Trace} {m m' : Machine}

theorem events_infer : (infer ctx proc inputs observed forced).events m =
    (recording (apply ctx proc inputs forced observed)).events m := by
  have hquiet (r : Trace × Value × Value) (n : Machine) : (do
      watch (Run.compose [proc, r.2.1, r.2.2])
      let total ← watch (Run.enroll r.2.2)
      return { value := r.2.1, trace := r.1, score := total } :
        Watched Evaluator.Execution).events n = [] := by
    rw [events_bind]
    cases (watch (Run.compose [proc, r.2.1, r.2.2])).run n <;> rfl
  unfold infer
  rw [events_bind]
  cases (recording (apply ctx proc inputs forced observed)).run m with
  | ok r n => exact (congrArg (_ ++ ·) (hquiet r n)).trans (List.append_nil _)
  | error _ _ => exact List.append_nil _

/-- A run from the start that returns, before its score becomes a value of the run. -/
theorem infer_ok {result : Evaluator.Execution}
    (h : Evaluator.infer ctx proc inputs observed forced m = .ok result m') :
    ∃ v score n, (recording (apply ctx proc inputs forced observed)).run m =
      .ok (result.trace, v, score) n ∧ m'.store = n.store := by
  rw [← run_infer, infer, run_bind_apply] at h
  split at h
  · rename_i r n hrun
    rw [run_bind_apply, run_watch] at h
    rcases Run.compose_cases [proc, r.2.1, r.2.2] n with hshown | hshown
    · rw [hshown] at h
      cases h
      exact ⟨r.2.1, r.2.2, n, hrun, rfl⟩
    · rw [hshown] at h
      cases h
  · cases h

end Watched

namespace Recording

/-- A call at which a value was observed gives that value in every run, and the trace of the
run holds it there. -/
theorem infer_observed {ctx : Context} (htop : ctx.topLevel = .standard) {m₀ m m' : Machine}
    {exp : Trace} (hexp : Expression.Built exp) {proc : Value} {score : Float}
    (hproc : Evaluator.eval ctx (.trace exp) .top none none .null m₀ = .ok (proc, score) m)
    {inputs : Value} (hinputs : m.Authored (.value inputs)) {observed forced : Option Trace}
    (hread : ∀ t, t ∈ forced ∨ t ∈ observed → m.Plain (.trace t)) {result : Evaluator.Execution}
    (hrun : Evaluator.infer ctx proc inputs observed forced m = .ok result m')
    (hstays : (Watched.infer ctx proc inputs observed forced).Stays m) {a : Address} {u : Value}
    (hu : observed.bind (m.store.valueAt? · a) = some u) {callee v : Value} {args : List Value}
    (hcall : ⟨a, .returned callee args v⟩ ∈
      (Watched.infer ctx proc inputs observed forced).events m)
    (hmap : ¬ CallsMap callee args) :
    v = u ∧ m'.store.valueAt? result.trace a = some u := by
  have hauthored := Authorship.eval_authored htop hexp hproc
  obtain ⟨value, total, n, hreturns, hstore⟩ := Watched.infer_ok hrun
  have hstays' : (Watched.recording (Watched.apply ctx proc inputs forced observed)).Stays m := by
    unfold Watched.Stays
    rw [← Watched.events_infer]
    exact hstays
  rw [Watched.events_infer] at hcall
  have htold := apply_told htop hread hauthored hinputs (Watched.stays_recording.mp hstays')
  have hlogs := Watched.logs_apply ctx proc inputs forced observed m.store.next
  have hfaithful := htold.faithful (f := Watched.apply ctx proc inputs forced observed) hlogs
    And.left
  have hbalanced := ((htold.logs hlogs).2 (Watched.recording_ok hreturns).2).1
  have hcall' := hcall
  rw [Watched.events_recording] at hcall'
  obtain rfl := hbalanced.observed (fun e he => (htold.proper e he).honours) hu hcall' hmap
  refine ⟨rfl, ?_⟩
  rw [hstore]
  exact (hfaithful.holds hreturns a v).mpr (.inl ⟨callee, args, hcall⟩)

/-- A procedure that throws a coin. -/
def tossed : Trace :=
  Expression.gen (Expression.tuplePattern [Expression.reference "p"])
    (Expression.application [Expression.reference "flip", Expression.reference "p"]) none

/-- The coin was seen to show heads. -/
def seenHeads : Trace :=
  .tree none [(.name "flip", .leaf (.bool true))]

/-- Whether a coin was thrown, right below the root. -/
def isToss : Event → Bool
  | ⟨[.name "flip"], .returned (.special (.random .flip)) _ _⟩ => true
  | _ => false

theorem exists_of_isToss {e : Event} (h : isToss e = true) :
    ∃ inputs v, e = ⟨[.name "flip"], .returned (.special (.random .flip)) inputs v⟩ := by
  unfold isToss at h
  split at h
  · exact ⟨_, _, rfl⟩
  · cases h

/-- A coin that never shows heads was seen to show heads, and so it does. -/
theorem tossed_observed : ∃ proc m result m' inputs v,
    Evaluator.eval .halves (.trace tossed) .top none none .null {} = .ok (proc, 0.0) m ∧
    Evaluator.infer .halves proc (.list [.int 0]) (some seenHeads) none m = .ok result m' ∧
    ⟨[.name "flip"], .returned (.special (.random .flip)) inputs v⟩ ∈
      (Watched.infer .halves proc (.list [.int 0]) (some seenHeads) none).events m ∧
    v = .bool true ∧ m'.store.valueAt? result.trace [.name "flip"] = some (.bool true) := by
  let proc : Value := .closure 0 tossed .top .null
  let m : Machine := { serials := 1 }
  have hbuilt : Expression.Built tossed :=
    ⟨.list [.symbol "gen", .list [.symbol "p"], .list [.symbol "flip", .symbol "p"]], _, 0,
      rfl, rfl, rfl⟩
  have hproc : Evaluator.eval .halves (.trace tossed) .top none none .null {} =
      .ok (proc, 0.0) m := rfl
  obtain ⟨result, m', hrun⟩ := exists_of_returns (x := Evaluator.infer .halves proc (.list [.int 0])
    (some seenHeads) none m) (by decide +kernel)
  obtain ⟨e, he, htoss⟩ := List.any_eq_true.mp (show ((Watched.infer .halves proc (.list [.int 0])
    (some seenHeads) none).events m).any isToss = true by decide +kernel)
  obtain ⟨inputs, v, rfl⟩ := exists_of_isToss htoss
  have hread : ∀ t, t ∈ none ∨ t ∈ some seenHeads → m.Plain (.trace t) := by
    rintro t (ht | ht)
    · cases ht
    · cases ht
      exact .ofData rfl
  have hgiven := infer_observed rfl hbuilt hproc (.ofData rfl) hread hrun
    (stays_of_all (by decide +kernel)) (u := .bool true) rfl he nofun
  exact ⟨proc, m, result, m', inputs, v, hproc, hrun, he, hgiven⟩

end Recording
end ProbTrace
