import ProbTrace.Proofs.Recording

/-!
# An output is a faithful record

A run that stays under its overlays writes to no address of its output twice.  When it returns,
its output holds the value of every call at the address of the call, and the value of every
definition at the address of its right-hand side unless the value is a tag.  It holds nothing
else.
-/

namespace ProbTrace

namespace Watched

variable {α : Type} {f : Value → Watched α} {m : Machine}

theorem events_recording :
    (recording f).events m = (f (.trace m.store.next)).events m.withOutput := by
  show (f (.trace m.store.next) >>= fun r => pure (m.store.next, r)).events m.withOutput = _
  rw [events_bind]
  cases (f (.trace m.store.next)).run m.withOutput <;> exact List.append_nil _

theorem stays_recording :
    (recording f).Stays m ↔ (f (.trace m.store.next)).Stays m.withOutput := by
  unfold Stays
  rw [events_recording]

theorem run_recording : (recording f).run m =
    match (f (.trace m.store.next)).run m.withOutput with
    | .ok r m' => .ok (m.store.next, r) m'
    | .error h m' => .error h m' := by
  show (f (.trace m.store.next) >>= fun r => pure (m.store.next, r)).run m.withOutput = _
  rw [run_bind_apply]
  rfl

/-- A run with a new output that returns. -/
theorem recording_ok {output : Trace} {r : α} {m' : Machine}
    (h : (recording f).run m = .ok (output, r) m') :
    output = m.store.next ∧ (f (.trace m.store.next)).run m.withOutput = .ok r m' := by
  rw [run_recording] at h
  split at h
  · rename_i hrun
    cases h
    exact ⟨rfl, hrun⟩
  · cases h

theorem leaves_recording :
    (recording f).run.leaves m = (f (.trace m.store.next)).run.leaves m.withOutput := by
  simp only [Run.leaves, run_recording]
  cases (f (.trace m.store.next)).run m.withOutput <;> rfl

/-- A run whose output is a faithful record. -/
structure Faithful (x : Watched (Trace × α)) (m : Machine) : Prop where
  /-- No address is written to twice. -/
  once : (writes (x.events m)).Nodup
  /-- However the run ends, what was written is there. -/
  written : ∀ a v, (x.run.leaves m).store.valueAt? m.store.next a = some v ↔
    ⟨a, .recorded v⟩ ∈ x.events m
  /-- Every call that was made has returned. -/
  answered : ∀ {output r m'}, x.run m = .ok (output, r) m' → ∀ a, ⟨a, .called⟩ ∈ x.events m →
    ∃ proc inputs v, ⟨a, .returned proc inputs v⟩ ∈ x.events m
  /-- What calls returned and what definitions bound is there, and nothing else. -/
  holds : ∀ {output r m'}, x.run m = .ok (output, r) m' → ∀ a v,
    m'.store.valueAt? output a = some v ↔
      (∃ proc inputs, ⟨a, .returned proc inputs v⟩ ∈ x.events m) ∨
        ⟨a, .defined v⟩ ∈ x.events m ∧ v.isTagAddress = false

end Watched

namespace Recording

variable {m : Machine} {target : Option Trace} {α : Type} {f : Value → Watched α}

theorem Told.faithful {K : Address → Deed → Prop} {R : α → List Event → Prop}
    (h : Told m target (f (.trace m.store.next))) (hlogs : (f (.trace m.store.next)).Logs K R)
    (hR : ∀ {r es}, R r es → Balanced es) : (Watched.recording f).Faithful m where
  once := by
    rw [Watched.events_recording]
    exact nodup_writes (h.logs hlogs).1
  written a v := by
    rw [Watched.events_recording, Watched.leaves_recording]
    exact h.valueAt?_iff hlogs
  answered hrun a ha := by
    rw [Watched.events_recording] at ha ⊢
    exact hR ((h.logs hlogs).2 (Watched.recording_ok hrun).2) _ ha
  holds hrun a v := by
    obtain ⟨rfl, hreturns⟩ := Watched.recording_ok hrun
    rw [Watched.events_recording, ← (hR ((h.logs hlogs).2 hreturns)).recorded_iff,
      ← h.valueAt?_iff hlogs]
    simp only [Run.leaves, hreturns]

/-- The output of an evaluation or of a call is a faithful record, and a call leaves its value
at the root. -/
theorem output_faithful {ctx : Context} (htop : ctx.topLevel = .standard) {m : Machine}
    {intervene target : Option Trace}
    (hread : ∀ t, t ∈ intervene ∨ t ∈ target → m.Plain (.trace t)) :
    (∀ exp, Expression.Built exp →
      (Watched.recording (Watched.eval ctx (.trace exp) .top intervene target)).Stays m →
      (Watched.recording (Watched.eval ctx (.trace exp) .top intervene target)).Faithful m) ∧
    ∀ proc inputs, m.Authored (.value proc) → m.Authored (.value inputs) →
      (Watched.recording (Watched.apply ctx proc inputs intervene target)).Stays m →
      (Watched.recording (Watched.apply ctx proc inputs intervene target)).Faithful m ∧
        ∀ {output v score m'}, (Watched.recording (Watched.apply ctx proc inputs intervene
          target)).run m = .ok (output, v, score) m' → m'.store.valueAt? output [] = some v := by
  constructor
  · intro exp hexp hstays
    rw [Watched.stays_recording] at hstays
    have hlogs := Watched.logs_eval ctx (.trace exp) .top intervene target m.store.next
    exact (eval_told htop hread hexp hstays).faithful
      (f := Watched.eval ctx (.trace exp) .top intervene target) hlogs id
  · intro proc inputs hproc hinputs hstays
    rw [Watched.stays_recording] at hstays
    have htold := apply_told htop hread hproc hinputs hstays
    have hlogs := Watched.logs_apply ctx proc inputs intervene target m.store.next
    have hfaithful := htold.faithful (f := Watched.apply ctx proc inputs intervene target) hlogs
      And.left
    refine ⟨hfaithful, fun hrun => ?_⟩
    obtain ⟨-, items, -, hreturned⟩ := (htold.logs hlogs).2 (Watched.recording_ok hrun).2
    refine (hfaithful.holds hrun _ _).mpr (.inl ⟨proc, items, ?_⟩)
    rw [Watched.events_recording]
    exact hreturned

/-- Two coins, thrown by a call of `map`. -/
def twoCoins : Trace :=
  Expression.application [Expression.reference "map", Expression.reference "flip",
    Expression.application [Expression.reference "tuple", Expression.literal (.int 0),
      Expression.literal (.int 1)]]

/-- A procedure that throws the two coins. -/
def coinThrower : Value :=
  .closure 0 (Expression.gen (Expression.tuplePattern []) twoCoins none) .top .null

theorem coinThrower_authored : ({} : Machine).Authored (.value coinThrower) := by
  have hsource : (Expression.gen (Expression.tuplePattern []) twoCoins none) =
      (Term.gen (.tuple []) (.application (.reference "map") [.reference "flip",
        .application (.reference "tuple") [.literal (.int 0) rfl, .literal (.int 1) rfl]])
        none).toTrace := rfl
  refine .intro ⟨_, _, _, hsource⟩ fun y hy => ?_
  cases hy with
  | item h => cases h
  | source => exact Machine.Authored.ofData rfl
  | scope => exact .intro trivial nofun
  | name => exact Machine.Authored.ofData rfl

/-- Whether a deed is to go on under the overlays of a tag. -/
def isRelocation : Deed → Bool
  | .relocated => true
  | _ => false

theorem stays_of_all {α : Type} {x : Watched α} {m : Machine}
    (h : ((x.events m).all fun e => !isRelocation e.deed) = true) : x.Stays m := by
  intro a ha
  have hfalse := List.all_eq_true.mp h _ ha
  cases hfalse

theorem twoCoins_faithful : Expression.Built twoCoins ∧
    (Watched.recording (Watched.eval .halves (.trace twoCoins) .top none none)).Faithful {} ∧
    (Watched.recording (Watched.apply .halves coinThrower (.list []) none none)).Faithful {} := by
  have hbuilt : Expression.Built twoCoins :=
    ⟨.list [.symbol "map", .symbol "flip", .list [.symbol "tuple", .int 0, .int 1]], _, 0,
      rfl, rfl, rfl⟩
  have hread : ∀ t, t ∈ none ∨ t ∈ none → ({} : Machine).Plain (.trace t) := by
    rintro t (ht | ht) <;> cases ht
  have hfaithful := output_faithful (show Context.halves.topLevel = .standard from rfl) hread
  have hinputs : ({} : Machine).Authored (.value (.list [])) :=
    .intro trivial fun y hy => by
      cases hy with
      | item h hu =>
        cases h
        cases hu
  refine ⟨hbuilt, hfaithful.1 _ hbuilt ?_, (hfaithful.2 _ _ coinThrower_authored hinputs ?_).1⟩
  · exact stays_of_all (by decide +kernel)
  · exact stays_of_all (by decide +kernel)

end Recording
end ProbTrace
