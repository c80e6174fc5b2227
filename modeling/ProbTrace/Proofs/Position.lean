import ProbTrace.Proofs.Programmed
import ProbTrace.Proofs.ReadOnly
import ProbTrace.Proofs.Rebinding

/-!
# Evaluation does not depend on its position

Walking an expression at an address and evaluating it from the root of the overlays below that
address go the same way: the same value and score or the same fault, the same random numbers,
and the same values at the same addresses of the output.  A walk composes a text that shows its
address where it applies a procedure or takes a branch, so this holds of the addresses that have a
text.

The second run reaches the node of its output before it starts, the first one when it makes
its first call or records its first definition.  Before that the runs differ in the nodes that
the second one has added, which hold no values.  From then on their machines are the same.
Overlays are captured in calls only, so before the first call there is no tag under whose
overlays an expression could be evaluated.
-/

namespace ProbTrace

/-- The output as it is given to an evaluation. -/
def Overlays.outputValue (o : Overlays Trace) : Value :=
  o.output.elim .null .trace

/-- Machines that differ in nodes without values only. -/
structure Machine.SameValues (m n : Machine) : Prop where
  rest : m = { n with store := m.store }
  values : ∀ t a, m.store.valueAt? t a = n.store.valueAt? t a

/-- Evaluations that end with the same result or the same fault, and leave the same values. -/
inductive EndsSame {α : Type} :
    EStateM.Result Halt Machine α → EStateM.Result Halt Machine α → Prop
  | returned {a : α} {m n : Machine} : m.SameValues n → EndsSame (.ok a m) (.ok a n)
  | failed {h : Halt} {m n : Machine} : m.SameValues n → EndsSame (.error h m) (.error h n)

namespace Position

open ReadOnly (Known Fits likeness Confined KeptStore Kept After)

section Setting

variable (m : Machine) (A : Address) (o p : Overlays Trace) (base : Store)

/-- Overlays and those below an address of them, with the store in which the node of the
output is there. -/
structure Moved : Prop where
  legible : A.hasText = true
  separate : m.Separate o.intervene o.target o.outputValue
  intervene : p.intervene = o.intervene.bind (m.store.find? · A)
  target : p.target = o.target.bind (m.store.find? · A)
  absent : o.output = none → p.output = none
  output : ∀ {t}, o.output = some t →
    ∃ u, p.output = some u ∧ t.reach A m.store = .ok u base ∧ base.find? t A = some u
  fits : Fits m o.outputValue p
  kept : KeptStore m o.outputValue base base

/-- The stores of two runs, before the first run has reached its output and after. -/
def Stores (s s' : Store) : Prop :=
  o.output ≠ none ∧ s = m.store ∧ s' = base ∨ s = s' ∧ KeptStore m o.outputValue base s'

/-- The first run has not reached its output yet, and there are no tags. -/
structure Early (w : Pair) : Prop where
  output : o.output ≠ none
  first : w.first = { w.second with store := m.store }
  store : w.second.store = base
  text : ∀ v, base.hasText v = m.store.hasText v
  frames : m.frames.size ≤ w.second.frames.size
  bindings : ∀ {i j}, m.Admits m.Sound i j →
    FrameAlike (likeness m o.outputValue).untagged (w.second.bindings i) (w.second.bindings j)

/-- Both runs are on one machine. -/
structure Late (w : Pair) : Prop where
  same : w.first = w.second
  kept : Kept m o.outputValue base w.second

/-- A value that may be met, not a tag as long as there are none. -/
def Fit (w : Pair) (v : Value) : Prop :=
  Early m o base w ∧ Value.Alike (likeness m o.outputValue).untagged v v ∨
    Late m o base w ∧ Value.Alike (likeness m o.outputValue) v v

/-- A run at an address beside a run below the address. -/
def simulation : Simulation where
  like := likeness m o.outputValue
  related w := Early m o base w ∨ Late m o base w
  advance w _ w' := Late m o base w → Late m o base w'
  site _ _ _ _ := True
  code _ _ _ _ := True
  parts _ _ _ _ := True
  entered _ _ _ _ := True
  binding _ _ _ _ := True
  walked _ := Eq
  assumed _ := True
  lenient := False
  halted _ _ w h k := h = k ∧
    (w.first = w.second ∨ w.first = { w.second with store := m.store } ∧ w.second.store = base)

end Setting

variable {m : Machine} {A B : Address} {o p : Overlays Trace} {base : Store} {w : Pair}
variable {v : Value} {c : Scope} {a : Address}

theorem untagged_eq {O v v' : Value} (h : Value.Alike (likeness m O).untagged v v') : v = v' :=
  ReadOnly.alike_eq h.ofUntagged

theorem untagged_covers {O : Value} : m.Covers m.Sound (likeness m O).untagged :=
  { ReadOnly.covers (O := O) with tag := fun _ _ h => h.not_tag }

theorem Fit.alike (h : Fit m o base w v) : Value.Alike (likeness m o.outputValue) v v := by
  rcases h with ⟨-, hv⟩ | ⟨-, hv⟩
  · exact hv.ofUntagged
  · exact hv

/-- What may be met may be met later. -/
theorem Fit.later {w' : Pair} (hlater : (simulation m o base).Later w w')
    (hw' : (simulation m o base).related w') (h : Fit m o base w v) : Fit m o base w' v := by
  obtain ⟨es, hlater⟩ := hlater
  rcases h with ⟨hearly, hv⟩ | ⟨hlate, hv⟩
  · rcases hw' with hw' | hw'
    · exact .inl ⟨hw', hv⟩
    · exact .inr ⟨hw', hv.ofUntagged⟩
  · exact .inr ⟨hlater hlate, hv⟩

/-- A value without tags may be met at any time. -/
theorem Fit.ofUntagged (hw : (simulation m o base).related w)
    (hv : Value.Alike (likeness m o.outputValue).untagged v v) : Fit m o base w v := by
  rcases hw with hw | hw
  · exact .inl ⟨hw, hv⟩
  · exact .inr ⟨hw, hv.ofUntagged⟩

theorem Fit.ofSound (hw : (simulation m o base).related w) (hv : m.Sound (.value v)) :
    Fit m o base w v :=
  .ofUntagged hw (untagged_covers.alike v hv)

theorem basic : (simulation m o base).Basic where
  advance_refl _ := id
  advance_append h h' := h' ∘ h
  site_later _ h := h
  halted_append _ h := h
  fault hw hf := by
    refine ⟨congrArg Halt.fault (hf.eq ReadOnly.alike_eq), ?_⟩
    rcases hw with hw | hw
    · exact .inr ⟨hw.first, hw.store⟩
    · exact .inl hw.same
  tooDeep hw := by
    refine ⟨rfl, ?_⟩
    rcases hw with hw | hw
    · exact .inr ⟨hw.first, hw.store⟩
    · exact .inl hw.same
  text {w v v'} hw hv := by
    obtain rfl : v = v' := ReadOnly.alike_eq hv
    rcases hw with hw | hw
    · rw [hw.first, hw.store]
      exact (hw.text v).symm
    · rw [hw.same]

/-! ## Steps on one machine -/

/-- On one machine a computation that keeps what is known has one result. -/
theorem Late.runs {α : Type} {x : Watched α} {P : Pair → α → α → Prop} (hw : Late m o base w)
    (h : (ReadOnly.simulation m o.outputValue base).Runs B w x x P) :
    (simulation m o base).Runs B w x x fun w' r q => r = q ∧ Late m o base w' ∧ P w' r q := by
  obtain ⟨n, n'⟩ := w
  obtain ⟨rfl, hkept⟩ : n = n' ∧ _ := ⟨hw.same, hw.kept⟩
  intro _ _
  have hends := h ⟨⟨⟨rfl, rfl, rfl⟩, rfl, rfl⟩, hkept⟩ fun _ _ => trivial
  revert hends
  dsimp only
  cases x.run n with
  | ok r n' =>
    rintro ⟨-, hrelated, hr⟩
    have hlate : Late m o base ⟨n', n'⟩ := ⟨rfl, hrelated.2⟩
    exact ⟨fun _ => hlate, .inr hlate, rfl, hlate, hr⟩
  | error f n' => exact fun _ => .inr ⟨rfl, .inl rfl⟩

theorem runs_of_phases {α β : Type} {x : Watched α} {y : Watched β} {P : Pair → α → β → Prop}
    (hearly : ¬ Late m o base w → Early m o base w → (simulation m o base).Runs B w x y P)
    (hlate : Late m o base w → (simulation m o base).Runs B w x y P) :
    (simulation m o base).Runs B w x y P := by
  intro hw
  by_cases h : Late m o base w
  · exact hlate h hw
  · exact hearly h (hw.resolve_right h) hw

/-- A step of both runs that leaves the stores as they are, before the first call. -/
theorem Early.step {n n' : Machine} (hearly : Early m o base w)
    (hfirst : n = { n' with store := m.store }) (hstore : n'.store = w.second.store)
    (hframes : w.second.frames.size ≤ n'.frames.size)
    (hbindings : ∀ {i j}, m.Admits m.Sound i j →
      FrameAlike (likeness m o.outputValue).untagged (n'.bindings i) (n'.bindings j)) :
    Early m o base ⟨n, n'⟩ where
  output := hearly.output
  first := hfirst
  store := hstore.trans hearly.store
  text := hearly.text
  frames := Nat.le_trans hearly.frames hframes
  bindings := hbindings

theorem rate_runs (score : Float) :
    (simulation m o base).Runs B w (.rate score) (.rate score) fun _ => Eq := by
  refine basic.bind (Simulation.Runs.note fun _ _ => id) ?_
  rintro w₁ - - - -
  exact basic.pure rfl

theorem known_toTrace (e : Term) : Known m e.toTrace :=
  .inl (.ofData e.isData_toTrace)

/-- Machines after names were bound in one frame of each, before the first call. -/
theorem Early.rebinds {names : List String} {n n' : Machine} (hw : Early m o base w)
    (h : Simulation.Rebinds (likeness m o.outputValue).untagged w c c names ⟨n, n'⟩) :
    Early m o base ⟨n, n'⟩ := by
  have hsame (i : FrameId) : n.bindings i = n'.bindings i := by
    by_cases hi : c.innermost? = some i
    · exact (h.alike hi hi).eq untagged_eq
    · rw [h.first.others hi, h.second.others hi, hw.first]
      rfl
  have hframes : n.frames = n'.frames := by
    refine Machine.frames_eq ?_ hsame
    rw [h.first.size, h.second.size, hw.first]
  refine hw.step ?_ h.second.store (Nat.le_of_eq h.second.size.symm) fun {i j} hij => ?_
  · have hn : n = { w.first with frames := n.frames } := h.first.rest
    have hn' : n' = { w.second with frames := n'.frames } := h.second.rest
    rw [hn, hframes, hn', hw.first]
  · obtain rfl : i = j := hij.1
    by_cases hi : c.innermost? = some i
    · have halike := h.alike hi hi
      rw [hsame] at halike
      exact halike
    · rw [h.second.others hi]
      exact hw.bindings hij

/-! ## Reading code -/

variable {ctx : Context} (htop : ctx.topLevel = .standard)

/-- Frames that may be met bind the same on both sides. -/
theorem find_fit (htop : ctx.topLevel = .standard) (name : String)
    (hw : (simulation m o base).related w) (hc : ScopesAlike (m.Admits m.Sound) c c) :
    Agree (likeness m o.outputValue) (fun v v' => v = v' ∧ Fit m o base w v)
      (c.find ctx.topLevel w.first (.text name)) (c.find ctx.topLevel w.second (.text name)) := by
  rw [htop]
  rcases hw with hw | hw
  · have hagree := Scope.find_agree (L := (likeness m o.outputValue).untagged) (m := w.first)
      (n := w.second) (fun {i j} hij => by rw [hw.first]; exact hw.bindings hij)
      (TopLevel.resolve_standard_agree (fun _ _ => trivial) (.text name)) hc
    revert hagree
    generalize c.find .standard w.first (.text name) = x
    generalize c.find .standard w.second (.text name) = y
    intro hagree
    cases hagree with
    | error hf => exact .error (hf.mono .ofUntagged)
    | ok hv =>
      cases untagged_eq hv
      exact .ok ⟨rfl, .inl ⟨hw, hv⟩⟩
  · have hagree := Scope.find_agree (L := likeness m o.outputValue) (m := w.second)
      (n := w.second) hw.kept.bindings
      (TopLevel.resolve_standard_agree (fun _ _ => trivial) (.text name)) hc
    rw [hw.same]
    refine hagree.mono fun v v' hv => ?_
    obtain rfl : v = v' := ReadOnly.alike_eq hv
    exact ⟨rfl, .inr ⟨hw, hv⟩⟩

include htop

theorem reference_runs (name : String) (hc : ScopesAlike (m.Admits m.Sound) c c) :
    (simulation m o base).Runs B w
      (.watch (Evaluator.walkReference ctx (Term.reference name).toTrace c))
      (.watch (Evaluator.walkReference ctx (Term.reference name).toTrace c))
      fun w' r q => r = q ∧ Fit m o base w' r.1 := by
  refine Simulation.Runs.withStore fun _ => basic.bindRun
    (P := fun _ x y => x = .text name ∧ y = .text name)
    (basic.returns (fun _ => rfl) (fun _ => rfl) ⟨rfl, rfl⟩) ?_
  rintro w₁ _ _ - ⟨rfl, rfl⟩
  refine basic.bindRun (P := fun w' x y => x = y ∧ Fit m o base w' x) ?_ ?_
  · refine Simulation.Runs.withMachine fun hw =>
      (basic.ofExcept (find_fit htop name hw hc)).imp ?_
    rintro w₂ x y hl hw₂ ⟨hxy, hx⟩
    exact ⟨hxy, hx.later hl hw₂⟩
  · rintro w₂ x _ - ⟨rfl, hx⟩
    exact basic.pureRun ⟨rfl, hx⟩

theorem gen_runs (pattern : Shape) (body : Term) (name : Option String)
    (hc : ScopesAlike (m.Admits m.Sound) c c) :
    (simulation m o base).Runs B w
      (.watch (Evaluator.walkGen (Term.gen pattern body name).toTrace c))
      (.watch (Evaluator.walkGen (Term.gen pattern body name).toTrace c))
      fun w' r q => r = q ∧ Fit m o base w' r.1 := by
  have hknown := known_toTrace (m := m) (Term.gen pattern body name)
  refine runs_of_phases (fun hnot hw => ?_) fun hw => ?_
  · intro _ _
    have hrun (n : Machine) : Evaluator.walkGen (Term.gen pattern body name).toTrace c n =
        .ok (.closure n.serials (Term.gen pattern body name).toTrace c
          ((name.map Value.text).getD .null), 0.0) { n with serials := n.serials + 1 } := by
      cases name <;> rfl
    have hserials : w.first.serials = w.second.serials := by rw [hw.first]
    rw [Watched.run_watch, hrun, hrun, hserials]
    have hearly : Early m o base ⟨{ w.first with serials := w.second.serials + 1 },
        { w.second with serials := w.second.serials + 1 }⟩ :=
      hw.step (by rw [hw.first]) rfl (Nat.le_refl _) hw.bindings
    exact ⟨fun h => absurd h hnot, .inl hearly, rfl, .inl ⟨hearly, .closure ⟨rfl, hknown, hc⟩⟩⟩
  · refine (hw.runs ((ReadOnly.lawful htop).gen ⟨hknown, hc⟩ ⟨{}, Term.kindOf_toTrace _ _⟩)).mono ?_
    rintro w' r _ - ⟨rfl, hlate, hr, -⟩
    exact ⟨rfl, .inr ⟨hlate, hr⟩⟩

omit htop in
theorem openFrame_runs (e : Trace) (hc : ScopesAlike (m.Admits m.Sound) c c) :
    (simulation m o base).Runs B w (.openFrame e c) (.openFrame e c)
      fun _ c' d' => c' = d' ∧ ScopesAlike (m.Admits m.Sound) c' c' := by
  refine runs_of_phases (fun hnot hw => ?_) fun hw => ?_
  · refine basic.bind (P := fun _ c' d' => c' = d' ∧ ScopesAlike (m.Admits m.Sound) c' c') ?_ ?_
    · intro _ _
      have hrun (n : Machine) : Run.newFrame c n =
          .ok (.frame n.frames.size c) { n with frames := n.frames.push .empty } := rfl
      have hframes : w.first.frames = w.second.frames := by rw [hw.first]
      rw [Watched.run_watch, hrun, hrun, hframes]
      have hearly : Early m o base ⟨{ w.first with frames := w.second.frames.push .empty },
          { w.second with frames := w.second.frames.push .empty }⟩ := by
        refine hw.step (by rw [hw.first]) rfl (by simp) fun hij => ?_
        rw [Machine.bindings_push, Machine.bindings_push]
        exact hw.bindings hij
      exact ⟨fun h => absurd h hnot, .inl hearly, rfl, .frame ⟨rfl, .inl hw.frames⟩ hc⟩
    · rintro w₁ c' _ - ⟨rfl, hc'⟩
      refine basic.bind (Simulation.Runs.note fun _ _ => id) ?_
      rintro w₂ - - - -
      exact basic.pure ⟨rfl, hc'⟩
  · refine (hw.runs (ReadOnly.openFrame_runs hc)).mono ?_
    rintro w' c' _ - ⟨rfl, -, hc'⟩
    exact ⟨rfl, hc'⟩

/-- Binding a pattern changes frames only, the same on both sides. -/
theorem bindPattern_runs (pattern : Shape) (hc : ScopesAlike (m.Admits m.Sound) c c)
    (hv : Fit m o base w v) :
    (simulation m o base).Runs B w (.bindPattern ctx c pattern.toTrace v)
      (.bindPattern ctx c pattern.toTrace v) fun _ _ _ => True := by
  refine runs_of_phases (fun hnot hw => ?_) fun hw => ?_
  -- As long as the first run has recorded nothing, only the frames change.
  · intro _ _
    have hv' : Value.Alike (likeness m o.outputValue).untagged v v :=
      hv.elim And.right fun hv => absurd hv.1 hnot
    have hframe {i j : FrameId} (hij : m.Admits m.Sound i j) :
        FrameAlike (likeness m o.outputValue).untagged (w.first.bindings i)
          (w.second.bindings j) := by
      rw [hw.first]
      exact hw.bindings hij
    have hsize {i j : FrameId} (hij : m.Admits m.Sound i j) :
        i < w.first.frames.size ↔ j < w.second.frames.size := by
      rw [hw.first, hij.1]
    obtain ⟨n, n', hrebinds, hends⟩ :=
      pattern.matchBind_cases ctx (fun hx => untagged_covers.alike _ (.ofData hx))
        (fun hx => basic.text (.inl hw) hx.ofUntagged) hc.innermost hframe hsize hv'
    have hearly := hw.rebinds hrebinds
    rw [Watched.run_bindPattern]
    rcases hends with ⟨hok, hok'⟩ | ⟨h, k, hhalts, herror, herror'⟩
    · rw [hok, hok']
      exact ⟨fun h => absurd h hnot, .inl hearly, trivial⟩
    · rw [herror, herror']
      exact .inr ⟨hhalts.eq untagged_eq, .inr ⟨hearly.first, hearly.store⟩⟩
  -- Later the two machines are one, and a run ends as itself.
  · have hknown : Known m pattern.toTrace := .inl (.ofData pattern.isData_toTrace)
    exact (hw.runs ((ReadOnly.lawful htop).bindPattern ⟨hknown, hc⟩ hv.alike)).mono
      fun _ _ _ _ _ => trivial

omit htop in
theorem literal_runs (x : Value) (hx : x.isData = true) :
    (simulation m o base).Runs B w (.watch (Evaluator.walkLiteral (Term.literal x hx).toTrace))
      (.watch (Evaluator.walkLiteral (Term.literal x hx).toTrace))
      fun w' r q => r = q ∧ Fit m o base w' r.1 := by
  refine (basic.returns (P := fun _ r q => r = q ∧ r = (x, 0.0)) (fun _ => rfl) (fun _ => rfl)
    ⟨rfl, rfl⟩).mono ?_
  rintro w' r _ hw' ⟨rfl, rfl⟩
  exact ⟨rfl, .ofSound hw' (.ofData hx)⟩

/-! ## Overlays -/

omit htop

section Overlays

variable {s s' : Store}

theorem stores_of_related (hw : (simulation m o base).related w) :
    Stores m o base w.first.store w.second.store := by
  rcases hw with hw | hw
  · rw [hw.first, hw.store]
    exact .inl ⟨hw.output, rfl, rfl⟩
  · rw [hw.same]
    exact .inr ⟨rfl, hw.kept.store⟩

theorem Stores.confined (h : Stores m o base s s') : Confined m o.outputValue s := by
  rcases h with ⟨-, rfl, -⟩ | ⟨rfl, hs⟩
  · exact .start
  · exact hs.toConfined

namespace Moved

variable (hmoved : Moved m A o p base)
include hmoved

theorem kept_of_stores (h : Stores m o base s s') : KeptStore m o.outputValue base s' := by
  rcases h with ⟨-, -, rfl⟩ | ⟨-, hs'⟩
  · exact hmoved.kept
  · exact hs'

/-- What is found below the moved overlays is found where they come from. -/
theorem find?_eq {t : Trace} (ht : t ∈ o.intervene ∨ t ∈ o.target) (h : Stores m o base s s')
    (b : Address) : (m.store.find? t A).bind (s'.find? · b) = s.find? t (A ++ b) := by
  have hun := ReadOnly.unchanged hmoved.separate h.confined ht
  have hun' := ReadOnly.unchanged hmoved.separate (hmoved.kept_of_stores h).toConfined ht
  rw [hun.find?_eq, ← hun'.find?_eq A, ← hun'.find?_eq, Store.find?_append]

/-- The value that is forced at an address. -/
theorem forced_eq (h : Stores m o base s s') (a : Address) :
    o.intervene.bind (s.valueAt? · (A ++ a)) = o.intervene.bind (m.store.valueAt? · (A ++ a)) ∧
      p.intervene.bind (s'.valueAt? · a) = o.intervene.bind (m.store.valueAt? · (A ++ a)) := by
  rw [hmoved.intervene]
  cases ho : o.intervene with
  | none => exact ⟨rfl, rfl⟩
  | some t =>
    have hun := ReadOnly.unchanged hmoved.separate h.confined (.inl ho)
    have hun' := ReadOnly.unchanged hmoved.separate (hmoved.kept_of_stores h).toConfined (.inl ho)
    refine ⟨hun.valueAt?_eq _, ?_⟩
    simp only [Option.bind_some]
    rw [← hun'.find?_eq A, ← hun'.valueAt?_eq]
    simp only [Store.valueAt?, Store.find?_append, Option.bind_assoc]

/-- Reaching an address below the moved output is reaching it below the output. -/
theorem reach_eq {t u : Trace} (ht : o.output = some t) (hu : p.output = some u)
    (h : Stores m o base s s') (b : Address) : t.reach (A ++ b) s = u.reach b s' := by
  obtain ⟨x, hx, hreach, hfind⟩ := hmoved.output ht
  cases hu.symm.trans hx
  rcases h with ⟨-, rfl, rfl⟩ | ⟨rfl, hs⟩
  · exact Trace.reach_append hreach b
  · exact Trace.reach_append (Trace.reach_of_find? (hs.found hfind)) b

theorem below_eq (h : Stores m o base s s') (b : Address) :
    o.below (A ++ b) s = p.below b s' := by
  have hread {overlay : Option Trace} (hoverlay : ∀ t ∈ overlay, t ∈ o.intervene ∨ t ∈ o.target) :
      overlay.bind (s.find? · (A ++ b)) =
        (overlay.bind (m.store.find? · A)).bind (s'.find? · b) := by
    cases overlay with
    | none => rfl
    | some t => exact (hmoved.find?_eq (hoverlay t rfl) h b).symm
  have hintervene : o.intervene.bind (s.find? · (A ++ b)) = p.intervene.bind (s'.find? · b) := by
    rw [hmoved.intervene]
    exact hread fun t => .inl
  have htarget : o.target.bind (s.find? · (A ++ b)) = p.target.bind (s'.find? · b) := by
    rw [hmoved.target]
    exact hread fun t => .inr
  cases ho : o.output with
  | none =>
    have hs : s = s' := h.elim (fun h => absurd ho h.1) And.left
    rw [Overlays.below_absent ho, Overlays.below_absent (hmoved.absent ho), hintervene, htarget, hs]
  | some t =>
    obtain ⟨u, hu, -, -⟩ := hmoved.output ho
    have hreach := hmoved.reach_eq ho hu h b
    cases hend : u.reach b s' with
    | ok x s₁ =>
      rw [hend] at hreach
      rw [Overlays.below_reach ho hreach, Overlays.below_reach hu hend, hintervene, htarget]
    | error f s₁ =>
      rw [hend] at hreach
      rw [Overlays.below_fails ho hreach, Overlays.below_fails hu hend]

end Moved

/-- Edits that give the same, and after which the first run has reached its output, lead to
one machine. -/
theorem edit_runs {α : Type} {e f : Edit α} {P : α → Prop} (hmoved : Moved m A o p base)
    (h : ∀ s s', Stores m o base s s' → e s = f s')
    (hafter : ∀ s, KeptStore m o.outputValue base s → After m o.outputValue base P (f s)) :
    (simulation m o base).Runs B w (.watch (Run.edit e)) (.watch (Run.edit f))
      fun w' r q => r = q ∧ Late m o base w' ∧ P r := by
  intro hw _
  have hstores := stores_of_related hw
  have hkept : Kept m o.outputValue base { w.second with store := w.second.store } := by
    rcases hw with hw | hw
    · exact ⟨hw.store ▸ hmoved.kept, hw.frames, fun hij => (hw.bindings hij).mono .ofUntagged⟩
    · exact hw.kept
  have hfirst (s₁ : Store) :
      ({ w.first with store := s₁ } : Machine) = { w.second with store := s₁ } := by
    rcases hw with hw | hw
    · rw [hw.first]
    · rw [hw.same]
  have hend := hafter _ (hmoved.kept_of_stores hstores)
  simp only [Watched.run_watch, Run.edit, h _ _ hstores]
  revert hend
  cases f w.second.store with
  | ok r s₁ =>
    rintro ⟨hs₁, hr⟩
    have hlate : Late m o base
        ⟨{ w.first with store := s₁ }, { w.second with store := s₁ }⟩ :=
      ⟨hfirst s₁, hs₁, hkept.frames, hkept.bindings⟩
    exact ⟨fun _ => hlate, .inr hlate, rfl, hlate, hr⟩
  | error g s₁ => exact fun _ => .inr ⟨rfl, .inl (hfirst s₁)⟩

theorem force_runs (hmoved : Moved m A o p base) (a : Address) (hv : Fit m o base w v) :
    (simulation m o base).Runs B w (.force (A ++ a) o v) (.force a p v)
      fun w' x y => x = y ∧ Fit m o base w' x := by
  intro hw _
  obtain ⟨hfirst, hsecond⟩ := hmoved.forced_eq (stores_of_related hw) a
  have hrun (a : Address) (o : Overlays Trace) (n : Machine) : (Watched.force a o v).run n =
      .ok ((o.intervene.bind (n.store.valueAt? · a)).getD v) n := rfl
  rw [hrun, hrun, hfirst, hsecond]
  refine ⟨id, hw, rfl, ?_⟩
  cases hforced : o.intervene.bind (m.store.valueAt? · (A ++ a)) with
  | none => exact hv
  | some x =>
    obtain ⟨t, ht, hx⟩ := Option.bind_eq_some_iff.mp hforced
    obtain ⟨u, hu, hx⟩ := Option.bind_eq_some_iff.mp hx
    exact .ofSound hw (((hmoved.separate.sound t (.inl ht)).find? hu).refers (.held hx))

theorem Moved.hasText_append (hmoved : Moved m A o p base) (s : Store) (a : Address) :
    s.hasText (Address.toValue (A ++ a)) = a.hasText := by
  rw [Store.hasText_address, Address.hasText_append, hmoved.legible, Bool.true_and]

theorem invoke_runs (hmoved : Moved m A o p base) (t : Term) (ts : List Term) (a : Address)
    (hv : Value.Alike (likeness m o.outputValue) v v) :
    (simulation m o base).Runs B w (.invoke (Term.application t ts).toTrace (A ++ a) v o)
      (.invoke (Term.application t ts).toTrace a v p)
      fun w' r q => r = q ∧ Late m o base w' ∧ Fits m o.outputValue r.2 := by
  refine basic.bind basic.readCallKey ?_
  rintro w₁ key _ - ⟨rfl, -⟩
  refine basic.bind (basic.composeTexts fun hw => ?_) ?_
  · simp only [List.all_cons, List.all_nil, List.append_assoc, hmoved.hasText_append,
      Store.hasText_address, basic.text hw hv]
  rintro w₂ - - - -
  refine basic.bind (Simulation.Runs.within (Simulation.Runs.note fun _ _ => id)) ?_
  rintro w₃ - - - -
  refine basic.bind (edit_runs hmoved (fun s s' h => ?_)
    fun s hs => ReadOnly.below_after hs hmoved.fits) ?_
  · rw [List.append_assoc]
    exact hmoved.below_eq h (a ++ [key])
  · rintro w₄ below _ - ⟨rfl, hlate, hfits⟩
    exact basic.pure ⟨rfl, hlate, hfits⟩

theorem recordDefinition_runs (hmoved : Moved m A o p base) (a : Address)
    (hv : Value.Alike (likeness m o.outputValue) v v) :
    (simulation m o base).Runs B w (.recordDefinition (A ++ a) o v) (.recordDefinition a p v)
      fun _ _ _ => True := by
  unfold Watched.recordDefinition
  cases ho : o.output with
  | none =>
    rw [hmoved.absent ho]
    exact basic.pure trivial
  | some t =>
    obtain ⟨u, hu, -, -⟩ := hmoved.output ho
    rw [hu]
    dsimp only
    split
    · exact basic.pure trivial
    · refine basic.bind (edit_runs (P := fun _ => True) hmoved (fun s s' h => ?_) fun s hs => ?_) ?_
      · show EStateM.bind _ _ _ = EStateM.bind _ _ _
        simp only [EStateM.bind, hmoved.reach_eq ho hu h a]
      · exact (ReadOnly.reach_after hs (hmoved.fits.output u hu)).bind
          fun x s hs hx => ReadOnly.put_after hs hx hv
      · rintro w₁ - - - -
        exact (Simulation.Runs.note fun _ _ => id).mono fun _ _ _ _ _ => trivial

end Overlays

include htop in
/-- An expression is evaluated under the overlays of a tag on one machine only. -/
theorem relocate_runs (tag body : Term) (hc : ScopesAlike (m.Admits m.Sound) c c)
    (hv : Fit m o base w v) :
    (simulation m o base).Runs B w (.relocate (Term.withAddress tag body).toTrace v)
      (.relocate (Term.withAddress tag body).toTrace v) fun w' r q =>
        r = q ∧ Late m o base w' ∧ Known m r.2 ∧ Fits m o.outputValue r.1 := by
  refine runs_of_phases (fun hnot hw => ?_) fun hw => ?_
  · have hagree := (hv.elim And.right fun hv => absurd hv.1 hnot).quasiAddress_agree
    refine basic.bind (Simulation.Runs.note fun _ _ => id) ?_
    rintro w₁ - - - -
    refine basic.bind (P := fun _ _ _ => False) ?_ fun _ _ _ _ h => h.elim
    cases hquasi : v.quasiAddress with
    | error f =>
      rw [hquasi] at hagree
      rw [Value.edit_resolveTag_error hquasi]
      cases hagree with
      | error hf => exact basic.raise (hf.mono .ofUntagged)
    | ok r =>
      rw [hquasi] at hagree
      cases hagree with
      | ok h =>
        obtain ⟨⟨_, _, htag⟩, -⟩ := h
        exact htag.elim
  · refine (hw.runs ((ReadOnly.lawful htop).relocate ⟨known_toTrace _, hc⟩
      ⟨{}, Term.kindOf_toTrace _ _⟩ hv.alike)).mono ?_
    rintro w' r _ - ⟨rfl, hlate, -, hcode, hsite, -⟩
    exact ⟨rfl, hlate, hcode.1, hsite.2⟩

/-! ## Forms -/

/-- Recursive calls that go the same way at an address and below it. -/
structure Handles (m : Machine) (A : Address) (o p : Overlays Trace) (base : Store)
    (calls : Watched.Calls) : Prop where
  kept : (ReadOnly.simulation m o.outputValue base).Handles calls
  walk : ∀ {w B c} {e : Term} (a : Address), e.defersCapture = true →
    ScopesAlike (m.Admits m.Sound) c c →
    (simulation m o base).Runs B w (calls.walk e.toTrace c (A ++ a) o)
      (calls.walk e.toTrace c a p) fun w' r q => r = q ∧ Fit m o base w' r.1

section Forms

variable {calls : Watched.Calls} (hmoved : Moved m A o p base)
variable (hcalls : Handles m A o p base calls) (hc : ScopesAlike (m.Admits m.Sound) c c)
include hcalls hc

theorem descend_runs {e : Term} (he : e.defersCapture = true) (a : Address) (key : Key) :
    (simulation m o base).Runs B w (.descend calls e.toTrace c (A ++ a) key o)
      (.descend calls e.toTrace c a key p) fun w' r q => r = q ∧ Fit m o base w' r.1 := by
  refine Simulation.Runs.within ?_
  have hwalk := hcalls.walk (w := w) (B := B ++ [key]) (a ++ [key]) he hc
  rw [← List.append_assoc] at hwalk
  refine basic.bind hwalk ?_
  rintro w₁ r _ - ⟨rfl, hr⟩
  refine basic.bind (P := fun w' _ _ => Fit m o base w' r.1) ?_ ?_
  · refine (Simulation.Runs.note fun _ _ => id).imp ?_
    rintro w₂ - - hl hw₂ -
    exact hr.later hl hw₂
  · rintro w₂ - - - hr
    exact basic.pure ⟨rfl, hr⟩

theorem walkParts_runs (kind : Expression.Kind) {ts : List Term}
    (hts : Term.allDeferCapture ts = true) (a : Address) (left i : Nat) (total : Float) :
    (simulation m o base).Runs B w
      (.walkParts calls (.node kind.word (Expression.numbered 0 (Term.toTraces ts))) c (A ++ a) o
        left i total)
      (.walkParts calls (.node kind.word (Expression.numbered 0 (Term.toTraces ts))) c a p
        left i total)
      fun w' r q => r = q ∧ ∀ x ∈ r.1, Fit m o base w' x := by
  induction left generalizing w i total with
  | zero => exact basic.pure ⟨rfl, fun x hx => nomatch hx⟩
  | succ left ih =>
    refine basic.bind (basic.readNumbered i) ?_
    rintro w₁ sub _ - ⟨rfl, t, ht, rfl⟩
    have hdefers := Term.defersCapture_of_mem hts (List.mem_of_getElem? ht)
    refine basic.bind (descend_runs hcalls hc hdefers a (.index i)) ?_
    rintro w₂ ⟨x, score⟩ _ hl₂ ⟨rfl, hx⟩
    refine basic.bind (rate_runs (total + score)) ?_
    rintro w₃ sum _ hl₃ rfl
    refine (basic.bind (P := fun w' r q => r = q ∧ ∀ y ∈ r.1, Fit m o base w' y)
      (Q := fun w' r q => r = q ∧ ∀ y ∈ r.1, y = x ∨ Fit m o base w' y) (ih (i + 1) sum) ?_).imp ?_
    · rintro w₄ ⟨xs, rest⟩ _ - ⟨rfl, hxs⟩
      exact basic.pure ⟨rfl, fun y hy => (List.mem_cons.mp hy).imp_right (hxs y)⟩
    · rintro w₄ r q hl₄ hw₄ ⟨hrq, hr⟩
      refine ⟨hrq, fun y hy => (hr y hy).elim ?_ id⟩
      rintro rfl
      exact hx.later (basic.later_trans hl₃ hl₄) hw₄

include htop hmoved

theorem walkApplication_runs {t : Term} {ts : List Term}
    (he : (Term.application t ts).defersCapture = true) (a : Address) :
    (simulation m o base).Runs B w
      (.walkApplication calls (Term.application t ts).toTrace c (A ++ a) o)
      (.walkApplication calls (Term.application t ts).toTrace c a p)
      fun w' r q => r = q ∧ Fit m o base w' r.1 := by
  refine basic.bind (P := fun _ => Eq) (basic.readStore fun _ => rfl) ?_
  rintro w₁ count _ - rfl
  have hts : Term.allDeferCapture (t :: ts) = true := he
  refine basic.bind (walkParts_runs hcalls hc .application hts a count 0 0.0) ?_
  rintro w₂ ⟨vs, total⟩ _ - ⟨rfl, hvs⟩
  have halike : ItemsAlike (likeness m o.outputValue) vs vs :=
    List.forall₂_same.mpr fun x hx => (hvs x hx).alike
  have hproc : Value.Alike (likeness m o.outputValue) (vs.headD .null) (vs.headD .null) := by
    cases halike with
    | nil => exact .null
    | cons hx _ => exact hx
  have hinputs : ItemsAlike (likeness m o.outputValue) vs.tail vs.tail := by
    cases halike with
    | nil => exact .nil
    | cons _ hxs => exact hxs
  -- The operands may leave the output alone, but the call reaches it in both runs.
  refine basic.bind (invoke_runs hmoved t ts a hproc) ?_
  rintro w₃ ⟨key, below⟩ _ - ⟨rfl, hlate, hfits⟩
  refine basic.bind (Simulation.Runs.within
    (hlate.runs (hcalls.kept.apply hproc (.ofList hinputs) ⟨rfl, hfits⟩))) ?_
  rintro w₄ ⟨x, score⟩ _ - ⟨rfl, hlate₄, hx, hscore⟩
  refine basic.bind (hlate₄.runs ((ReadOnly.lawful htop).addScore total hscore)) ?_
  rintro w₅ sum _ - ⟨rfl, hlate₅, -⟩
  exact basic.pure ⟨rfl, .inr ⟨hlate₅, hx⟩⟩

omit htop

theorem walkConditional_runs {predicate yes no : Term}
    (he : (Term.conditional predicate yes no).defersCapture = true) (a : Address) :
    (simulation m o base).Runs B w
      (.walkConditional calls (Term.conditional predicate yes no).toTrace c (A ++ a) o)
      (.walkConditional calls (Term.conditional predicate yes no).toTrace c a p)
      fun w' r q => r = q ∧ Fit m o base w' r.1 := by
  rw [Term.defersCapture, Bool.and_eq_true, Bool.and_eq_true] at he
  obtain ⟨⟨hpredicate, hyes⟩, hno⟩ := he
  refine basic.bind (basic.readPart (u := predicate.toTrace) fun _ => rfl) ?_
  rintro w₁ _ _ - ⟨rfl, rfl⟩
  refine basic.bind (descend_runs hcalls hc hpredicate a (.name "predicate")) ?_
  rintro w₂ ⟨x, first⟩ _ - ⟨rfl, hx⟩
  have hbranch : ∃ branch : Term, branch.defersCapture = true ∧ ∀ s : Store,
      s.child? (Term.conditional predicate yes no).toTrace
        (.name (if x.isTruthy then "then" else "else")) = some branch.toTrace := by
    cases x.isTruthy with
    | true => exact ⟨yes, hyes, fun _ => rfl⟩
    | false => exact ⟨no, hno, fun _ => rfl⟩
  obtain ⟨branch, hbranch, hread⟩ := hbranch
  refine basic.bind (basic.composeTexts fun hw => ?_) ?_
  · simp only [List.all_cons, List.all_nil, hmoved.hasText_append, Store.hasText_address,
      basic.text hw hx.alike]
  rintro w₃ - - - -
  refine basic.bind (basic.readPart hread) ?_
  rintro w₄ _ _ - ⟨rfl, rfl⟩
  refine basic.bind (descend_runs hcalls hc hbranch a _) ?_
  rintro w₅ ⟨y, second⟩ _ - ⟨rfl, hy⟩
  refine (basic.bind (Q := fun _ r q => r = q ∧ r.1 = y) (rate_runs (first + second)) ?_).imp ?_
  · rintro w₆ total _ - rfl
    exact basic.pure ⟨rfl, rfl⟩
  · rintro w₆ r q hl hw₆ ⟨hrq, rfl⟩
    exact ⟨hrq, hy.later hl hw₆⟩

omit hmoved

theorem walkBlock_runs {ts : List Term} (he : (Term.block ts).defersCapture = true) (a : Address) :
    (simulation m o base).Runs B w (.walkBlock calls (Term.block ts).toTrace c (A ++ a) o)
      (.walkBlock calls (Term.block ts).toTrace c a p)
      fun w' r q => r = q ∧ Fit m o base w' r.1 := by
  refine basic.bind (openFrame_runs (Term.block ts).toTrace hc) ?_
  rintro w₁ frame _ - ⟨rfl, hframe⟩
  refine basic.bind (P := fun _ => Eq) (basic.readStore fun _ => rfl) ?_
  rintro w₂ count _ - rfl
  have hts : Term.allDeferCapture ts = true := he
  refine (basic.bind (P := fun w' r q => r = q ∧ ∀ x ∈ r.1, Fit m o base w' x)
    (Q := fun w' r q => r = q ∧ (r.1 = .trace .empty ∨ Fit m o base w' r.1))
    (walkParts_runs hcalls hframe .block hts a count 0 0.0) ?_).mono ?_
  · rintro w₃ ⟨vs, total⟩ _ - ⟨rfl, hvs⟩
    refine basic.pure ⟨rfl, ?_⟩
    cases hlast : vs.getLast? with
    | none => exact .inl rfl
    | some x => exact .inr (hvs x (List.mem_of_getLast? hlast))
  · rintro w₃ ⟨x, total⟩ q hw₃ ⟨hrq, hx⟩
    refine ⟨hrq, hx.elim ?_ id⟩
    rintro rfl
    exact .ofSound hw₃ (.ofData rfl)

include htop hmoved

theorem walkDefinition_runs {pattern : Shape} {rhs : Term} (hapart : pattern.key ≠ .name "pattern")
    (he : (Term.definition pattern rhs hapart).defersCapture = true) (a : Address) :
    (simulation m o base).Runs B w
      (.walkDefinition ctx calls (Term.definition pattern rhs hapart).toTrace c (A ++ a) o)
      (.walkDefinition ctx calls (Term.definition pattern rhs hapart).toTrace c a p)
      fun w' r q => r = q ∧ Fit m o base w' r.1 := by
  refine basic.bind (basic.readDefinition hapart) ?_
  rintro w₁ _ _ - ⟨rfl, rfl⟩
  have hrhs : rhs.defersCapture = true := he
  refine basic.bind (descend_runs hcalls hc hrhs a pattern.key) ?_
  rintro w₂ ⟨x, score⟩ _ - ⟨rfl, hx⟩
  refine (basic.bind (P := fun _ _ _ => True) (Q := fun _ r q => r = q ∧ r.1 = x) ?_ ?_).imp ?_
  · refine Simulation.Runs.within (basic.bind (bindPattern_runs htop pattern hc hx) ?_)
    rintro w₃ - - - -
    refine basic.bind (Simulation.Runs.note fun _ _ => id) ?_
    rintro w₄ - - - -
    rw [List.append_assoc]
    exact recordDefinition_runs hmoved (a ++ [pattern.key]) hx.alike
  · rintro w₃ - - - -
    exact basic.pure ⟨rfl, rfl⟩
  · rintro w₃ r q hl hw₃ ⟨hrq, rfl⟩
    exact ⟨hrq, hx.later hl hw₃⟩

omit hmoved

theorem walkWithAddress_runs {tag body : Term} (he : tag.defersCapture = true) (a : Address) :
    (simulation m o base).Runs B w
      (.walkWithAddress calls (Term.withAddress tag body).toTrace c (A ++ a) o)
      (.walkWithAddress calls (Term.withAddress tag body).toTrace c a p)
      fun w' r q => r = q ∧ Fit m o base w' r.1 := by
  refine basic.bind (basic.readPart (u := tag.toTrace) fun _ => rfl) ?_
  rintro w₁ _ _ - ⟨rfl, rfl⟩
  refine basic.bind (descend_runs hcalls hc he a (.name "tag")) ?_
  rintro w₂ ⟨t, first⟩ _ - ⟨rfl, ht⟩
  refine basic.bind (relocate_runs htop tag body hc ht) ?_
  rintro w₃ ⟨resolved, exp⟩ _ - ⟨rfl, hlate, hexp, hfits⟩
  refine basic.bind (hlate.runs ((ReadOnly.lawful htop).evalFrom hcalls.kept ⟨hexp, hc⟩
    ⟨rfl, hfits⟩)) ?_
  rintro w₄ ⟨x, second⟩ _ - ⟨rfl, hlate₄, hx, -⟩
  refine basic.bind (hlate₄.runs ((ReadOnly.lawful htop).rate (first + second))) ?_
  rintro w₅ total _ - ⟨rfl, hlate₅, -⟩
  exact basic.pure ⟨rfl, .inr ⟨hlate₅, hx⟩⟩

include hmoved

theorem walkKind_runs {e : Term} (he : e.defersCapture = true) (a : Address) :
    (simulation m o base).Runs B w (.walkKind ctx calls e.kind e.toTrace c (A ++ a) o)
      (.walkKind ctx calls e.kind e.toTrace c a p)
      fun w' r q => r = q ∧ Fit m o base w' r.1 := by
  cases e with
  | literal x hx => exact literal_runs x hx
  | reference name => exact reference_runs htop name hc
  | application t ts => exact walkApplication_runs htop hmoved hcalls hc he a
  | gen pattern body name => exact gen_runs htop pattern body name hc
  | conditional predicate yes no => exact walkConditional_runs hmoved hcalls hc he a
  | block ts => exact walkBlock_runs hcalls hc he a
  | definition pattern rhs hapart =>
    exact walkDefinition_runs htop hmoved hcalls hc hapart he a
  | this => cases he
  | withAddress tag body =>
    rw [Term.defersCapture, Bool.and_eq_true] at he
    exact walkWithAddress_runs htop hcalls hc he.1 a

theorem walkWith_runs {e : Term} (he : e.defersCapture = true) (a : Address) :
    (simulation m o base).Runs B w (.walkWith ctx calls e.toTrace c (A ++ a) o)
      (.walkWith ctx calls e.toTrace c a p) fun w' r q => r = q ∧ Fit m o base w' r.1 := by
  refine basic.bind (P := fun _ k k' => k = k' ∧ k = some e.kind) (basic.readStore fun _ => ?_) ?_
  · rw [Term.kindOf_toTrace, Term.kindOf_toTrace]
    exact ⟨rfl, rfl⟩
  · rintro w₁ _ _ - ⟨rfl, rfl⟩
    refine basic.bind (walkKind_runs htop hmoved hcalls hc he a) ?_
    rintro w₂ ⟨x, score⟩ _ - ⟨rfl, hx⟩
    refine basic.bind (force_runs hmoved a hx) ?_
    rintro w₃ y _ - ⟨rfl, hy⟩
    exact basic.pure ⟨rfl, hy⟩

end Forms

include htop in
/-- The recursive calls to any depth go the same way at an address and below it. -/
theorem handles (hmoved : Moved m A o p base) (depth : Nat) :
    Handles m A o p base (Watched.callsAt ctx depth) := by
  induction depth with
  | zero =>
    refine ⟨(ReadOnly.lawful htop).handles 0, fun {w B c e} a _ _ => ?_⟩
    simp only [Watched.callsAt, Watched.walkAt]
    exact fun hw _ => .inr (basic.tooDeep hw)
  | succ depth ih =>
    refine ⟨(ReadOnly.lawful htop).handles (depth + 1), fun {w B c e} a he hc => ?_⟩
    simp only [Watched.callsAt, Watched.walkAt]
    exact walkWith_runs htop hmoved ih hc he a

/-! ## Runs from the start -/

theorem fits_of_separate {O : Value} {intervene target : Option Trace}
    (h : m.Separate intervene target O) {output : Option Trace}
    (houtput : ∀ u ∈ output, ReadOnly.Ground m O u) :
    Fits m O { intervene := intervene.bind (m.store.find? · A),
               target := target.bind (m.store.find? · A), output } := by
  have hread {overlay : Option Trace} (hsound : ∀ t ∈ overlay, m.Sound (.trace t)) :
      ∀ u ∈ overlay.bind (m.store.find? · A), Known m u := by
    intro u hu
    obtain ⟨t, ht, hfind⟩ := Option.bind_eq_some_iff.mp hu
    exact .inl ((hsound t ht).find? hfind)
  exact ⟨hread fun t ht => h.sound t (.inl ht), hread fun t ht => h.sound t (.inr ht), houtput⟩

/-- Overlays can be moved below any address if every node of their output can be written to. -/
theorem exists_moved (hA : A.hasText = true) (h : m.Separate o.intervene o.target o.outputValue)
    (houtput : ∀ t ∈ o.output, t.Writable m.store) :
    ∃ p base, Moved m A o p base ∧ o.below A m.store = .ok p base ∧
      (∀ u ∈ p.output, base.isWritable u = true) ∧
      (∀ t a, m.store.valueAt? t a = base.valueAt? t a) ∧
      (simulation m o base).related ⟨m, { m with store := base }⟩ := by
  cases ho : o.output with
  | none =>
    refine ⟨_, m.store, ⟨hA, h, rfl, rfl, fun _ => rfl, ?_, fits_of_separate h nofun, .start⟩,
      Overlays.below_absent ho, nofun, fun _ _ => rfl, .inr ⟨rfl, .start⟩⟩
    intro t ht
    rw [ho] at ht
    cases ht
  | some t =>
    obtain ⟨u, base, hreach, hfind, hwritable, -, hvalues⟩ :=
      Trace.exists_reach (a := A) (houtput t ho)
    have hroot : ReadOnly.Ground m o.outputValue t := by
      refine .inl ⟨t, [], ?_, rfl⟩
      rw [Overlays.outputValue, ho]
      rfl
    have hafter : After m o.outputValue m.store (ReadOnly.Ground m o.outputValue) (t.reach A m.store) :=
      ReadOnly.reach_after .start hroot
    rw [hreach] at hafter
    obtain ⟨hkept, hground⟩ := hafter
    refine ⟨_, base, ⟨hA, h, rfl, rfl, ?_, ?_, fits_of_separate h ?_, { hkept with found := id }⟩,
      Overlays.below_reach ho hreach, ?_, fun t a => (hvalues t a).symm,
      .inl ⟨?_, rfl, rfl, Trace.hasText_reach hA (houtput t ho) hreach, ?_, ?_⟩⟩
    · intro hnone
      rw [ho] at hnone
      cases hnone
    · intro x hx
      cases ho.symm.trans hx
      exact ⟨u, rfl, hreach, hfind⟩
    · intro x hx
      cases hx
      exact hground
    · intro x hx
      cases hx
      exact hwritable
    · rw [ho]
      exact nofun
    · exact Nat.le_refl _
    · exact untagged_covers.frameAlike

/-- An evaluation under overlays that fit is a walk from the empty address. -/
theorem eval_eq_walkAt (exp : Trace) (c : Scope) {n : Machine}
    (h : ∀ u ∈ p.output, n.store.isWritable u = true) :
    Evaluator.eval ctx (.trace exp) c p.intervene p.target p.outputValue n =
      Evaluator.walkAt ctx Evaluator.depthLimit exp c [] p n := by
  have hwith : Evaluator.withOutput n.store p.intervene p.target p.outputValue = .ok p := by
    obtain ⟨intervene, target, output⟩ := p
    cases output with
    | none => rfl
    | some u =>
      show (do Evaluator.checkOutput n.store (some u); pure _) = _
      rw [Evaluator.checkOutput, if_pos (h u rfl)]
      rfl
  show (Run.ofExcept (Evaluator.withOutput n.store p.intervene p.target p.outputValue) >>=
    fun o => Evaluator.walkAt ctx Evaluator.depthLimit exp c [] o) n = _
  rw [hwith]
  rfl

theorem sameValues {n n' : Machine} (hvalues : ∀ t a, m.store.valueAt? t a = base.valueAt? t a)
    (h : n = n' ∨ n = { n' with store := m.store } ∧ n'.store = base) : n.SameValues n' := by
  rcases h with rfl | ⟨rfl, rfl⟩
  · exact ⟨rfl, fun _ _ => rfl⟩
  · exact ⟨rfl, hvalues⟩

/-- Walking an expression at an address of overlays and evaluating it under the overlays below
that address end the same way, if the address has a text. -/
theorem walk_endsSame {ctx : Context} (htop : ctx.topLevel = .standard) {m : Machine} {exp : Trace}
    (hexp : Expression.DefersCapture exp) {scope : Scope} (hscope : m.Sound (.scope scope))
    {A : Address} (hA : A.hasText = true) {o : Overlays Trace}
    (h : m.Separate o.intervene o.target o.outputValue)
    (houtput : ∀ t ∈ o.output, t.Writable m.store) :
    EndsSame (Evaluator.walkAt ctx Evaluator.depthLimit exp scope A o m)
      ((do
        let below ← Run.edit (o.below A)
        Evaluator.eval ctx (.trace exp) scope below.intervene below.target below.outputValue) m) := by
  obtain ⟨e, rfl, he⟩ := hexp
  obtain ⟨p, base, hmoved, hbelow, hwritable, hvalues, hstart⟩ := exists_moved hA h houtput
  have hsecond : (do
      let below ← Run.edit (o.below A)
      Evaluator.eval ctx (.trace e.toTrace) scope below.intervene below.target
        below.outputValue : Run (Value × Float)) m =
      Evaluator.walkAt ctx Evaluator.depthLimit e.toTrace scope [] p { m with store := base } := by
    show EStateM.bind _ _ m = _
    rw [EStateM.bind, Run.edit_ok hbelow]
    exact eval_eq_walkAt e.toTrace scope hwritable
  have hends := (handles htop hmoved Evaluator.depthLimit).walk (B := []) [] he
    (Machine.sound_hereditary.scopesAlike hscope) hstart fun _ _ => trivial
  rw [List.append_nil] at hends
  simp only [Watched.callsAt, Watched.run_walkAt] at hends
  rw [hsecond]
  revert hends
  generalize Evaluator.walkAt ctx Evaluator.depthLimit e.toTrace scope A o m = r
  generalize Evaluator.walkAt ctx Evaluator.depthLimit e.toTrace scope [] p _ = q
  intro hends
  cases r with
  | ok _ n =>
    cases q with
    | ok _ n' =>
      obtain ⟨-, hrelated, hresult, -⟩ := hends
      cases hresult
      refine .returned ?_
      rcases hrelated with hearly | hlate
      -- Nothing was recorded, and the nodes on the way to the address hold no value.
      · exact sameValues hvalues (.inr ⟨hearly.first, hearly.store⟩)
      · exact sameValues hvalues (.inl hlate.same)
    | error _ _ => exact hends.elim
  | error _ n =>
    cases q with
    | ok _ _ => exact hends.elim
    | error _ n' =>
      obtain ⟨rfl, hmachines⟩ := hends.resolve_left id
      exact .failed (sameValues hvalues hmachines)

/-- A coin, and after it a call that gives its overlays. -/
def taggedCoin : Term :=
  .block [.definition (.name "x") (.application (.reference "flip") [.literal (.float 0.5) rfl])
      (by decide),
    .application (.gen (.tuple []) .this none) []]

/-- Overlays that force the coin of an expression at an address. -/
def coinForcedBelow : Overlays Trace where
  intervene := some (.tree none [(.name "a", .tree none [(.index 0, .tree none
    [(.name "x", .tree none [(.name "flip", .leaf (.bool true))])])])])
  target := none
  output := some (.cell 0)

theorem taggedCoin_endsSame :
    EndsSame
      (Evaluator.walkAt .halves Evaluator.depthLimit taggedCoin.toTrace .top [.name "a"]
        coinForcedBelow .oneCell)
      ((do
        let below ← Run.edit (coinForcedBelow.below [.name "a"])
        Evaluator.eval .halves (.trace taggedCoin.toTrace) .top below.intervene below.target
          below.outputValue) .oneCell) := by
  refine walk_endsSame rfl ⟨taggedCoin, rfl, rfl⟩ .top (by decide) ⟨?_, ?_⟩ ?_
  · rintro t (ht | ht)
    · cases ht
      exact .ofData rfl
    · cases ht
  · rintro t (ht | ht) _ _ _ b n _ hn
    · cases ht
      cases Machine.isData_find? rfl hn
    · cases ht
  · rintro t ht (_ | ⟨k, a⟩) u hu
    · cases ht
      cases hu
      exact ⟨0, rfl, by decide, rfl⟩
    · cases ht
      cases hu

/-- The sum of two numbers. -/
def twoPlusThree : Term :=
  .application (.reference "+") [.literal (.int 2) rfl, .literal (.int 3) rfl]

/-- Whether a computation stops for want of a text. -/
def lacksText {α : Type} : EStateM.Result Halt Machine α → Bool
  | .error (.fault .wrongValue) _ => true
  | _ => false

theorem exists_of_lacksText {α : Type} {x : EStateM.Result Halt Machine α}
    (h : lacksText x = true) : ∃ m, x = .error (.fault .wrongValue) m := by
  unfold lacksText at h
  split at h
  · exact ⟨_, rfl⟩
  · cases h

/-- A key of an address has too many digits to be written.  The walk at the address fails when it
is to apply a procedure, while the evaluation below the address returns. -/
theorem twoPlusThree_longAddress :
    let A : Address := [.index (Int.pow 10 Number.digitLimit)]
    Expression.DefersCapture twoPlusThree.toTrace ∧
    (∃ m, Evaluator.walkAt .halves Evaluator.depthLimit twoPlusThree.toTrace .top A .empty {} =
      .error (.fault .wrongValue) m) ∧
    ∃ m, (do
      let below ← Run.edit (Overlays.empty.below A)
      Evaluator.eval .halves (.trace twoPlusThree.toTrace) .top below.intervene below.target
        below.outputValue : Run (Value × Float)) {} = .ok (.int 5, 0.0) m :=
  ⟨⟨twoPlusThree, rfl, rfl⟩, exists_of_lacksText (by decide +kernel), {}, rfl⟩

end Position
end ProbTrace
