import ProbTrace.Proofs.Agreement
import ProbTrace.Proofs.Fidelity
import ProbTrace.Proofs.Relevance

/-!
# Replaying a run

A run that is repeated with its output as the intervention takes the values of all calls and
definitions from the output.  So it makes no random choices and comes to the same value with the
same score.

Procedures that were not recorded are made again, while those that were recorded see the frames
of the first run as it left them.  Since every name of a scope is bound once and not further out,
both see the same values under a name, as far as the first run has come.  But they are not
identical, so that an order can be tested in the first run between two procedures that are
identical, and not in the second one.  If one of the operands has no procedures in it, then it
can be tested in both.
-/

namespace ProbTrace

/-! ## Statements -/

/-- The builtins that test two operands for an order. -/
def Builtin.orders : Builtin → Bool
  | less | greater | lessEqual | greaterEqual => true
  | _ => false

/-- Whether an order, if one was tested, was between operands one of which has no closures and
tags. -/
def Event.ordersPlainly (e : Event) : Bool :=
  match e.deed with
  | .returned (.builtin b) inputs _ => !b.orders || inputs.any Value.isInert
  | _ => true

/-- An expression in which no scope binds a name twice, a name that is bound further out, or a
name of the top level, and that has no `with-address` node. -/
def Expression.Hygienic (t : Trace) : Prop :=
  ∃ e : Term, e.toTrace = t ∧ e.hygienic (TopLevel.standardNames.map Prod.fst) = true

/-- Values that are the same but for the identity of tags and of closures, whose frames
correspond. -/
def Likeness.upTo (R : FrameId → FrameId → Prop) : Likeness where
  trace _ := True
  tag _ _ _ _ := True
  closure _ _ _ c _ d := ScopesAlike R c d
  special _ := True

/-- A run that leads to the same value and the same output as another one, without random
choices. -/
structure Repeats (m : Machine) (output : Trace) (v : Value) (m' : Machine) (output' : Trace)
    (v' : Value) : Prop where
  draws : m'.draws = m.draws
  spare : m'.spare = m.spare
  same : ∃ R, (∀ {i j}, R i j → FrameAlike (.upTo R) (m.bindings i) (m'.bindings j)) ∧
    Value.Alike (.upTo R) v v' ∧
      ∀ a, Option.Rel (Value.Alike (.upTo R)) (m.store.valueAt? output a)
        (m'.store.valueAt? output' a)

namespace Replay

/-! ## The two runs -/

section Relation

variable (m m₁ : Machine) (log : List Event) (target : Option Trace)

/-- How many frames the first run has opened. -/
def opened : Nat :=
  m₁.frames.size - m.frames.size

/-- A frame of the first run, and the frame that is opened in its place. -/
def Again (i j : FrameId) : Prop :=
  m.frames.size ≤ i ∧ j = i + opened m m₁

/-- A frame of the first run, and a frame that the replay sees in its place: itself as it was
left, or the one that is opened again. -/
def Twin (i j : FrameId) : Prop :=
  Again m m₁ i j ∨ m.frames.size ≤ i ∧ i < m₁.frames.size ∧ j = i

/-- Scopes of frames that the first run has opened, each for an expression whose names are not
among those further out. -/
inductive Chain : Scope → List String → Prop
  | top : Chain .top (TopLevel.standardNames.map Prod.fst)
  | frame {B : Address} {id : FrameId} {c : Scope} {source : Term} {outer : List String} :
      ⟨B, .opened (.frame id c) source.toTrace⟩ ∈ log → source.opensApart outer = true →
      Chain c outer → Chain (.frame id c) (source.scopeNames ++ outer)

/-- Values of the two runs. -/
def likeness : Likeness where
  trace t := m.Plain (.trace t)
  tag _ _ _ _ := True
  closure source name _ c _ d := m.Plain (.value name) ∧
    ∃ p t label outer, source = (Term.gen p t label).toTrace ∧
      (Term.gen p t label).hygienic outer = true ∧ Chain log c outer ∧ ScopesAlike (Twin m m₁) c d
  special s := s ≠ .scored

/-- What the first run has recorded at an address. -/
abbrev held (A : Address) : Option Value :=
  m₁.store.valueAt? m.store.next A

/-- The machines of the two runs. -/
structure Beside (w : Pair) : Prop where
  /-- The replay starts in the store that the first run has left. -/
  left : m.store.Rooted m₁.store
  rooted : m.store.Rooted w.first.store
  rooted' : m₁.store.Rooted w.second.store
  outputs : ∀ a, Option.Rel (Value.Alike (likeness m m₁ log))
    (w.first.store.valueAt? m.store.next a) (w.second.store.valueAt? m₁.store.next a)
  draws : w.second.draws = m₁.draws
  spare : w.second.spare = m₁.spare
  start : m.frames.size ≤ w.first.frames.size
  size : w.second.frames.size = w.first.frames.size + opened m m₁
  old : ∀ {i}, i < m₁.frames.size → w.second.bindings i = m₁.bindings i
  new : ∀ {i}, m.frames.size ≤ i →
    FrameAlike (likeness m m₁ log) (w.first.bindings i) (w.second.bindings (i + opened m m₁))
  /-- What is bound stays bound to the end of the first run. -/
  kept : ∀ {i x v}, m.frames.size ≤ i → (w.first.bindings i).valueAt? [.name x] = some v →
    (m₁.bindings i).valueAt? [.name x] = some v

/-- The overlays of the two runs at an address. -/
structure Fits (w : Pair) (A : Address) (o p : Overlays Trace) : Prop where
  forced : o.intervene = none
  forced' : p.intervene = m₁.store.find? m.store.next A
  observed : o.target = target.bind (m.store.find? · A)
  observed' : p.target = target.bind (m.store.find? · A)
  output : ∃ t, o.output = some t ∧ w.first.store.find? m.store.next A = some t
  output' : ∃ t, p.output = some t ∧ w.second.store.find? m₁.store.next A = some t

/-- Syntax trees where they are walked.  The innermost frame is always one that is opened
again. -/
def Placed (_ : Address) (t : Term) (c d : Scope) : Prop :=
  ∃ outer, t.hygienic outer = true ∧ Chain log c outer ∧ ScopesAlike (Twin m m₁) c d ∧
    InnermostAlike (Again m m₁) c d

def Bound (_ : Address) (_ : Shape) (c d : Scope) : Prop :=
  ∃ outer, Chain log c outer ∧ InnermostAlike (Again m m₁) c d

/-- What walks give.  A walk of the replay gives what was recorded at its address, if anything
was. -/
structure Walked (A : Address) (v v' : Value) : Prop where
  self : Value.Alike (likeness m m₁ log) v v
  recorded : ∀ u, held m m₁ A = some u → v' = u
  alike : held m m₁ A = none → Value.Alike (likeness m m₁ log) v v'

/-- The replay beside the run.  Of a first run that fails nothing is said. -/
def simulation : Simulation where
  like := likeness m m₁ log
  related := Beside m m₁ log
  advance w _ w' :=
    (∀ {a t}, w.first.store.find? m.store.next a = some t →
      w'.first.store.find? m.store.next a = some t) ∧
    ∀ {a t}, w.second.store.find? m₁.store.next a = some t →
      w'.second.store.find? m₁.store.next a = some t
  site := Fits m m₁ target
  code := Simulation.TermAt (Placed m m₁ log)
  parts := Simulation.PartsAt (Placed m m₁ log)
  entered := Simulation.ProcedureAt (Placed m m₁ log) (Bound m m₁ log)
  binding := Simulation.ShapeAt (Bound m m₁ log)
  walked := Walked m m₁ log
  assumed e := e ∈ log
  lenient := True
  halted _ _ _ _ _ := True

/-- What is known of the first run when it has returned. -/
structure Recorded : Prop where
  rooted : m.store.Rooted m₁.store
  size : m.frames.size ≤ m₁.frames.size
  complete : Complete m.frames.size log (m₁.look m.store.next)
  range : ∀ {A id c source}, ⟨A, .opened (.frame id c) source⟩ ∈ log →
    m.frames.size ≤ id ∧ id < m₁.frames.size
  regular : ∀ e ∈ log, e.Regular
  plainly : ∀ e ∈ log, e.ordersPlainly = true

/-- What is known of the target. -/
structure Observable : Prop where
  plain : ∀ t ∈ target, m.Plain (.trace t)
  orderly : ∀ t ∈ target, m.Orderly (.trace t)

end Relation

variable {m m₁ : Machine} {log : List Event} {target : Option Trace}
variable {w : Pair} {A B : Address} {o p : Overlays Trace} {v v' : Value} {c d : Scope}
variable {outer : List String}

/-- A first run that does not return. -/
theorem fails_runs {α β : Type} {x : Watched α} {y : Watched β} {P : Pair → α → β → Prop}
    (h : ∀ a m', x.run w.first ≠ .ok a m') : (simulation m m₁ log target).Runs A w x y P :=
  .foreseeing trivial fun a m' hrun _ => (h a m' hrun).elim

namespace Recorded

variable (hrec : Recorded m m₁ log)
include hrec

theorem held_iff : held m m₁ A = some v ↔ ⟨A, .recorded v⟩ ∈ log := by
  rw [← after_output_iff hrec.complete.compatible, ← hrec.complete.output]
  rfl

theorem twins (h : Chain log c outer) : ScopesAlike (Twin m m₁) c c := by
  induction h with
  | top => exact .top
  | frame hopened _ _ ih =>
    obtain ⟨hstart, hend⟩ := hrec.range hopened
    exact .frame (.inr ⟨hstart, hend, rfl⟩) ih

theorem alike_self (h : Value.Alike (likeness m m₁ log) v v') :
    Value.Alike (likeness m m₁ log) v v := by
  refine h.left (L := likeness m m₁ log) (fun _ => trivial) ?_ fun _ => rfl
  rintro source name i c j d ⟨hname, p, t, label, outer, hsource, hhygienic, hchain, -⟩
  exact ⟨hname, p, t, label, outer, hsource, hhygienic, hchain, hrec.twins hchain⟩

theorem items_self {vs vs' : List Value} (h : ItemsAlike (likeness m m₁ log) vs vs') :
    ItemsAlike (likeness m m₁ log) vs vs := by
  induction h with
  | nil => exact .nil
  | cons hv _ ih => exact .cons (hrec.alike_self hv) ih

end Recorded

/-! ## Reading -/

theorem keptIn_plain {s : Store} (hsize : m.store.cells.size ≤ s.cells.size)
    (hcell : ∀ {n}, n < m.store.cells.size → s.cell n = m.store.cell n) :
    m.KeptIn m.Plain s where
  inherited := Machine.Plain.refers
  there hn := hn.sound.cell_lt
  size := hsize
  cell hn := hcell hn.sound.cell_lt

namespace Beside

variable (hw : Beside m m₁ log w)
include hw

/-- What is in neither the stores nor the frames does not matter, random choices of the replay
apart. -/
theorem quiet {m' n' : Machine} (h : w.first.Quiet m') (h' : w.second.Still n') :
    Beside m m₁ log ⟨m', n'⟩ := by
  have hfirst (i : FrameId) : m'.bindings i = w.first.bindings i := by
    unfold Machine.bindings
    rw [h.frames]
  have hsecond (i : FrameId) : n'.bindings i = w.second.bindings i := by
    unfold Machine.bindings
    rw [h'.frames]
  refine ⟨hw.left, ?_, ?_, ?_, h'.draws.trans hw.draws, h'.spare.trans hw.spare, ?_, ?_,
    fun hi => ?_, fun hi => ?_, fun hi hv => ?_⟩
  · rw [h.store]
    exact hw.rooted
  · rw [h'.store]
    exact hw.rooted'
  · rw [h.store, h'.store]
    exact hw.outputs
  · rw [h.frames]
    exact hw.start
  · rw [h.frames, h'.frames]
    exact hw.size
  · rw [hsecond]
    exact hw.old hi
  · rw [hfirst, hsecond]
    exact hw.new hi
  · rw [hfirst] at hv
    exact hw.kept hi hv

theorem keptIn : m.KeptIn m.Plain w.first.store :=
  keptIn_plain hw.rooted.size hw.rooted.old

theorem keptIn' : m.KeptIn m.Plain w.second.store :=
  keptIn_plain (Nat.le_trans hw.left.size hw.rooted'.size) fun hn => by
    rw [hw.rooted'.old (Nat.lt_of_lt_of_le hn hw.left.size), hw.left.old hn]

/-- What has a text in one run has one in the other. -/
theorem hasText_eq (hv : Value.Alike (likeness m m₁ log) v v') :
    w.first.store.hasText v = w.second.store.hasText v' :=
  hw.keptIn.hasText_eq hw.keptIn' id And.left hv

/-- The replay finds what the first run has recorded. -/
theorem held_eq (a : Address) :
    (m₁.store.find? m.store.next A).bind (w.second.store.valueAt? · a) = held m m₁ (A ++ a) := by
  rw [held, ← hw.left.valueAt?_grown hw.rooted'.toGrown,
    ← hw.left.find?_grown hw.rooted'.toGrown]
  show _ = (w.second.store.find? m.store.next (A ++ a)).bind w.second.store.value?
  rw [Store.find?_append, Option.bind_assoc]
  rfl

/-- Traces in values compare alike in both runs. -/
theorem comparesAlike {L M : Likeness}
    (hL : ∀ {t}, L.trace t → m.Plain (.trace t)) (hM : ∀ {t}, M.trace t → m.Plain (.trace t)) :
    ComparesAlike L M w.first.store w.second.store := by
  have hkept : m.KeptBy m.Plain (likeness m m₁ log).inert w.first.store w.second.store :=
    ⟨hw.keptIn, hw.keptIn', id, False.elim, .ofEq False.elim False.elim id⟩
  intro t u ht hu
  exact hkept.same_eq (.trace (hL ht)) (.trace (hM hu))

/-- What has neither closures nor tags relates alike to all values, on either side. -/
theorem relate_eq (r : Relation) {u u' : Value}
    (hv : Value.Alike (likeness m m₁ log) v v') (hu : Value.Alike (likeness m m₁ log).inert u u') :
    v.relate w.first.store r u = v'.relate w.second.store r u' ∧
      u.relate w.first.store r v = u'.relate w.second.store r v' := by
  have hright : (likeness m m₁ log).Matches (likeness m m₁ log).inert :=
    ⟨fun _ h => h.elim, fun _ h => h.elim, (Likeness.Matches.ofEq (L := (likeness m m₁ log).inert)
      False.elim False.elim id).undefined⟩
  have hleft : (likeness m m₁ log).inert.Matches (likeness m m₁ log) :=
    ⟨fun h => h.elim, fun h => h.elim, hright.undefined⟩
  exact ⟨hv.relate_congr hright (hw.comparesAlike id id) r hu,
    hu.relate_congr hleft (hw.comparesAlike id id) r hv⟩

end Beside

theorem basic : (simulation m m₁ log target).Basic where
  advance_refl _ := ⟨id, id⟩
  advance_append h h' := ⟨fun ht => h'.1 (h.1 ht), fun ht => h'.2 (h.2 ht)⟩
  site_later h hsite := by
    obtain ⟨t, ht, hfind⟩ := hsite.output
    obtain ⟨u, hu, hfind'⟩ := hsite.output'
    exact ⟨hsite.forced, hsite.forced', hsite.observed, hsite.observed', ⟨t, ht, h.1 hfind⟩,
      ⟨u, hu, h.2 hfind'⟩⟩
  halted_append _ _ := trivial
  fault _ _ := trivial
  tooDeep _ := trivial
  text hw hv := hw.hasText_eq hv

namespace Observable

variable (htarget : Observable m target)
include htarget

theorem value_eq {s : Store} (hkept : m.KeptIn m.Plain s) :
    Evaluator.overlayValue? s (target.bind (m.store.find? · A)) =
      target.bind (m.store.valueAt? · A) := by
  rw [overlayValue?_eq, hkept.valueAt?_below htarget.plain, List.append_nil]

theorem plain_value {u : Value} (hu : target.bind (m.store.valueAt? · A) = some u) :
    m.Plain (.value u) := by
  obtain ⟨t, ht, hu⟩ := Option.bind_eq_some_iff.mp hu
  obtain ⟨n, hn, hu⟩ := Option.bind_eq_some_iff.mp hu
  exact ((htarget.plain t ht).find? hn).refers (.held hu)

/-- An observed value agrees with itself. -/
theorem same_self {s : Store} (hkept : m.KeptIn m.Plain s) {u : Value}
    (hu : target.bind (m.store.valueAt? · A) = some u) : s.same u u = true := by
  have hplain := htarget.plain_value hu
  have horderly : m.Orderly (.value u) := by
    obtain ⟨t, ht, hu⟩ := Option.bind_eq_some_iff.mp hu
    obtain ⟨n, hn, hu⟩ := Option.bind_eq_some_iff.mp hu
    have hnode : m.Orderly (.trace n) := Store.find?_inherits (P := fun t => m.Orderly (.trace t))
      (fun h hu => Machine.Throughout.hereditary h (.child hu)) (htarget.orderly t ht) hn
    exact Machine.Throughout.hereditary hnode (.held hu)
  have hkeptBy : m.KeptBy m.Plain (likeness m m []).inert s m.store :=
    ⟨hkept, keptIn_plain (Nat.le_refl _) fun _ => rfl, id, False.elim,
      .ofEq False.elim False.elim id⟩
  have halike : Value.Alike (likeness m m []).inert u u :=
    (Machine.Plain.covers (fun _ h => h) fun _ _ => rfl).alike u hplain
  rw [hkeptBy.same_eq halike halike]
  exact horderly.same_self

theorem alike {u : Value} (hu : target.bind (m.store.valueAt? · A) = some u) :
    Value.Alike (likeness m m₁ log) u u ∧ Value.Alike (likeness m m₁ log).inert u u :=
  ⟨(Machine.Plain.covers (fun _ h => h) fun _ _ => rfl).alike u (htarget.plain_value hu),
    (Machine.Plain.covers (fun _ h => h) fun _ _ => rfl).alike u (htarget.plain_value hu)⟩

end Observable

/-! ## Writing -/

theorem Beside.edit (hw : Beside m m₁ log w) {s s' : Store} (hs : m.store.Rooted s)
    (hs' : m₁.store.Rooted s')
    (houtputs : ∀ a, Option.Rel (Value.Alike (likeness m m₁ log)) (s.valueAt? m.store.next a)
      (s'.valueAt? m₁.store.next a)) :
    Beside m m₁ log ⟨{ w.first with store := s }, { w.second with store := s' }⟩ :=
  ⟨hw.left, hs, hs', houtputs, hw.draws, hw.spare, hw.start, hw.size, hw.old, hw.new, hw.kept⟩

theorem Beside.written (hw : Beside m m₁ log w) {s s' : Store}
    (hs : m.store.Written w.first.store A v s) (hs' : m₁.store.Written w.second.store A v' s')
    (hv : Value.Alike (likeness m m₁ log) v v') (a : Address) :
    Option.Rel (Value.Alike (likeness m m₁ log)) (s.valueAt? m.store.next a)
      (s'.valueAt? m₁.store.next a) := by
  rw [hs.valueAt?, hs'.valueAt?]
  split
  · exact .some hv
  · exact hw.outputs a

theorem below_runs (hrec : Recorded m m₁ log) (htarget : Observable m target) (a : Address)
    (h : Fits m m₁ target w B o p) :
    (simulation m m₁ log target).Runs A w (.watch (Run.edit (o.below a)))
      (.watch (Run.edit (p.below a))) fun w' => Fits m m₁ target w' (B ++ a) := by
  intro hw _
  obtain ⟨t, ht, hfind⟩ := h.output
  obtain ⟨u, hu, hfind'⟩ := h.output'
  obtain ⟨t', s, hreach, hrooted, hextends, ht'⟩ := hw.rooted.reach hfind a
  obtain ⟨u', s', hreach', hrooted', hextends', hu'⟩ := hw.rooted'.reach hfind' a
  simp only [Watched.run_watch, Run.edit_ok (Overlays.below_reach ht hreach),
    Run.edit_ok (Overlays.below_reach hu hreach')]
  refine ⟨⟨hextends.find?, hextends'.find?⟩, hw.edit hrooted hrooted' fun a => ?_, ?_⟩
  · rw [hextends.valueAt?, hextends'.valueAt?]
    exact hw.outputs a
  · refine ⟨?_, ?_, ?_, ?_, ⟨t', rfl, ht'⟩, ⟨u', rfl, hu'⟩⟩
    · simp only [h.forced, Option.bind_none]
    · simp only [h.forced']
      rw [← hrec.rooted.find?_grown hw.rooted'.toGrown,
        ← hrec.rooted.find?_grown hw.rooted'.toGrown, Store.find?_append]
    · simp only [h.observed]
      exact hw.keptIn.find?_below htarget.plain B a
    · simp only [h.observed']
      exact hw.keptIn'.find?_below htarget.plain B a

/-- Whatever a call of the first run has recorded is held at its address. -/
theorem recordCall_runs (hrec : Recorded m m₁ log) {f f' : Value} {vs vs' : List Value}
    (h : Fits m m₁ target w A o p)
    (hv : held m m₁ A = some v → Value.Alike (likeness m m₁ log) v v') :
    (simulation m m₁ log target).Runs A w (.recordCall f vs o v) (.recordCall f' vs' p v')
      fun _ _ _ => held m m₁ A = some v := by
  intro hw he
  obtain ⟨t, ht, hfind⟩ := h.output
  obtain ⟨u, hu, hfind'⟩ := h.output'
  obtain ⟨s, hput, hrooted, hwritten⟩ := hw.rooted.put hfind v
  obtain ⟨s', hput', hrooted', hwritten'⟩ := hw.rooted'.put hfind' v'
  obtain ⟨hrun, hevents⟩ := Watched.recordCall_put (m := w.first) ht hput f vs
  have hheld : held m m₁ A = some v := by
    have hmem := he ⟨[], .recorded v⟩ (hevents ▸ List.mem_cons_self)
    rw [Event.below, List.append_nil] at hmem
    exact hrec.held_iff.mpr hmem
  rw [hrun, (Watched.recordCall_put (m := w.second) hu hput' f' vs').1]
  exact ⟨⟨hwritten.find?, hwritten'.find?⟩,
    hw.edit hrooted hrooted' (hw.written hwritten hwritten' (hv hheld)), hheld⟩

theorem recordDefinition_runs {a : Address} (h : Fits m m₁ target w B o p)
    (hv : Value.Alike (likeness m m₁ log) v v') :
    (simulation m m₁ log target).Runs A w (.recordDefinition a o v) (.recordDefinition a p v')
      fun _ _ _ => True := by
  obtain ⟨t, ht, hfind⟩ := h.output
  obtain ⟨u, hu, hfind'⟩ := h.output'
  have htag' := hv.isTagAddress_eq
  cases htag : v.isTagAddress with
  | true =>
    rw [Watched.recordDefinition_tag ht a htag,
      Watched.recordDefinition_tag hu a (htag'.symm.trans htag)]
    exact basic.pure trivial
  | false =>
    intro hw _
    obtain ⟨s, hput, hrooted, hwritten⟩ := hw.rooted.putAt hfind a v
    obtain ⟨s', hput', hrooted', hwritten'⟩ := hw.rooted'.putAt hfind' a v'
    rw [(Watched.recordDefinition_put (m := w.first) ht hput htag).1,
      (Watched.recordDefinition_put (m := w.second) hu hput' (htag'.symm.trans htag)).1]
    exact ⟨⟨hwritten.find?, hwritten'.find?⟩,
      hw.edit hrooted hrooted' (hw.written hwritten hwritten' hv), trivial⟩

theorem checkOutput_runs (h : Fits m m₁ target w A o p) :
    (simulation m m₁ log target).Runs A w (.checkOutput o) (.checkOutput p) fun _ _ _ => True := by
  obtain ⟨t, ht, hfind⟩ := h.output
  obtain ⟨u, hu, hfind'⟩ := h.output'
  refine basic.ofStore fun hw => ?_
  unfold Evaluator.checkOutput
  rw [ht, hu]
  simp only [hw.rooted.writable (hw.rooted.find?_fresh hfind),
    hw.rooted'.writable (hw.rooted'.find?_fresh hfind'), if_true]
  exact .ok trivial

/-! ## Walks -/

theorem note_runs {d e : Deed} : (simulation m m₁ log target).Runs A w (.note d) (.note e)
    fun _ _ _ => ⟨A, d⟩ ∈ log :=
  Simulation.Runs.note fun _ _ => ⟨id, id⟩

theorem force_runs (hrec : Recorded m m₁ log) {a : Address} (hA : A = B ++ a)
    (h : Fits m m₁ target w B o p) (hv : Value.Alike (likeness m m₁ log) v v') :
    (simulation m m₁ log target).Runs A w (.force a o v) (.force a p v')
      fun _ => Walked m m₁ log A := by
  refine Simulation.Runs.withStore fun hw => basic.pureRun ?_
  rw [h.forced, h.forced', hw.held_eq, ← hA]
  refine ⟨hrec.alike_self hv, fun u hu => ?_, fun hnone => ?_⟩
  · rw [hu]
    rfl
  · rw [hnone]
    exact hv

/-- What a part of an expression gave is what was recorded at its address. -/
theorem gave_runs (hrec : Recorded m m₁ log) (hv : Walked m m₁ log A v v') :
    (simulation m m₁ log target).Runs A w (.note (.gave v)) (.note (.gave v'))
      fun _ _ _ => Value.Alike (likeness m m₁ log) v v' := by
  refine note_runs.mono ?_
  rintro w' - - - hgave
  cases hheld : held m m₁ A with
  | none => exact hv.alike hheld
  | some u =>
    -- What a part gave is what was recorded at its address, and the second run is forced to that.
    have hrecorded := hrec.held_iff.mp hheld
    rw [hv.recorded u hheld, ← gave_eq_recorded hrec.complete.compatible hgave hrecorded]
    exact hv.self

/-! ## Calls -/

/-- Steps that change neither the stores nor the frames, and make no random choices in the
replay. -/
theorem quiet_runs {α β : Type} {x : Run α} {y : Run β} {a : α} {b : β} {m' n' : Machine}
    {P : Pair → α → β → Prop} (hx : x w.first = .ok a m') (hy : y w.second = .ok b n')
    (hm' : w.first.Quiet m') (hn' : w.second.Still n') (hP : P ⟨m', n'⟩ a b) :
    (simulation m m₁ log target).Runs A w (.watch x) (.watch y) P := by
  intro hw _
  simp only [Watched.run_watch, hx, hy]
  refine ⟨⟨fun ht => ?_, fun ht => ?_⟩, hw.quiet hm' hn', hP⟩
  · rw [hm'.store]
    exact ht
  · rw [hn'.store]
    exact ht

theorem fresh_runs : (simulation m m₁ log target).Runs A w (.watch Run.fresh) (.watch Run.fresh)
    fun _ _ _ => True :=
  quiet_runs rfl rfl ⟨rfl, rfl⟩ ⟨⟨rfl, rfl⟩, rfl, rfl⟩ trivial

theorem noteClash_runs : (simulation m m₁ log target).Runs A w (.noteClash o) (.noteClash p)
    fun _ _ _ => True := by
  intro hw _
  rw [Watched.run_noteClash, Watched.run_noteClash]
  exact ⟨⟨id, id⟩, hw, trivial⟩

/-- A call that returns has recorded its value. -/
theorem Recorded.foreseen (hrec : Recorded m m₁ log) {x : Watched (Value × Float)}
    {K : Address → Deed → Prop} {f : Value} {vs : List Value}
    (hlogs : x.Logs K fun r => Watched.CallLog f vs r.1) {r : Value × Float} {n n' : Machine}
    (hrun : x.run n = .ok r n') (he : ∀ e ∈ x.events n, e.below A ∈ log) :
    held m m₁ A = some r.1 ∧ ⟨A, .returned f vs r.1⟩ ∈ log := by
  have hentry {d : Deed} (hd : ⟨[], d⟩ ∈ x.events n) : ⟨A, d⟩ ∈ log := by
    have hmem := he _ hd
    rw [Event.below, List.append_nil] at hmem
    exact hmem
  obtain ⟨-, -, hpost⟩ := hlogs A n fun e hmem => hrec.regular _ (he e hmem)
  obtain ⟨hbalanced, hreturned⟩ := hpost r n' hrun
  exact ⟨hrec.held_iff.mpr (hentry (hbalanced _ hreturned).1), hentry hreturned⟩

section Observed

variable {n n' : Machine} {u : Value} {r : Value × Float}
variable (hfree : Evaluator.overlayValue? n.store o.intervene = none)
variable (hu : Evaluator.overlayValue? n.store o.target = some u)
include hfree hu

/-- A call at which nothing is forced gives what is observed there. -/
theorem settle_observed {ctx : Context} {f : Value} {vs : List Value} {score : Float}
    (hrun : (Watched.settle ctx f vs o v score).run n = .ok r n') : r.1 = u := by
  obtain ⟨_, n₁, hnote, hrest, -⟩ := Watched.bind_ok hrun
  rw [Watched.run_noteClash] at hnote
  cases hnote
  obtain ⟨q, n₂, hverdict, hrest, -⟩ := Watched.bind_ok hrest
  have hgives : Watched.verdict ctx f o v score n = .ok (u, score) n := by
    rw [Watched.verdict, Run.store_bind, hu, hfree]
    rfl
  cases hgives.symm.trans hverdict
  obtain ⟨_, _, -, hreturn, -⟩ := Watched.bind_ok hrest
  cases hreturn
  rfl

theorem applyRandom_observed {ctx : Context} {dist : Distribution} {vs : List Value}
    (hrun : (Watched.applyRandom ctx dist vs o).run n = .ok r n') : r.1 = u := by
  obtain ⟨_, n₁, hnote, hrest, -⟩ := Watched.bind_ok hrun
  rw [Watched.run_noteClash] at hnote
  cases hnote
  obtain ⟨q, n₂, hchoose, hrest, -⟩ := Watched.bind_ok hrest
  have hgives : q.1 = u := by
    have hscored : Watched.choose ctx dist vs o n =
        (Run.ofExcept (dist.logDensity n.store (u :: vs)) >>= fun score => pure (u, score)) n := by
      rw [Watched.choose, Run.store_bind, hu, hfree]
    rw [Watched.run_watch, hscored] at hchoose
    obtain ⟨score, n₃, -, hpure⟩ := Run.exists_of_bind hchoose
    cases hpure
    rfl
  obtain ⟨_, _, -, hrest, -⟩ := Watched.bind_ok hrest
  obtain ⟨_, _, -, hreturn, -⟩ := Watched.bind_ok hrest
  cases hreturn
  exact hgives

end Observed

theorem Fits.records (h : Fits m m₁ target w A o p) : o.output.isSome = true := by
  obtain ⟨t, ht, -⟩ := h.output
  rw [ht]
  rfl

/-- What a call has come to in the two runs, before it is recorded. -/
structure Chosen (m m₁ : Machine) (log : List Event) (A : Address) (r q : Value × Float) :
    Prop where
  self : Value.Alike (likeness m m₁ log) r.1 r.1
  recorded : held m m₁ A = some r.1 → q = r

section Calls

variable (hrec : Recorded m m₁ log)
include hrec

/-- A builtin that returns in the first run returns in the replay. -/
theorem compute_ok (hw : Beside m m₁ log w) {b : Builtin} {vs vs' : List Value}
    (hvs : ItemsAlike (likeness m m₁ log) vs vs')
    (hplain : b.orders = true → ∃ v ∈ vs, v.isInert = true)
    (h : b.compute w.first.store vs = .ok v) :
    Value.Alike (likeness m m₁ log) v v ∧ ∃ v', b.compute w.second.store vs' = .ok v' := by
  cases hb : b.compares with
  | false =>
    have hagree := Builtin.compute_agree w.first.store w.second.store hb hvs
    rw [h] at hagree
    generalize b.compute w.second.store vs' = y at hagree
    cases hagree with
    | ok hv => exact ⟨hrec.alike_self hv, _, rfl⟩
  | true =>
    have hlength : vs.length = 2 := by
      by_contra hne
      rw [Builtin.compute_of_length_ne hb hne] at h
      cases h
    obtain ⟨x, y, rfl⟩ := List.length_eq_two.mp hlength
    match hvs with
    | .cons (b := x') hx (.cons (b := y') hy .nil) =>
      have hrelation (r : Relation) (hplain : ∃ v ∈ [x, y], v.isInert = true)
          (h : Builtin.relation w.first.store r x y = .ok v) :
          Value.Alike (likeness m m₁ log) v v ∧
            ∃ v', Builtin.relation w.second.store r x' y' = .ok v' := by
        have heq : x.relate w.first.store r y = x'.relate w.second.store r y' := by
          obtain ⟨z, hz, hinert⟩ := hplain
          rcases List.mem_pair.mp hz with rfl | rfl
          · exact (hw.relate_eq r hy (hx.ofInert hinert)).2
          · exact (hw.relate_eq r hx (hy.ofInert hinert)).1
        unfold Builtin.relation at h ⊢
        rw [heq] at h
        obtain ⟨b, hb, hv⟩ := exists_of_bind_ok h
        cases hv
        rw [hb]
        exact ⟨.bool b, _, rfl⟩
      -- Equality never fails; an order comes out alike as soon as one operand is inert.
      cases b with
      | equal | notEqual =>
        cases h
        exact ⟨.bool _, _, rfl⟩
      | less | greater | lessEqual | greaterEqual => exact hrelation _ (hplain rfl) h
      | _ => cases hb

theorem callBuiltin_runs {b : Builtin} {vs vs' : List Value}
    (hvs : ItemsAlike (likeness m m₁ log) vs vs')
    (hplain : b.orders = true → ∃ v ∈ vs, v.isInert = true) :
    (simulation m m₁ log target).Runs A w (.watch (b.call vs)) (.watch (b.call vs'))
      fun _ v _ => Value.Alike (likeness m m₁ log) v v := by
  by_cases hb : b = .note
  · subst hb
    exact quiet_runs rfl rfl ⟨rfl, rfl⟩ ⟨⟨rfl, rfl⟩, rfl, rfl⟩
      (hrec.alike_self (hvs.getLast?_getD .null))
  · rw [Builtin.call_eq hb, Builtin.call_eq hb]
    refine Simulation.Runs.withStore fun hw => ?_
    cases hv : b.compute w.first.store vs with
    | error f => exact fails_runs nofun
    | ok v =>
      obtain ⟨hself, v', hv'⟩ := compute_ok hrec hw hvs hplain hv
      rw [hv']
      exact quiet_runs rfl rfl ⟨rfl, rfl⟩ ⟨⟨rfl, rfl⟩, rfl, rfl⟩ (hself.enroll rfl).2

variable (htarget : Observable m target)
include htarget

omit hrec in
theorem Fits.observed_eq (h : Fits m m₁ target w A o p) (hw : Beside m m₁ log w) :
    Evaluator.overlayValue? w.first.store o.target = target.bind (m.store.valueAt? · A) ∧
      Evaluator.overlayValue? w.second.store p.target = target.bind (m.store.valueAt? · A) := by
  rw [h.observed, h.observed']
  exact ⟨htarget.value_eq hw.keptIn, htarget.value_eq hw.keptIn'⟩

omit hrec htarget in
theorem Fits.forced_eq (h : Fits m m₁ target w A o p) (hw : Beside m m₁ log w) :
    Evaluator.overlayValue? w.first.store o.intervene = none ∧
      Evaluator.overlayValue? w.second.store p.intervene = held m m₁ A := by
  constructor
  · rw [h.forced]
    rfl
  · rw [overlayValue?_eq, h.forced', hw.held_eq, List.append_nil]

omit hrec in
/-- The replay settles on what the first run has recorded. -/
theorem verdict_runs {ctx : Context} {f f' : Value} (score : Float)
    (h : Fits m m₁ target w A o p)
    (hgiven : ∀ u, target.bind (m.store.valueAt? · A) = some u → held m m₁ A = some u)
    (hv : Value.Alike (likeness m m₁ log) v v) :
    (simulation m m₁ log target).Runs A w (.watch (Watched.verdict ctx f o v score))
      (.watch (Watched.verdict ctx f' p v' score)) fun _ => Chosen m m₁ log A := by
  refine Simulation.Runs.withStore fun hw => ?_
  obtain ⟨hforced, hforced'⟩ := h.forced_eq hw
  obtain ⟨hobserved, hobserved'⟩ := h.observed_eq htarget hw
  simp only [hforced, hforced', hobserved, hobserved']
  cases hu : target.bind (m.store.valueAt? · A) with
  | none =>
    refine basic.pureRun ⟨hv, fun hheld => ?_⟩
    rw [hheld]
    rfl
  | some u =>
    simp only [hgiven u hu, htarget.same_self hw.keptIn' hu, Bool.not_true, Bool.false_eq_true,
      if_false]
    exact basic.pureRun ⟨(htarget.alike hu).1, fun _ => rfl⟩

omit htarget in
theorem conclude_runs {f f' : Value} {vs vs' : List Value} {r q : Value × Float}
    (h : Fits m m₁ target w A o p) (hchosen : Chosen m m₁ log A r q) :
    (simulation m m₁ log target).Runs A w (Watched.recordCall f vs o r.1 >>= fun _ => pure r)
      (Watched.recordCall f' vs' p q.1 >>= fun _ => pure q)
      fun _ r q => Value.Alike (likeness m m₁ log) r.1 q.1 ∧ r.2 = q.2 := by
  refine basic.bind (recordCall_runs hrec h fun hheld => ?_) ?_
  · rw [hchosen.recorded hheld]
    exact hchosen.self
  · rintro w₁ - - - hheld
    rw [hchosen.recorded hheld]
    exact basic.pure ⟨hchosen.self, rfl⟩

theorem settle_runs {ctx : Context} {f f' : Value} {vs vs' : List Value} (score : Float)
    (hf : f ≠ .special .apply) (h : Fits m m₁ target w A o p)
    (hv : Value.Alike (likeness m m₁ log) v v) :
    (simulation m m₁ log target).Runs A w (.settle ctx f vs o v score)
      (.settle ctx f' vs' p v' score)
      fun _ r q => Value.Alike (likeness m m₁ log) r.1 q.1 ∧ r.2 = q.2 := by
  refine .withRelated fun hw => .foreseeing trivial fun r m' hrun he => ?_
  have hgiven (u : Value) (hu : target.bind (m.store.valueAt? · A) = some u) :
      held m m₁ A = some u := by
    have hobserved := (h.observed_eq htarget hw).1.trans hu
    rw [← settle_observed (h.forced_eq hw).1 hobserved hrun]
    exact (hrec.foreseen (Watched.logs_settle f hf vs score h.records) hrun he).1
  refine basic.bind noteClash_runs ?_
  rintro w₁ - - hl₁ -
  have h₁ := basic.site_of_later hl₁ h
  refine basic.bind (verdict_runs htarget score h₁ hgiven hv) ?_
  rintro w₂ r q hl₂ hchosen
  exact conclude_runs hrec (basic.site_of_later hl₂ h₁) hchosen

theorem applyBuiltin_runs {ctx : Context} {b : Builtin} {vs vs' : List Value}
    (hvs : ItemsAlike (likeness m m₁ log) vs vs') (h : Fits m m₁ target w A o p) :
    (simulation m m₁ log target).Runs A w (.applyBuiltin ctx b vs o) (.applyBuiltin ctx b vs' p)
      fun _ r q => Value.Alike (likeness m m₁ log) r.1 q.1 ∧ r.2 = q.2 := by
  refine .foreseeing trivial fun r m' hrun he => ?_
  -- The call is in the log of the first run, and with it whether one of its operands was plain.
  have hlogs : (Watched.applyBuiltin ctx b vs o).Logs Watched.RecordsRoot
      fun r => Watched.CallLog (.builtin b) vs r.1 :=
    Watched.logs_bind fun _ _ _ _ => Watched.logs_settle (.builtin b) nofun vs 0.0 h.records
  have hplain : b.orders = true → ∃ v ∈ vs, v.isInert = true := by
    have hplainly := hrec.plainly _ (hrec.foreseen hlogs hrun he).2
    intro horders
    simpa [Event.ordersPlainly, horders] using hplainly
  refine basic.bind (callBuiltin_runs hrec hvs hplain) ?_
  rintro w₁ v v' hl hv
  exact settle_runs hrec htarget 0.0 nofun (basic.site_of_later hl h) hv

/-- Where something is held, the replay chooses it, or what was observed. -/
theorem choose_runs {ctx : Context} {dist : Distribution} {vs vs' : List Value}
    (hvs : ItemsAlike (likeness m m₁ log) vs vs') (h : Fits m m₁ target w A o p)
    (hheld : held m m₁ A ≠ none)
    (hgiven : ∀ u, target.bind (m.store.valueAt? · A) = some u → held m m₁ A = some u) :
    (simulation m m₁ log target).Runs A w (.watch (Watched.choose ctx dist vs o))
      (.watch (Watched.choose ctx dist vs' p)) fun _ => Chosen m m₁ log A := by
  refine Simulation.Runs.withStore fun hw => ?_
  obtain ⟨hforced, hforced'⟩ := h.forced_eq hw
  obtain ⟨hobserved, hobserved'⟩ := h.observed_eq htarget hw
  obtain ⟨x, hx⟩ := Option.ne_none_iff_exists'.mp hheld
  simp only [hforced, hforced', hobserved, hobserved', hx]
  cases hu : target.bind (m.store.valueAt? · A) with
  | none =>
    -- The first run draws what the second one is forced to.
    cases hsample : dist.sample ctx vs w.first with
    | error f m' => exact fails_runs fun a n hn => by simp [bind, EStateM.bind, hsample] at hn
    | ok v m' =>
      obtain ⟨hself, hquiet⟩ := Distribution.sample_ok (fun _ => rfl) (hrec.items_self hvs) hsample
      refine quiet_runs (a := (v, 0.0)) ?_ rfl hquiet ⟨⟨rfl, rfl⟩, rfl, rfl⟩ ⟨hself, fun hv => ?_⟩
      · show EStateM.bind _ _ _ = _
        simp only [EStateM.bind, hsample]
        rfl
      · cases hx.symm.trans hv
        rfl
  | some u =>
    obtain ⟨hself, hinert⟩ : Value.Alike (likeness m m₁ log) u u ∧
        Value.Alike (likeness m m₁ log).inert u u := htarget.alike hu
    dsimp only
    rw [dist.logDensity_eq hself hvs fun hx => hw.relate_eq .lessEqual hx hinert]
    cases dist.logDensity w.second.store (u :: vs') with
    | error f => exact fails_runs nofun
    | ok score =>
      obtain rfl : x = u := Option.some.inj (hx.symm.trans (hgiven u hu))
      rw [htarget.same_self hw.keptIn' hu]
      exact basic.pureRun (a := (x, score)) ⟨hself, fun _ => rfl⟩

theorem applyRandom_runs {ctx : Context} {dist : Distribution} {vs vs' : List Value}
    (hvs : ItemsAlike (likeness m m₁ log) vs vs') (h : Fits m m₁ target w A o p) :
    (simulation m m₁ log target).Runs A w (.applyRandom ctx dist vs o)
      (.applyRandom ctx dist vs' p)
      fun _ r q => Value.Alike (likeness m m₁ log) r.1 q.1 ∧ r.2 = q.2 := by
  refine .withRelated fun hw => .foreseeing trivial fun r m' hrun he => ?_
  have hheld := (hrec.foreseen (Watched.logs_applyRandom dist vs h.records) hrun he).1
  have hgiven (u : Value) (hu : target.bind (m.store.valueAt? · A) = some u) :
      held m m₁ A = some u := by
    have hobserved := (h.observed_eq htarget hw).1.trans hu
    rw [← applyRandom_observed (h.forced_eq hw).1 hobserved hrun]
    exact hheld
  refine basic.bind noteClash_runs ?_
  rintro w₁ - - hl₁ -
  have h₁ := basic.site_of_later hl₁ h
  have hsome : held m m₁ A ≠ none := Option.ne_none_iff_exists'.mpr ⟨_, hheld⟩
  refine basic.bind (choose_runs hrec htarget hvs h₁ hsome hgiven) ?_
  rintro w₂ r q hl₂ hchosen
  refine basic.bind note_runs ?_
  rintro w₃ - - hl₃ -
  exact conclude_runs hrec (basic.site_of_later hl₃ (basic.site_of_later hl₂ h₁)) hchosen

omit hrec htarget in
/-- A rejection does not return, whether or not its report can be composed. -/
theorem rejects_ne_ok {α : Type} (shown : List Value) (notice : Store → Notice) (f : Fault)
    (n : Machine) {a : α} {n' : Machine} : (do
      Run.compose shown
      Run.notify (notice (← Run.store))
      Run.raise f : Run α) n ≠ .ok a n' := by
  intro hrun
  rcases Run.compose_bind_cases shown _ n with h | h
  · cases h.symm.trans hrun
  · cases h.symm.trans hrun

theorem overlaid (ctx : Context) : (simulation m m₁ log target).Overlaid ctx where
  remark _ _ := ⟨id, id⟩
  rejectExpression _ _ := fails_runs fun _ _ => rejects_ne_ok _ _ _ _
  capture _ := by
    refine basic.bindRun (basic.bindRun fresh_runs fun w₁ i j _ _ =>
      basic.pureRun (P := fun _ => Value.Alike (likeness m m₁ log)) (.tag trivial)) ?_
    rintro w₁ v v' - hv
    exact basic.pureRun ⟨hv, rfl⟩
  force hA hsite hv := force_runs hrec hA hsite hv
  gave hv := gave_runs hrec hv
  checkOutput hsite := checkOutput_runs hsite
  settle score hf _ _ _ hsite hv := settle_runs hrec htarget score hf hsite hv.self
  applyBuiltin _ hvs hsite := applyBuiltin_runs hrec htarget hvs hsite
  applyRandom _ _ hvs hsite := applyRandom_runs hrec htarget hvs hsite
  below a hsite := below_runs hrec htarget a hsite
  recordMap _ _ hsite hv :=
    (recordCall_runs hrec hsite fun _ => hv).mono fun _ _ _ _ _ => trivial
  defined _ _ := ⟨id, id⟩
  recordDefinition _ hsite hv := recordDefinition_runs hsite hv
  returned _ _ _ _ _ := ⟨id, id⟩
  rejectProcedure _ := fails_runs fun _ _ => rejects_ne_ok _ _ _ _

end Calls

/-! ## Names -/

theorem Chain.openedFor {id : FrameId} (h : Chain log (.frame id c) outer) :
    ∃ B source, OpenedFor log id B source ∧ source.scopeNames.Nodup := by
  cases h with
  | @frame B _ _ source _ hopened hapart _ =>
    rw [Term.opensApart, Bool.and_eq_true] at hapart
    exact ⟨B, source, ⟨c, hopened⟩, of_decide_eq_true hapart.1⟩

section Names

variable (hrec : Recorded m m₁ log)
include hrec

/-- A name that is found is one of the scope. -/
theorem Chain.mem_of_find (hw : Beside m m₁ log w) (h : Chain log c outer) {x : String}
    (hv : c.find .standard w.first (.text x) = .ok v) : x ∈ outer := by
  induction h with
  | top => exact TopLevel.mem_of_resolve hv
  | @frame B id c source outer hopened _ _ ih =>
    cases hu : (w.first.bindings id).valueAt? [.name x] with
    | some u =>
      have hstart := (hrec.range hopened).1
      exact List.mem_append_left _ (hrec.complete.mem_scopeNames hstart ⟨c, hopened⟩
        (hw.kept hstart hu))
    | none =>
      rw [Scope.find_unbound c hu] at hv
      exact List.mem_append_right _ (ih hv)

/-- What the first run finds under a name, the replay finds as well, also in frames as the first
run has left them. -/
theorem Chain.find_ok (hw : Beside m m₁ log w) (h : Chain log c outer)
    (hscopes : ScopesAlike (Twin m m₁) c d) {x : String}
    (hv : c.find .standard w.first (.text x) = .ok v) :
    ∃ v', d.find .standard w.second (.text x) = .ok v' ∧ Value.Alike (likeness m m₁ log) v v' := by
  induction h generalizing d with
  | top =>
    cases hscopes
    have hagree := TopLevel.resolve_standard_agree (L := likeness m m₁ log) (fun _ hs => hs) (.text x)
    exact ⟨v, hv, hagree.self_ok hv⟩
  | @frame B id c source outer hopened hapart hchain ih =>
    obtain ⟨hstart, hend⟩ := hrec.range hopened
    cases hscopes with
    | @frame _ j _ d htwin hscopes =>
      have hnew := (hw.new hstart).valueAt? [.name x]
      rcases rel_cases hnew with ⟨hu, hu'⟩ | ⟨u, u', hu, hu', huu'⟩
      · rw [Scope.find_unbound c hu] at hv
        have hnone : (w.second.bindings j).valueAt? [.name x] = none := by
          rcases htwin with ⟨-, rfl⟩ | ⟨-, -, rfl⟩
          · exact hu'
          · -- A name that is found further out is not bound in this frame, not even later.
            rw [hw.old hend, Option.eq_none_iff_forall_ne_some]
            intro u hbound
            have hinner := hrec.complete.mem_scopeNames hstart ⟨c, hopened⟩ hbound
            exact Term.not_mem_of_opensApart hapart hinner (hchain.mem_of_find hrec hw hv)
        rw [Scope.find_unbound d hnone]
        exact ih hscopes hv
      · rw [Scope.find_bound c hu] at hv
        cases hv
        rcases htwin with ⟨-, rfl⟩ | ⟨-, -, rfl⟩
        · exact ⟨u', Scope.find_bound d hu', huu'⟩
        · have hbound : (w.second.bindings j).valueAt? [.name x] = some v := by
            rw [hw.old hend]
            exact hw.kept hstart hu
          exact ⟨v, Scope.find_bound d hbound, hrec.alike_self huu'⟩

end Names

/-! ## Code -/

theorem openFrame_runs (source : Term) (hchain : Chain log c outer)
    (hapart : source.opensApart outer = true) (hscopes : ScopesAlike (Twin m m₁) c d) :
    (simulation m m₁ log target).Runs A w (.openFrame source.toTrace c)
      (.openFrame source.toTrace d) fun _ c' d' => Chain log c' (source.scopeNames ++ outer) ∧
        ScopesAlike (Twin m m₁) c' d' ∧ InnermostAlike (Again m m₁) c' d' := by
  intro hw he
  rw [Watched.run_openFrame, Watched.run_openFrame]
  rw [Watched.events_openFrame] at he
  have hopened := he _ List.mem_cons_self
  rw [Event.below, List.append_nil] at hopened
  have hagain : Again m m₁ w.first.frames.size w.second.frames.size := ⟨hw.start, hw.size⟩
  refine ⟨⟨id, id⟩, ⟨hw.left, hw.rooted, hw.rooted', hw.outputs, hw.draws, hw.spare, ?_, ?_,
    fun hi => ?_, fun hi => ?_, fun hi hv => ?_⟩, .frame hopened hapart hchain,
    .frame (.inl hagain) hscopes, .frame _ _ hagain⟩
  · exact Nat.le_trans hw.start (by simp)
  · have hsize := hw.size
    simp only [Array.size_push]
    omega
  · rw [Machine.bindings_push]
    exact hw.old hi
  · rw [Machine.bindings_push, Machine.bindings_push]
    exact hw.new hi
  · rw [Machine.bindings_push] at hv
    exact hw.kept hi hv

section Innermost

variable (h : InnermostAlike (Again m m₁) c d)
include h

/-- Names are bound in frames that are opened again. -/
theorem innermost?_iff {i : FrameId} :
    d.innermost? = some (i + opened m m₁) ↔ c.innermost? = some i := by
  cases h with
  | top | absent => exact ⟨nofun, nofun⟩
  | @frame i' j' c d hagain =>
    obtain ⟨-, rfl⟩ := hagain
    simp [Scope.innermost?]

theorem innermost?_ne (hrec : Recorded m m₁ log) {i : FrameId} (hi : i < m₁.frames.size) :
    d.innermost? ≠ some i := by
  cases h with
  | top | absent => nofun
  | @frame i' j' c d hagain =>
    obtain ⟨hstart, rfl⟩ := hagain
    have hsize := hrec.size
    have hle : m₁.frames.size ≤ i' + (m₁.frames.size - m.frames.size) := by omega
    rintro ⟨⟩
    exact Nat.not_lt.mpr hle hi

end Innermost

/-- Binding a pattern, as the first run has done, leaves the machines beside each other. -/
theorem Beside.rebinds (hw : Beside m m₁ log w) (hrec : Recorded m m₁ log)
    (hchain : Chain log c outer) (hscopes : InnermostAlike (Again m m₁) c d) {s : Shape} {w' : Pair}
    (h : Simulation.Rebinds (likeness m m₁ log) w c d s.names w')
    (hbound : ⟨A, .bound c s.toTrace (c.bindings w'.first)⟩ ∈ log) : Beside m m₁ log w' := by
  refine ⟨hw.left, ?_, ?_, ?_, ?_, ?_, ?_, ?_, fun {i} hi => ?_, fun {i} hi => ?_,
    fun {i x v} hi hv => ?_⟩
  · rw [h.first.store]
    exact hw.rooted
  · rw [h.second.store]
    exact hw.rooted'
  · rw [h.first.store, h.second.store]
    exact hw.outputs
  · rw [h.second.rest]
    exact hw.draws
  · rw [h.second.rest]
    exact hw.spare
  · rw [h.first.size]
    exact hw.start
  · rw [h.first.size, h.second.size]
    exact hw.size
  · rw [h.second.others (innermost?_ne hscopes hrec hi)]
    exact hw.old hi
  · by_cases hid : c.innermost? = some i
    · exact h.alike hid ((innermost?_iff hscopes).mpr hid)
    · rw [h.first.others hid, h.second.others fun hj => hid ((innermost?_iff hscopes).mp hj)]
      exact hw.new hi
  -- A frame binds each name once, so that what a name is bound to now it is bound to at the end.
  · by_cases hx : c.innermost? = some i ∧ x ∈ s.names
    · obtain ⟨hid, hx⟩ := hx
      cases c with
      | top | absent => cases hid
      | frame id c =>
        cases hid
        obtain ⟨B, source, hopened, hnames⟩ := hchain.openedFor
        have hlook := hrec.complete.look_bound hi hopened hnames hbound hx
        exact hlook.trans hv
    · have hv' : (w.first.bindings i).valueAt? [.name x] = some v := by
        by_cases hid : c.innermost? = some i
        · rw [← h.first.unnamed fun hmem => hx ⟨hid, hmem⟩]
          exact hv
        · rw [← h.first.others hid]
          exact hv
      exact hw.kept hi hv'

theorem alike_of_isData (h : v.isData = true) : Value.Alike (likeness m m₁ log) v v :=
  (Machine.Plain.covers (fun _ h => h) fun _ _ => rfl).alike v (.ofData h)

theorem bindPattern_runs (hrec : Recorded m m₁ log) {ctx : Context} {s : Shape}
    (hchain : Chain log c outer) (hscopes : InnermostAlike (Again m m₁) c d)
    (hv : Value.Alike (likeness m m₁ log) v v') :
    (simulation m m₁ log target).Runs A w (.bindPattern ctx c s.toTrace v)
      (.bindPattern ctx d s.toTrace v') fun _ _ _ => True := by
  intro hw he
  rw [Watched.run_bindPattern, Watched.run_bindPattern]
  have hframe {i j : FrameId} (hij : Again m m₁ i j) :
      FrameAlike (likeness m m₁ log) (w.first.bindings i) (w.second.bindings j) := by
    obtain ⟨hi, rfl⟩ := hij
    exact hw.new hi
  have hsize {i j : FrameId} (hij : Again m m₁ i j) :
      i < w.first.frames.size ↔ j < w.second.frames.size := by
    rw [hij.2, hw.size, Nat.add_lt_add_iff_right]
  obtain ⟨m', n', hrebinds, ⟨hok, hok'⟩ | ⟨f, g, -, herror, herror'⟩⟩ :=
    s.matchBind_cases ctx alike_of_isData hw.hasText_eq hscopes hframe hsize hv
  · rw [Watched.events_bindPattern hok] at he
    have hbound := he _ List.mem_cons_self
    rw [Event.below, List.append_nil] at hbound
    rw [hok, hok']
    refine ⟨?_, hw.rebinds hrec hchain hscopes hrebinds hbound, trivial⟩
    have hstore := hrebinds.first.store
    have hstore' := hrebinds.second.store
    exact ⟨fun ht => hstore ▸ ht, fun ht => hstore' ▸ ht⟩
  · rw [herror, herror']
    exact .inl trivial

theorem programmed {ctx : Context} (htop : ctx.topLevel = .standard)
    (hrec : Recorded m m₁ log) :
    (simulation m m₁ log target).Programmed ctx (Placed m m₁ log) (Bound m m₁ log) where
  toBasic := basic
  code_iff := .rfl
  parts_iff := .rfl
  entered_iff := .rfl
  binding_iff := .rfl
  operands {A t ts c d} h i u hu := by
    obtain ⟨outer, hhygienic, hplaced⟩ := h
    have hall : Term.allHygienic outer (t :: ts) = true := hhygienic
    exact ⟨outer, Term.allHygienic_getElem? hall hu, hplaced⟩
  branches {A p y n c d} h := by
    obtain ⟨outer, hhygienic, hplaced⟩ := h
    rw [Term.hygienic, Bool.and_eq_true, Bool.and_eq_true] at hhygienic
    obtain ⟨⟨hp, hy⟩, hn⟩ := hhygienic
    exact ⟨⟨outer, hp, hplaced⟩, ⟨outer, hy, hplaced⟩, ⟨outer, hn, hplaced⟩⟩
  definition h := by
    obtain ⟨outer, hhygienic, hchain, hscopes, hinnermost⟩ := h
    exact ⟨⟨outer, hhygienic, hchain, hscopes, hinnermost⟩, outer, hchain, hinnermost⟩
  tagPart h := nomatch h.choose_spec.1
  lookup {w A name c d} h := Simulation.Runs.withMachine fun hw => by
    obtain ⟨outer, -, hchain, hscopes, -⟩ := h
    rw [htop]
    cases hv : c.find .standard w.first (.text name) with
    | error f => exact fails_runs nofun
    | ok v =>
      obtain ⟨v', hv', halike⟩ := hchain.find_ok hrec hw hscopes hv
      rw [hv']
      exact basic.ofExcept (.ok halike)
  data hv := alike_of_isData hv
  closure {w A p t name c d label} h hlabel := by
    obtain ⟨outer, hhygienic, hchain, hscopes, -⟩ := h
    exact fresh_runs.mono fun _ _ _ _ _ =>
      ⟨.ofData hlabel, p, t, name, outer, rfl, hhygienic, hchain, hscopes⟩
  openBlock {w A ts c d} h := by
    obtain ⟨outer, hhygienic, hchain, hscopes, -⟩ := h
    rw [Term.hygienic, Bool.and_eq_true] at hhygienic
    refine (openFrame_runs (.block ts) hchain hhygienic.1 hscopes).mono ?_
    rintro w₁ c' d' - hplaced i t ht
    exact ⟨_, Term.allHygienic_getElem? hhygienic.2 ht, hplaced⟩
  openClosure h := by
    obtain ⟨-, p, t, name, outer, rfl, hhygienic, hchain, hscopes⟩ := h
    rw [Term.hygienic, Bool.and_eq_true] at hhygienic
    refine (openFrame_runs (.gen p t name) hchain hhygienic.1 hscopes).mono ?_
    rintro w₁ c' d' - ⟨hchain', hscopes', hinnermost⟩
    exact ⟨p, t, name, rfl, ⟨_, hhygienic.2, hchain', hscopes', hinnermost⟩, _, hchain', hinnermost⟩
  bindPattern h hv := by
    obtain ⟨outer, hchain, hinnermost⟩ := h
    exact bindPattern_runs hrec hchain hinnermost hv
  invoked _ _ := ⟨id, id⟩
  relocate h _ := nomatch h.choose_spec.1

theorem lawful {ctx : Context} (htop : ctx.topLevel = .standard) (hrec : Recorded m m₁ log)
    (htarget : Observable m target) : (simulation m m₁ log target).Lawful ctx where
  toBasic := basic
  toCoded := (programmed htop hrec).coded
  toOverlaid := overlaid hrec htarget ctx

/-! ## Runs from the start -/

/-- What has neither procedures nor tags does not reach a new output. -/
theorem clear_withOutput {x : Item} (h : m.Plain x) :
    m.withOutput.Clear (.trace m.store.next) x := by
  have hrooted : m.store.Rooted m.withOutput.store := .start
  have hkept : m.KeptIn m.Plain m.withOutput.store := keptIn_plain hrooted.size hrooted.old
  refine ⟨⟨fun y hy => (hkept.reached h hy).1.self, fun n hn => ?_, fun id c hc => ?_⟩, ?_⟩
  · exact Nat.lt_of_lt_of_le (hkept.reached h hn).sound.cell_lt hrooted.size
  · exact (hkept.reached h hc).sound.frame_lt
  · rintro n _ a hn ⟨⟩ hfind
    obtain ⟨i, hi, heq⟩ := hrooted.find?_fresh hfind
    cases heq
    exact Nat.not_lt.mpr hi (hkept.reached h hn).sound.cell_lt

/-- There are no other frames than before. -/
theorem bindings_withOutput {i : FrameId} (hi : m.frames.size ≤ i) :
    m.withOutput.bindings i = .empty :=
  Machine.bindings_of_size_le hi

section Start

variable {x : Watched (Value × Float)} {K : Address → Deed → Prop}
variable {R : Value × Float → List Event → Prop} {r : Value × Float}

theorem Recorded.ofTold (h : Recording.Told m target x) (hlogs : x.Logs K R)
    (hrun : x.run m.withOutput = .ok r m₁)
    (hplainly : ∀ e ∈ x.events m.withOutput, e.ordersPlainly = true) :
    Recorded m m₁ (x.events m.withOutput) := by
  have haccounts := h.accounts hrun
  have hsize : m₁.frames.size = m.frames.size + _ := haccounts.size
  refine ⟨h.rooted hrun, ?_, ⟨(h.logs hlogs).1, fun e he => (h.proper e he).sited,
    haccounts.nodup_openings, fun a => ?_, fun {id} hid x => ?_⟩, fun {A id c source} hopened => ?_,
    fun e he => (h.proper e he).regular, hplainly⟩
  · rw [hsize]
    exact Nat.le_add_right _ _
  · have houtput := h.output a
    rw [Run.leaves, hrun] at houtput
    exact houtput
  · rw [haccounts.look]
    refine after_congr ?_
    rw [Machine.look, bindings_withOutput hid]
    rfl
  · have hmem : id ∈ openings (x.events m.withOutput) := List.mem_filterMap.mpr ⟨_, hopened, rfl⟩
    rw [haccounts.opened, List.mem_range'_1] at hmem
    rw [hsize]
    exact hmem

theorem Beside.atStart (hrec : Recorded m m₁ log) :
    Beside m m₁ log ⟨m.withOutput, m₁.withOutput⟩ := by
  have hsize : m₁.frames.size = m.frames.size + opened m m₁ := (Nat.add_sub_of_le hrec.size).symm
  have hnone (n : Machine) (a : Address) : n.withOutput.store.valueAt? n.store.next a = none :=
    Store.Rooted.valueAt?_start a
  refine ⟨hrec.rooted, .start, .start, fun a => ?_, rfl, rfl, Nat.le_refl _, hsize, fun _ => rfl,
    fun hi => ?_, fun hi hv => ?_⟩
  · rw [hnone, hnone]
    exact .none
  · rw [bindings_withOutput hi, bindings_withOutput (hsize ▸ Nat.add_le_add_right hi _)]
    exact .empty
  · rw [bindings_withOutput hi] at hv
    cases hv

theorem overlays_runs : (simulation m m₁ log target).Runs [] w
    (.overlays none target (.trace m.store.next))
    (.overlays (some m.store.next) target (.trace m₁.store.next))
    fun w' => Fits m m₁ target w' [] := by
  intro hw _
  rw [Watched.run_overlays (hw.rooted.writable Store.fresh_next),
    Watched.run_overlays (hw.rooted'.writable Store.fresh_next)]
  refine ⟨⟨id, id⟩, hw, rfl, rfl, ?_, ?_, ⟨_, rfl, rfl⟩, _, rfl, rfl⟩
  · cases target <;> rfl
  · cases target <;> rfl

/-- A replay that has ended as the first run did. -/
theorem Beside.repeats {m₂ : Machine} (hw : Beside m m₁ log ⟨m₁, m₂⟩) (hrec : Recorded m m₁ log)
    (hv : Value.Alike (likeness m m₁ log) v v') :
    Repeats m₁ m.store.next v m₂ m₁.store.next v' := by
  have hupTo {u u' : Value} (hu : Value.Alike (likeness m m₁ log) u u') :
      Value.Alike (.upTo (Twin m m₁)) u u' :=
    Value.Alike.mono (L := likeness m m₁ log) (fun _ _ => trivial) (fun _ _ _ _ _ => trivial)
      (fun _ _ _ _ _ _ ⟨_, _, _, _, _, _, _, _, hscopes⟩ => hscopes) (fun _ _ => trivial)
      (fun _ _ => id) hu
  refine ⟨hw.draws, hw.spare, Twin m m₁, ?_, hupTo hv, fun a => ?_⟩
  · rintro i j (⟨hi, rfl⟩ | ⟨hstart, hend, rfl⟩)
    · exact (hw.new hi).mono hupTo
    -- A frame of the first run is its own counterpart as well: the second run leaves it alone.
    · have hold : m₂.bindings j = m₁.bindings j := hw.old hend
      rw [hold]
      exact ((hw.new hstart).left hrec.alike_self).mono hupTo
  · rcases rel_cases (hw.outputs a) with ⟨hu, hu'⟩ | ⟨u, u', hu, hu', huu'⟩
    · rw [hu, hu']
      exact .none
    · rw [hu, hu']
      exact .some (hupTo huu')

end Start

/-- A run that is repeated with its output as the intervention returns the same, if every order
that it has tested was between operands one of which has no closures and tags. -/
theorem eval_repeats {ctx : Context} (htop : ctx.topLevel = .standard) {m m₁ : Machine}
    {exp : Trace} (hexp : Expression.Hygienic exp) {target : Option Trace}
    (hplain : ∀ t ∈ target, m.Plain (.trace t)) (horderly : ∀ t ∈ target, m.Orderly (.trace t))
    {output : Trace} {v : Value} {score : Float}
    (hrun : (Watched.recording (Watched.eval ctx (.trace exp) .top none target)).run m =
      .ok (output, v, score) m₁)
    (hplainly : ∀ e ∈ (Watched.recording (Watched.eval ctx (.trace exp) .top none target)).events m,
      e.ordersPlainly = true) :
    ∃ output' v' m₂,
      (Watched.recording (Watched.eval ctx (.trace exp) .top (some output) target)).run m₁ =
        .ok (output', v', score) m₂ ∧ Repeats m₁ output v m₂ output' v' := by
  obtain ⟨e, rfl, he⟩ := hexp
  obtain ⟨rfl, hfirst⟩ := Watched.recording_ok hrun
  rw [Watched.events_recording] at hplainly
  have hclear : ∀ t ∈ target, m.withOutput.Clear (.trace m.store.next) (.trace t) :=
    fun t ht => clear_withOutput (hplain t ht)
  have hbase : Relevance.ClearBases m.withOutput (.trace m.store.next) { target } { target } :=
    ⟨nofun, hclear, nofun, hclear⟩
  have hstays : (Watched.eval ctx (.trace e.toTrace) .top none target
      (.trace m.store.next)).Stays m.withOutput := fun a ha =>
    Relevance.eval_stays htop ⟨e, rfl, Term.isStationary_of_hygienic he⟩ hbase hfirst _ ha rfl
  have hread : ∀ t, t ∈ none ∨ t ∈ target → m.Plain (.trace t) :=
    fun t ht => hplain t (ht.resolve_left nofun)
  have htold := Recording.evalTerm_told htop hread e hstays
  have hlogs := Watched.logs_eval ctx (.trace e.toTrace) .top none target m.store.next
  have hrec := Recorded.ofTold htold hlogs hfirst hplainly
  have hcode (log : List Event) (t : Trace) (ht : Value.trace e.toTrace = .trace t) :
      (simulation m m₁ log target).code [] t .top .top := by
    cases ht
    exact ⟨e, rfl, _, he, .top, .top, .top⟩
  have hends := (lawful htop hrec ⟨hplain, horderly⟩).eval (.trace (.ofData e.isData_toTrace))
    (hcode _) overlays_runs
    (Beside.atStart hrec) fun _ he => he
  rw [hfirst] at hends
  revert hends
  cases hsecond : (Watched.eval ctx (.trace e.toTrace) .top (some m.store.next) target
    (.trace m₁.store.next)).run m₁.withOutput with
  | error f m₂ => exact False.elim
  | ok q m₂ =>
    obtain ⟨v', score'⟩ := q
    rintro ⟨-, hw, hwalked, hscore⟩
    cases hscore
    -- The evaluation of an expression records nothing at its root.
    have hroot : held m m₁ [] = none := by
      rw [Option.eq_none_iff_forall_ne_some]
      intro u hu
      obtain ⟨-, hmarks, -⟩ := hlogs [] m.withOutput hrec.regular
      exact hmarks _ (hrec.held_iff.mp hu) rfl rfl
    refine ⟨m₁.store.next, v', m₂, ?_, hw.repeats hrec (hwalked.alike hroot)⟩
    rw [Watched.run_recording, hsecond]

/-- A procedure that throws a coin with a bias that was drawn, if the bias is small. -/
def biasedCoin : Term :=
  .application (.gen (.tuple [.name "coin"]) (.block [
      .definition (.name "bias") (.application (.reference "uniform")
        [.literal (.int 0) rfl, .literal (.int 1) rfl]) (by decide),
      .definition (.name "throw") (.gen (.tuple [])
        (.application (.reference "coin") [.reference "bias"]) none) (by decide),
      .conditional (.application (.reference "<") [.reference "bias", .literal (.float 0.75) rfl])
        (.application (.reference "throw") []) (.reference "throw")]) none)
    [.reference "flip"]

/-- A bias that was observed. -/
def seenBias : Trace :=
  .tree none [(.name "call", .tree none [(.index 0, .tree none [(.name "bias",
    .tree none [(.name "uniform", .leaf (.float 0.25))])])])]

theorem biasedCoin_repeats :
    ∃ output v score m₁,
      (Watched.recording (Watched.eval .halves (.trace biasedCoin.toTrace) .top none
        (some seenBias))).run {} = .ok (output, v, score) m₁ ∧
      m₁.draws ≠ 0 ∧
      ∃ output' v' m₂,
        (Watched.recording (Watched.eval .halves (.trace biasedCoin.toTrace) .top (some output)
          (some seenBias))).run m₁ = .ok (output', v', score) m₂ ∧
        Repeats m₁ output v m₂ output' v' := by
  have hplain : ∀ t ∈ some seenBias, ({} : Machine).Plain (.trace t) := by
    rintro _ ⟨⟩
    exact .ofData rfl
  have horderly : ∀ t ∈ some seenBias, ({} : Machine).Orderly (.trace t) := by
    rintro _ ⟨⟩
    exact .single (.single (.single (.single (.leaf rfl))))
  have hplainly : ((Watched.recording (Watched.eval .halves (.trace biasedCoin.toTrace) .top none
      (some seenBias))).events {}).all Event.ordersPlainly = true := by
    decide +kernel
  have hdraws : ((Watched.recording (Watched.eval .halves (.trace biasedCoin.toTrace) .top none
      (some seenBias))).run.leaves {}).draws ≠ 0 := by
    decide +kernel
  obtain ⟨⟨output, v, score⟩, m₁, hrun⟩ := exists_of_returns (x := (Watched.recording
    (Watched.eval .halves (.trace biasedCoin.toTrace) .top none (some seenBias))).run {})
    (by decide +kernel)
  rw [Run.leaves, hrun] at hdraws
  exact ⟨output, v, score, m₁, hrun, hdraws,
    eval_repeats rfl ⟨biasedCoin, rfl, by decide +kernel⟩ hplain horderly hrun
      (List.all_eq_true.mp hplainly)⟩

/-- Lists that hold one procedure, compared after one of them was defined. -/
def comparedLists : Term :=
  .application (.gen (.name "xs") (.block [.definition (.name "ys") (.reference "xs") (by decide),
    .application (.reference "<") [.reference "xs", .reference "ys"]]) none)
    [.gen (.tuple []) (.literal (.int 1) rfl) none]

/-- The lists compare in a run and do not compare when it is repeated. -/
theorem comparedLists_diverge : Expression.Hygienic comparedLists.toTrace ∧
    ∃ output v score m₁,
      (Watched.recording (Watched.eval .halves (.trace comparedLists.toTrace) .top none none)).run
        {} = .ok (output, v, score) m₁ ∧
      ∀ r m₂, (Watched.recording (Watched.eval .halves (.trace comparedLists.toTrace) .top
        (some output) none)).run m₁ ≠ .ok r m₂ := by
  have hfails : returns ((Watched.recording (Watched.eval .halves (.trace comparedLists.toTrace)
      .top (some (.cell 0)) none)).run ((Watched.recording (Watched.eval .halves
        (.trace comparedLists.toTrace) .top none none)).run.leaves {})) = false := by
    decide +kernel
  obtain ⟨⟨output, v, score⟩, m₁, hrun⟩ := exists_of_returns (x := (Watched.recording
    (Watched.eval .halves (.trace comparedLists.toTrace) .top none none)).run {})
    (by decide +kernel)
  have houtput : output = .cell 0 := (Watched.recording_ok hrun).1
  rw [Run.leaves, hrun, ← houtput] at hfails
  refine ⟨⟨comparedLists, rfl, by decide +kernel⟩, output, v, score, m₁, hrun, fun r m₂ hr => ?_⟩
  rw [hr] at hfails
  cases hfails

end Replay
end ProbTrace
