import ProbTrace.Proofs.Account
import ProbTrace.Proofs.Comparison
import ProbTrace.Proofs.Copy
import ProbTrace.Proofs.Programmed
import ProbTrace.Proofs.ReadOnly

/-!
# What a run records

A run of syntax trees with a new output, in which nothing is evaluated under the overlays of a
tag, keeps a log that accounts for its output and for its frames.  Every value that a call or a
definition gives is recorded at its address, and nothing else is, so that the output holds
exactly what the log says.

The run is beside itself in a simulation.  All its closures are closures of syntax trees, and
its intervention and its target hold no procedures, so that every expression that it walks is
a syntax tree whose place is known.
-/

namespace ProbTrace

/-- What a call gives is what was observed at its address.  Calls of `apply` pass on what they
are given, and calls of `map` do not look. -/
def Event.Honours (s : Store) (target : Option Trace) (e : Event) : Prop :=
  match e.deed with
  | .returned proc _ v => proc = .special .apply ∨ proc = .special .map ∨
      ∀ u ∈ target.bind (s.valueAt? · e.address), v = u
  | _ => True

/-- A run in which nothing is evaluated under the overlays of a tag. -/
def Watched.Stays {α : Type} (x : Watched α) (m : Machine) : Prop :=
  ∀ a, ⟨a, .relocated⟩ ∉ x.events m

namespace Recording

section Relation

variable (m : Machine) (F : FrameId → Prop) (log : List Event) (target : Option Trace)

/-- Values of the run, each alike to itself only. -/
abbrev likeness : Likeness :=
  .copying F (fun _ => True) (fun _ => True) fun _ => True

/-- The machines of the run and of its copy. -/
structure Kept (w : Pair) : Prop extends w.Copies (likeness F) F m.frames.size where
  rooted : m.store.Rooted w.first.store

/-- The overlays at an address of the run. -/
structure Fits (s : Store) (A : Address) (o : Overlays Trace) : Prop where
  intervene : ∀ t ∈ o.intervene, m.Plain (.trace t)
  target : o.target = target.bind (m.store.find? · A)
  output : ∃ t, o.output = some t ∧ s.find? m.store.next A = some t

/-- The entries that the log may have. -/
structure Proper (e : Event) : Prop where
  regular : e.Regular
  sited : e.Sited log m.frames.size
  honours : e.Honours m.store target

/-- Syntax trees and where they are walked. -/
def Placed (A : Address) (t : Term) (c d : Scope) : Prop :=
  ScopesAlike (Seen F) c d ∧ Sited log m.frames.size A t.sites c

/-- Patterns and where they are bound. -/
def Bound (A : Address) (p : Shape) (c d : Scope) : Prop :=
  ScopesAlike (Seen F) c d ∧ Sited log m.frames.size A [([], p)] c

/-- The run beside itself. -/
def simulation : Simulation where
  like := likeness F
  related := Kept m F
  advance w es w' := Accounts m.store.next es w.first w'.first ∧ ∀ e ∈ es, Proper m log target e
  site w A o p := o = p ∧ Fits m target w.first.store A o
  code := Simulation.TermAt (Placed m F log)
  parts := Simulation.PartsAt (Placed m F log)
  entered := Simulation.ProcedureAt (Placed m F log) (Bound m F log)
  binding := Simulation.ShapeAt (Bound m F log)
  walked _ := Value.Alike (likeness F)
  assumed e := e ∈ log ∧ e.deed ≠ .relocated
  lenient := False
  halted w es w' _ _ := (∀ a, w'.first.look m.store.next (.output a) =
      after es (w.first.look m.store.next) (.output a)) ∧ ∀ e ∈ es, Proper m log target e

end Relation

variable {m : Machine} {F : FrameId → Prop} {log : List Event} {target : Option Trace}
variable {w : Pair} {A B : Address} {o : Overlays Trace} {v v' : Value} {c d : Scope}

theorem basic : (simulation m F log target).Basic where
  advance_refl _ := ⟨.refl, fun _ he => (List.not_mem_nil he).elim⟩
  advance_append h h' := ⟨h.1.append h'.1, List.forall_mem_append.mpr ⟨h.2, h'.2⟩⟩
  site_later hadv hsite := by
    obtain ⟨heq, hintervene, htarget, t, ht, hfind⟩ := hsite
    exact ⟨heq, hintervene, htarget, t, ht, hadv.1.reached hfind⟩
  halted_append hadv hhalt := by
    refine ⟨fun a => ?_, List.forall_mem_append.mpr ⟨hadv.2, hhalt.2⟩⟩
    rw [hhalt.1, hadv.1.look, after_append]
  fault _ _ := ⟨fun _ => rfl, fun _ he => (List.not_mem_nil he).elim⟩
  tooDeep _ := ⟨fun _ => rfl, fun _ he => (List.not_mem_nil he).elim⟩
  text hw hv := hw.hasText_eq hv

theorem alike_of_isData (h : v.isData = true) : Value.Alike (likeness F) v v :=
  (Machine.Plain.covers (m := {}) (fun _ _ => trivial) fun _ _ => rfl).alike v (.ofData h)

/-- An entry that says nothing of the state. -/
theorem silent_advance {e : Event} (htells : ∀ l, e.tells l = none) (hopened : e.opened? = none)
    (hproper : Proper m log target e) : (simulation m F log target).advance w [e] w :=
  ⟨.silent htells hopened, fun _ he => List.mem_singleton.mp he ▸ hproper⟩

/-! ## Overlays -/

theorem Kept.edit {s : Store} (hw : Kept m F w) (hs : m.store.Rooted s) :
    Kept m F ⟨{ w.first with store := s }, { w.second with store := s }⟩ :=
  ⟨hw.withStore s, hs⟩

theorem Kept.keptIn (hw : Kept m F w) : m.KeptIn m.Sound w.first.store :=
  hw.rooted.toGrown.keptIn

/-- Below a plain overlay there is what was there. -/
theorem Kept.find?_eq (hw : Kept m F w) {overlay : Option Trace}
    (h : ∀ t ∈ overlay, m.Plain (.trace t)) (a : Address) :
    overlay.bind (w.first.store.find? · a) = overlay.bind (m.store.find? · a) := by
  cases overlay with
  | none => rfl
  | some t => exact hw.keptIn.find?_eq (h t rfl).sound a

theorem plain_below {overlay : Option Trace} (h : ∀ t ∈ overlay, m.Plain (.trace t)) (a : Address) :
    ∀ u ∈ overlay.bind (m.store.find? · a), m.Plain (.trace u) := by
  intro u hu
  obtain ⟨t, ht, hu⟩ := Option.bind_eq_some_iff.mp hu
  exact (h t ht).find? hu

/-- The values of a plain overlay are those that were there, and they are alike to
themselves. -/
theorem Kept.valueAt?_eq (hw : Kept m F w) {overlay : Option Trace}
    (h : ∀ t ∈ overlay, m.Plain (.trace t)) (a : Address) :
    overlay.bind (w.first.store.valueAt? · a) = overlay.bind (m.store.valueAt? · a) ∧
      Option.Rel (Value.Alike (likeness F)) (overlay.bind (w.first.store.valueAt? · a))
        (overlay.bind (w.second.store.valueAt? · a)) := by
  rw [← hw.store]
  cases overlay with
  | none => exact ⟨rfl, .none⟩
  | some t =>
    have hfind := hw.keptIn.find?_eq (h t rfl).sound a
    simp only [Option.bind_some, Store.valueAt?, hfind]
    cases hu : m.store.find? t a with
    | none => exact ⟨rfl, .none⟩
    | some u =>
      have hplain := (h t rfl).find? hu
      simp only [Option.bind_some, hw.keptIn.value?_eq hplain.sound, true_and]
      cases hx : m.store.value? u with
      | none => exact .none
      | some x =>
        exact .some ((Machine.Plain.covers (fun _ _ => trivial) fun _ _ => rfl).alike x (hplain.refers (.held hx)))

section Target

variable (htarget : ∀ t ∈ target, m.Plain (.trace t))
include htarget

/-- What a call observes is what the target holds at its address. -/
theorem Fits.observed (hw : Kept m F w) {s : Store} (ho : Fits m target s A o) :
    Evaluator.overlayValue? w.first.store o.target = target.bind (m.store.valueAt? · A) := by
  have hplain := plain_below htarget A
  rw [← ho.target] at hplain
  rw [overlayValue?_eq, (hw.valueAt?_eq hplain []).1, ho.target]
  cases target with
  | none => rfl
  | some t =>
    simp only [Option.bind_some, Store.valueAt?]
    cases m.store.find? t A <;> rfl

theorem below_runs {p : Overlays Trace} (a : Address)
    (h : (simulation m F log target).site w B o p) :
    (simulation m F log target).Runs A w (.watch (Run.edit (o.below a)))
      (.watch (Run.edit (p.below a))) fun w' q r =>
        (simulation m F log target).site w' (B ++ a) q r := by
  intro hw _
  obtain ⟨rfl, ho⟩ := h
  obtain ⟨t, ht, hfind⟩ := ho.output
  obtain ⟨u, s', hreach, hrooted, hextends, hu⟩ := hw.rooted.reach hfind a
  have hsecond : t.reach a w.second.store = .ok u s' := hw.store ▸ hreach
  simp only [Watched.run_watch, Run.edit_ok (Overlays.below_reach ht hreach),
    Run.edit_ok (Overlays.below_reach ht hsecond), ← hw.store]
  have hplain := plain_below htarget B
  rw [← ho.target] at hplain
  refine ⟨⟨.reach hextends, fun _ he => (List.not_mem_nil he).elim⟩, hw.edit hrooted, rfl,
    ?_, ?_, u, rfl, hu⟩
  · rw [hw.find?_eq ho.intervene]
    exact plain_below ho.intervene a
  · show o.target.bind (w.first.store.find? · a) = _
    rw [hw.find?_eq hplain, ho.target, bind_find?_append]

theorem recordCall_runs {w₀ : Pair} {f f' : Value} {vs vs' : List Value} {p : Overlays Trace}
    (hf : Value.Alike (likeness F) f f') (hw₀ : Kept m F w₀)
    (hobserves : Observes w₀.first.store o f v) (h : (simulation m F log target).site w A o p)
    (hv : Value.Alike (likeness F) v v') :
    (simulation m F log target).Runs A w (.recordCall f vs o v) (.recordCall f' vs' p v')
      fun _ _ _ => True := by
  intro hw _
  obtain ⟨rfl, ho⟩ := h
  obtain ⟨t, ht, hfind⟩ := ho.output
  obtain ⟨s', hput, hrooted, hwritten⟩ := hw.rooted.put hfind v
  have hput' : t.put (some v') w.second.store = .ok () s' := by
    rw [← Likeness.copying_eq hv, ← hw.store]
    exact hput
  obtain ⟨hrun, hevents⟩ := Watched.recordCall_put (m := w.first) ht hput f vs
  rw [hrun, (Watched.recordCall_put (m := w.second) ht hput' f' vs').1, hevents]
  have hreturned : Proper m log target ⟨A, .returned f vs v⟩ := by
    refine ⟨?_, trivial, .inr ?_⟩
    · rintro rfl
      cases hf with
      | special hs => exact hs rfl
    · refine hobserves.imp_right fun h => ?_
      rw [ho.observed htarget hw₀] at h
      exact h
  have haccounts := (Accounts.put (m := w.first) (A := A) hwritten).append
    (.silent (e := ⟨A, .returned f vs v⟩) (fun l => by cases l <;> rfl) rfl)
  simp only [List.map_cons, List.map_nil, Event.below, List.append_nil]
  refine ⟨⟨haccounts, ?_⟩, hw.edit hrooted, trivial⟩
  exact List.forall_mem_cons.mpr
    ⟨⟨trivial, trivial, trivial⟩, List.forall_mem_singleton.mpr hreturned⟩

omit htarget in
theorem recordDefinition_runs {a : Address} {p : Overlays Trace} (hA : A = B ++ a)
    (h : (simulation m F log target).site w B o p) (hv : Value.Alike (likeness F) v v') :
    (simulation m F log target).Runs A w (.recordDefinition a o v) (.recordDefinition a p v')
      fun _ _ _ => True := by
  obtain ⟨rfl, ho⟩ := h
  obtain ⟨t, ht, hfind⟩ := ho.output
  obtain rfl := Likeness.copying_eq hv
  cases htag : v.isTagAddress with
  | true =>
    rw [Watched.recordDefinition_tag ht a htag]
    exact basic.pure trivial
  | false =>
    intro hw _
    obtain ⟨s', hput, hrooted, hwritten⟩ := hw.rooted.putAt hfind a v
    have hput' : (t.reach a >>= fun u => u.put (some v)) w.second.store = .ok () s' := by
      rw [← hw.store]
      exact hput
    obtain ⟨hrun, hevents⟩ := Watched.recordDefinition_put (m := w.first) ht hput htag
    rw [hrun, (Watched.recordDefinition_put (m := w.second) ht hput' htag).1, hevents]
    rw [← hA] at hwritten
    simp only [List.map_cons, List.map_nil, Event.below, List.append_nil]
    exact ⟨⟨.put hwritten, List.forall_mem_singleton.mpr ⟨trivial, trivial, trivial⟩⟩,
      hw.edit hrooted, trivial⟩

omit htarget in
theorem checkOutput_runs {p : Overlays Trace} (h : (simulation m F log target).site w A o p) :
    (simulation m F log target).Runs A w (.checkOutput o) (.checkOutput p) fun _ _ _ => True := by
  obtain ⟨rfl, ho⟩ := h
  obtain ⟨t, ht, -⟩ := ho.output
  refine basic.ofStore fun hw => ?_
  rw [← hw.store, ht, Evaluator.checkOutput]
  split
  · exact .ok trivial
  · exact .error (.invalidInputs _ (.trace trivial))

theorem parallel : (simulation m F log target).Parallel where
  toBasic := basic
  drawn hw := ⟨hw.draws, hw.spare⟩
  numbered hw := hw.serials
  quiet hw hstore hframes hstore' hframes' hcounted := by
    refine ⟨⟨hw.quiet (hw.counted hcounted) ?_ hframes hframes', ?_⟩, .quiet hstore hframes,
      fun _ he => (List.not_mem_nil he).elim⟩
    · rw [hstore, hstore', hw.store]
    · rw [hstore]
      exact hw.rooted
  alike_of_walked _ hv := hv
  force _ hsite hv := by
    obtain ⟨rfl, ho⟩ := hsite
    exact basic.force id (fun hw => (hw.valueAt?_eq ho.intervene _).2) hv
  gave hv := Simulation.gave_runs
    (fun _ => silent_advance (fun l => by cases l <;> rfl) rfl ⟨trivial, trivial, trivial⟩) hv
  forced _ hw hsite := by
    obtain ⟨rfl, ho⟩ := hsite
    rw [overlayValue?_eq, overlayValue?_eq]
    exact (hw.valueAt?_eq ho.intervene []).2
  observed {w A o p} _ hw hsite := by
    obtain ⟨rfl, ho⟩ := hsite
    have hplain := plain_below htarget A
    rw [← ho.target] at hplain
    rw [overlayValue?_eq, overlayValue?_eq]
    exact (hw.valueAt?_eq hplain []).2
  same hw hv hu := by rw [Likeness.copying_eq hv, Likeness.copying_eq hu, hw.store]
  relate r hw hv hu := by rw [Likeness.copying_eq hv, Likeness.copying_eq hu, hw.store]
  captured hw hsite := ⟨hw.serials, hsite.1, trivial⟩
  remark {w A d} hd _ := by
    cases d with
    | called | clashed | rated _ =>
      exact silent_advance (fun l => by cases l <;> rfl) rfl ⟨trivial, trivial, trivial⟩
    | _ => cases hd
  checkOutput hsite := checkOutput_runs hsite
  below a hsite := below_runs htarget a hsite
  recordCall hf _ hw₀ _ hobserves hsite hv := recordCall_runs htarget hf hw₀ hobserves hsite hv
  defined _ _ := silent_advance (fun l => by cases l <;> rfl) rfl ⟨trivial, trivial, trivial⟩
  recordDefinition hA hsite hv := recordDefinition_runs hA hsite hv
  returned _ _ hs _ hspecial := by
    refine silent_advance (fun l => by cases l <;> rfl) rfl ⟨?_, trivial, .inl ?_⟩
    · rintro ⟨rfl⟩
      exact hspecial rfl
    · rw [hs.resolve_right hspecial]

end Target

/-! ## Code -/

section Code

variable (hF : ∀ {i}, m.frames.size ≤ i → F i)

include hF in
/-- A frame that is opened for an expression. -/
theorem openFrame_runs (source : Term) (h : ScopesAlike (Seen F) c d) :
    (simulation m F log target).Runs A w (.openFrame source.toTrace c)
      (.openFrame source.toTrace d) fun _ c' d' =>
        ScopesAlike (Seen F) c' d' ∧ Sited log m.frames.size A source.scopeSites c' := by
  intro hw he
  obtain rfl := h.eq And.left
  rw [Watched.run_openFrame, Watched.run_openFrame, Watched.events_openFrame]
  rw [Watched.events_openFrame] at he
  have hopened := (he _ List.mem_cons_self).1
  simp only [List.map_cons, List.map_nil, Event.below, List.append_nil] at hopened ⊢
  exact ⟨⟨.newFrame, List.forall_mem_singleton.mpr ⟨trivial, trivial, trivial⟩⟩,
    ⟨hw.newFrame, hw.rooted⟩, hw.scopesAlike hF h, .opened hopened⟩

theorem bindPattern_runs {ctx : Context} {p : Shape} (h : Bound m F log A p c d)
    (hv : Value.Alike (likeness F) v v') :
    (simulation m F log target).Runs A w (.bindPattern ctx c p.toTrace v)
      (.bindPattern ctx d p.toTrace v') fun _ _ _ => True := by
  obtain ⟨hscopes, hsited⟩ := h
  obtain rfl := hscopes.eq And.left
  intro hw _
  rw [Watched.run_bindPattern, Watched.run_bindPattern]
  rcases hw.matchBind_cases ctx p alike_of_isData hscopes hv with
    ⟨m', n', hok, hok', hrebound, hcopies⟩ | ⟨h, k, m', n', herror, herror', hstore⟩
  · rw [hok, hok', Watched.events_bindPattern hok]
    simp only [List.map_cons, List.map_nil, Event.below, List.append_nil]
    refine ⟨⟨.bound hrebound, List.forall_mem_singleton.mpr ⟨trivial, ⟨p, rfl, hsited⟩, trivial⟩⟩,
      ⟨hcopies, ?_⟩, trivial⟩
    rw [hrebound.store]
    exact hw.rooted
  · rw [herror, herror', Watched.events_bindPattern_error herror]
    refine .inr ⟨fun a => ?_, fun _ he => (List.not_mem_nil he).elim⟩
    simp only [Machine.look, hstore]
    rfl

include hF in
theorem programmed {ctx : Context} (htop : ctx.topLevel = .standard)
    (htarget : ∀ t ∈ target, m.Plain (.trace t)) :
    (simulation m F log target).Programmed ctx (Placed m F log) (Bound m F log) where
  toBasic := basic
  code_iff := .rfl
  parts_iff := .rfl
  entered_iff := .rfl
  binding_iff := .rfl
  operands {A t ts c d} h i u hu := by
    refine ⟨h.1, Sited.descend (h.2.mono ?_)⟩
    cases i with
    | zero =>
      cases hu
      exact List.subset_append_left _ _
    | succ i =>
      have hu' : ts[i]? = some u := hu
      have hsub := Term.below_subset_partSites hu' 1
      rw [Nat.add_comm 1 i] at hsub
      exact List.subset_append_of_subset_right _ hsub
  branches h := by
    refine ⟨⟨h.1, .descend (h.2.mono ?_)⟩, ⟨h.1, .descend (h.2.mono ?_)⟩,
      ⟨h.1, .descend (h.2.mono ?_)⟩⟩
    · exact List.subset_append_of_subset_left _ (List.subset_append_left _ _)
    · exact List.subset_append_of_subset_left _ (List.subset_append_right _ _)
    · exact List.subset_append_right _ _
  definition h := by
    refine ⟨⟨h.1, .descend (h.2.mono ?_)⟩, ⟨h.1, .descend (h.2.mono ?_)⟩⟩
    · exact List.subset_append_left _ _
    · exact List.subset_append_right _ _
  tagPart h := ⟨h.1, .descend (h.2.mono (List.subset_append_left _ _))⟩
  lookup h := Simulation.Runs.withMachine fun hw =>
    basic.ofExcept (hw.lookup htop (fun _ hs => hs) _ h.1)
  data hv := alike_of_isData hv
  closure {w A p t name c d label} h _ := by
    refine ((parallel htarget).fresh (·.serials)).mono ?_
    rintro w₁ i _ - rfl
    exact ⟨rfl, ⟨⟨p, t, name, rfl⟩, trivial⟩, h.1⟩
  openBlock {w A ts c d} h := by
    refine (openFrame_runs hF (.block ts) h.1).mono ?_
    rintro w₁ c' d' - ⟨hscopes, hsited⟩ i t ht
    have hsub := Term.below_subset_partSites ht 0
    rw [Nat.zero_add] at hsub
    exact ⟨hscopes, .descend (hsited.mono hsub)⟩
  openClosure h := by
    obtain ⟨-, ⟨⟨p, t, name, rfl⟩, -⟩, hscopes⟩ := h
    refine (openFrame_runs hF (.gen p t name) hscopes).mono ?_
    rintro w₁ c' d' - ⟨hscopes', hsited⟩
    refine ⟨p, t, name, rfl, ⟨hscopes', hsited.mono ?_⟩, hscopes', hsited.mono ?_⟩
    · exact List.subset_cons_self _ _
    · exact List.cons_subset_cons _ (List.nil_subset _)
  bindPattern h hv := bindPattern_runs h hv
  invoked name _ := silent_advance (fun l => by cases l <;> rfl) rfl
    ⟨⟨name, by simp⟩, trivial, trivial⟩
  relocate _ _ := Simulation.relocate_of_not_assumed fun h => h.2 rfl

include hF in
theorem lawful {ctx : Context} (htop : ctx.topLevel = .standard)
    (htarget : ∀ t ∈ target, m.Plain (.trace t)) : (simulation m F log target).Lawful ctx where
  toBasic := basic
  toCoded := (programmed hF htop htarget).coded
  toOverlaid := (parallel htarget).overlaid ctx

end Code

/-! ## Runs from the start -/

theorem Kept.start (hF : ∀ {i}, F i → FrameAlike (likeness F) (m.bindings i) (m.bindings i)) :
    Kept m F ⟨m.withOutput, m.withOutput⟩ where
  serials := rfl
  draws := rfl
  spare := rfl
  store := rfl
  frames := rfl
  opened := Nat.le_refl _
  bindings := hF
  rooted := .start

theorem overlays_runs {intervene : Option Trace} (hintervene : ∀ t ∈ intervene, m.Plain (.trace t)) :
    (simulation m F log target).Runs [] w (.overlays intervene target (.trace m.store.next))
      (.overlays intervene target (.trace m.store.next)) fun w' o p =>
        (simulation m F log target).site w' [] o p := by
  intro hw _
  have hwritable := hw.rooted.writable Store.fresh_next
  rw [Watched.run_overlays hwritable, Watched.run_overlays (hw.store ▸ hwritable)]
  refine ⟨⟨.refl, fun _ he => (List.not_mem_nil he).elim⟩, hw, rfl, hintervene, ?_, _, rfl, rfl⟩
  cases target <;> rfl

/-- What is known of a run from the start, given that it stays under its overlays. -/
structure Told (m : Machine) (target : Option Trace) {α : Type} (x : Watched α) : Prop where
  proper : ∀ e ∈ x.events m.withOutput, Proper m (x.events m.withOutput) target e
  output : ∀ a, (x.run.leaves m.withOutput).look m.store.next (.output a) =
    after (x.events m.withOutput) (fun _ => none) (.output a)
  accounts : ∀ {r m'}, x.run m.withOutput = .ok r m' →
    Accounts m.store.next (x.events m.withOutput) m.withOutput m'
  rooted : ∀ {r m'}, x.run m.withOutput = .ok r m' → m.store.Rooted m'.store

variable {α : Type} {x : Watched α} {P : Pair → α → α → Prop}

theorem Told.ofRuns (hF : ∀ {i}, F i → FrameAlike (likeness F) (m.bindings i) (m.bindings i))
    (hstays : x.Stays m.withOutput)
    (h : (simulation m F (x.events m.withOutput) target).Runs [] ⟨m.withOutput, m.withOutput⟩ x x P) :
    Told m target x := by
  have hends := h (.start hF) fun e he => ⟨he, fun hdeed => hstays e.address (hdeed ▸ he)⟩
  have hevents : (x.events m.withOutput).map (Event.below []) = x.events m.withOutput :=
    List.map_id _
  -- The output starts out empty, so that the log accounts for all it holds at the end.
  have hempty (a : Address) : m.withOutput.look m.store.next (.output a) = none :=
    Store.Rooted.valueAt?_start a
  rw [hevents] at hends
  revert hends
  dsimp only
  cases hrun : x.run m.withOutput with
  | ok r m' =>
    rintro ⟨⟨haccounts, hproper⟩, hkept, -⟩
    refine ⟨hproper, fun a => ?_, fun hrun' => ?_, fun hrun' => ?_⟩
    · simp only [Run.leaves, hrun, haccounts.look]
      exact after_congr (hempty a)
    · rw [hrun] at hrun'
      cases hrun'
      exact haccounts
    · rw [hrun] at hrun'
      cases hrun'
      exact hkept.rooted
  | error f m' =>
    intro hends
    obtain ⟨hlook, hproper⟩ := hends.resolve_left id
    refine ⟨hproper, fun a => ?_, fun hrun' => ?_, fun hrun' => ?_⟩
    · simp only [Run.leaves, hrun, hlook]
      exact after_congr (hempty a)
    · rw [hrun] at hrun'
      cases hrun'
    · rw [hrun] at hrun'
      cases hrun'

namespace Told

variable {K : Address → Deed → Prop} {R : α → List Event → Prop}

/-- The log of a run that records is as it should be. -/
theorem logs (h : Told m target x) (hlogs : x.Logs K R) :
    (x.events m.withOutput).Pairwise Event.Compatible ∧
      ∀ {r m'}, x.run m.withOutput = .ok r m' → R r (x.events m.withOutput) := by
  obtain ⟨hpairs, -, hpost⟩ := hlogs [] m.withOutput fun e he => (h.proper e he).regular
  exact ⟨hpairs, fun hrun => hpost _ _ hrun⟩

/-- However the run ends, its output holds what the log says was recorded. -/
theorem valueAt?_iff (h : Told m target x) (hlogs : x.Logs K R) {a : Address} {v : Value} :
    (x.run.leaves m.withOutput).store.valueAt? m.store.next a = some v ↔
      ⟨a, .recorded v⟩ ∈ x.events m.withOutput := by
  rw [← after_output_iff (h.logs hlogs).1, ← h.output]
  rfl

end Told

section Start

variable {ctx : Context} (htop : ctx.topLevel = .standard) {intervene : Option Trace}
variable (hread : ∀ t, t ∈ intervene ∨ t ∈ target → m.Plain (.trace t))
include htop hread

theorem evalTerm_told (e : Term)
    (hstays : (Watched.eval ctx (.trace e.toTrace) .top intervene target
      (.trace m.store.next)).Stays m.withOutput) :
    Told m target
      (Watched.eval ctx (.trace e.toTrace) .top intervene target (.trace m.store.next)) := by
  refine .ofRuns (F := fun i => m.frames.size ≤ i) ?_ hstays ((lawful id htop ?_).eval ?_ ?_ ?_)
  · intro i hi
    rw [Machine.bindings_of_size_le hi]
    exact .empty
  · exact fun t ht => hread t (.inr ht)
  · exact .trace trivial
  · rintro _ ⟨⟩
    exact ⟨e, rfl, .top, trivial⟩
  · exact overlays_runs fun t ht => hread t (.inl ht)

theorem eval_told {exp : Trace} (hexp : Expression.Built exp)
    (hstays : (Watched.eval ctx (.trace exp) .top intervene target
      (.trace m.store.next)).Stays m.withOutput) :
    Told m target
      (Watched.eval ctx (.trace exp) .top intervene target (.trace m.store.next)) := by
  obtain ⟨e, rfl⟩ := hexp.exists_term
  exact evalTerm_told htop hread e hstays

theorem apply_told {proc inputs : Value} (hproc : m.Authored (.value proc))
    (hinputs : m.Authored (.value inputs))
    (hstays : (Watched.apply ctx proc inputs intervene target
      (.trace m.store.next)).Stays m.withOutput) :
    Told m target (Watched.apply ctx proc inputs intervene target (.trace m.store.next)) := by
  have hcovers : m.Covers m.Authored
      (likeness fun i => m.frames.size ≤ i ∨ ∃ c, m.Authored (.scope (.frame i c))) :=
    Machine.Authored.covers Machine.Throughout.hereditary (·.self) (fun _ _ => trivial)
      (fun _ _ => trivial) (fun _ _ _ => trivial) fun _ c hc => .inr ⟨c, hc⟩
  refine .ofRuns (fun hi => hcovers.frameAlike ⟨rfl, hi⟩) hstays
    ((lawful .inl htop ?_).apply (hcovers.alike proc hproc) (hcovers.alike inputs hinputs) ?_)
  · exact fun t ht => hread t (.inr ht)
  · exact fun _ _ => overlays_runs fun t ht => hread t (.inl ht)

end Start

end Recording
end ProbTrace
