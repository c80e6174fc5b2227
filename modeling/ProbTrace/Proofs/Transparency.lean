import ProbTrace.Proofs.Comparison
import ProbTrace.Proofs.Parallel
import ProbTrace.Proofs.Traced

/-!
# Tracing is transparent

An evaluation that records into a new output and one that records nothing go the same
way: they give the same value and score, or fail with the same fault, and take the same
random numbers.  The output shows only in captured tags, which carry it.

The two evaluations run side by side.  The first never changes its store.  The second
changes only the cells that it made itself, which can all be written to, so that recording
never fails.  What either can reach through the expression, the scope, the intervention
and the target was there before and is the same on both sides.
-/

namespace ProbTrace

mutual

/-- A value without the outputs that its tags carry. -/
def Value.untraced : Value → Value
  | .list vs => .list (untracedItems vs)
  | .tuple vs => .tuple (untracedItems vs)
  | .quoted v => .quoted v.untraced
  | .brackets vs => .brackets (untracedItems vs)
  | .tag serial o => .tag serial { o with output := none }
  | v => v

/-- The items of a sequence without the outputs that their tags carry. -/
def untracedItems : List Value → List Value
  | [] => []
  | v :: vs => v.untraced :: untracedItems vs

end

mutual

/-- A tree with every value changed. -/
def Trace.mapValues (f : Value → Value) : Trace → Trace
  | .tree v cs => .tree (v.map f) (mapChildValues f cs)
  | .cell n => .cell n

/-- The children of a node with every value changed. -/
def mapChildValues (f : Value → Value) : List (Key × Trace) → List (Key × Trace)
  | [] => []
  | (k, t) :: rest => (k, t.mapValues f) :: mapChildValues f rest

end

/-- A fault with every value that it is about changed. -/
def Fault.mapValues (f : Value → Value) : Fault → Fault
  | trailingForms input forms => trailingForms input (forms.map f)
  | badForm rule form => badForm rule (f form)
  | tooFewInputs inputs expected pattern => tooFewInputs (inputs.map f) expected (f pattern)
  | tooManyInputs inputs expected pattern => tooManyInputs (inputs.map f) expected (f pattern)
  | unknownPattern pattern inputs => unknownPattern (f pattern) (f inputs)
  | misplacedRest pattern inputs => misplacedRest (f pattern) (f inputs)
  | notASequence pattern inputs => notASequence (f pattern) (f inputs)
  | unbound name => unbound (f name)
  | topLevelDefinition name scope => topLevelDefinition (f name) scope
  | notAFrame name scope => notAFrame (f name) scope
  | notAProcedure v => notAProcedure (f v)
  | notAnExpression v => notAnExpression (f v)
  | invalidInputs rule v => invalidInputs rule (f v)
  | invalidKey use key expression => invalidKey use (f key) (f expression)
  | emptyQuasiAddress v => emptyQuasiAddress (f v)
  | noCapturedTag v => noCapturedTag (f v)
  | noChild key => noChild (f key)
  | noValueAt address => noValueAt (address.map f)
  | noneAccepted attempts logBound => noneAccepted (f attempts) (f logBound)
  | weightless particles => weightless (f particles)
  | fault => fault

/-- Faults about values that are alike are equal after a change that makes such values
equal. -/
theorem Fault.Alike.mapValues_eq {L : Likeness} {f : Value → Value}
    (hf : ∀ {v w}, Value.Alike L v w → f v = f w) {g h : Fault} (hgh : Fault.Alike L g h) :
    g.mapValues f = h.mapValues f := by
  have hitems {vs ws : List Value} (hvs : ItemsAlike L vs ws) : vs.map f = ws.map f := by
    induction hvs with
    | nil => rfl
    | cons hv _ ih => rw [List.map_cons, List.map_cons, hf hv, ih]
  cases hgh with
  | same _ => rfl
  | misfit _ h =>
    cases h with
    | tooFewInputs _ hvs => simp only [mapValues, hitems hvs]
    | tooManyInputs _ hvs => simp only [mapValues, hitems hvs]
    | unknownPattern hv => simp only [mapValues, hf hv]
    | misplacedRest hv => simp only [mapValues, hf hv]
    | notASequence hv => simp only [mapValues, hf hv]
  | notAProcedure hv => simp only [mapValues, hf hv]
  | invalidInputs _ hv => simp only [mapValues, hf hv]
  | invalidKey _ hv hx => simp only [mapValues, hf hv, hf hx]
  | emptyQuasiAddress hv => simp only [mapValues, hf hv]
  | noCapturedTag hv => simp only [mapValues, hf hv]

/-- The end of a run that fails, without the outputs that tags carry. -/
def Halt.untraced : Halt → Halt
  | .fault f => .fault (f.mapValues Value.untraced)
  | .tooDeep => .tooDeep

/-- Machines that two evaluations from one machine leave, the same in everything that was
there or that a program can get at, but for the outputs that tags carry. -/
structure Machine.Untold (start m n : Machine) : Prop where
  draws : m.draws = n.draws
  spare : m.spare = n.spare
  cell : ∀ i, i < start.store.cells.size → m.store.cell i = n.store.cell i
  bindings : ∀ id, (m.bindings id).mapValues Value.untraced = (n.bindings id).mapValues Value.untraced

/-- Two evaluations from one machine that end alike: with the same value and score, or
with the same fault, after the same random numbers. -/
inductive SameOutcome (start : Machine) :
    EStateM.Result Halt Machine (Value × Float) →
      EStateM.Result Halt Machine (Value × Float) → Prop
  | returned {v w : Value} {score : Float} {m n : Machine} :
      v.untraced = w.untraced → start.Untold m n →
      SameOutcome start (.ok (v, score) m) (.ok (w, score) n)
  | failed {h k : Halt} {m n : Machine} :
      h.untraced = k.untraced → start.Untold m n → SameOutcome start (.error h m) (.error k n)

namespace Transparency

/-! ## The two evaluations side by side -/

section Relation

variable (m : Machine)

/-- Overlays that differ in the output only, which the first evaluation lacks. -/
structure Fits (o p : Overlays Trace) : Prop where
  intervene : o.intervene = p.intervene
  target : o.target = p.target
  read : ∀ t, t ∈ o.intervene ∨ t ∈ o.target → m.Sound (.trace t)
  absent : o.output = none
  output : ∀ t ∈ p.output, m.store.Fresh t

/-- Values that are the same but for the outputs of tags. -/
def likeness : Likeness where
  trace t := m.Sound (.trace t)
  tag i o j p := i = j ∧ Fits m o p
  closure source name i c j d := i = j ∧ (m.Sound (.trace source) ∧ m.Sound (.value name)) ∧
    ScopesAlike (m.Admits m.Sound) c d
  special _ := True

/-- The machines of the two evaluations. -/
structure Beside (w : Pair) : Prop extends w.InStep where
  first : w.first.store = m.store
  second : m.store.Grown w.second.store
  frames : w.first.frames.size = w.second.frames.size
  opened : m.frames.size ≤ w.first.frames.size
  bindings : ∀ {i j}, m.Admits m.Sound i j →
    FrameAlike (likeness m) (w.first.bindings i) (w.second.bindings j)
  others : ∀ {i}, ¬ m.Admits m.Sound i i → w.first.bindings i = w.second.bindings i

end Relation

variable {m : Machine} {s : Store} {t u : Trace} {n : NodeId} {k : Key} {a : Address} {v v' : Value}

theorem covers : m.Covers m.Sound (likeness m) where
  inherited := Machine.sound_hereditary
  trace _ ht := ht
  tag _ _ h := h.not_tag.elim
  closure _ _ _ _ h := ⟨rfl, ⟨h.refers (.source _ _ _ _), h.refers (.name _ _ _ _)⟩,
    Machine.sound_hereditary.scopesAlike (h.refers (.scope _ _ _ _))⟩
  special _ _ := trivial
  undefined _ _ := rfl

/-! ## The simulation -/

/-- An evaluation without output beside one with a new output. -/
def simulation (m : Machine) : Simulation where
  like := likeness m
  related := Beside m
  advance _ _ _ := True
  site _ _ := Fits m
  code _ e c d := m.Sound (.trace e) ∧ ScopesAlike (m.Admits m.Sound) c d
  parts _ e c d := m.Sound (.trace e) ∧ ScopesAlike (m.Admits m.Sound) c d
  entered _ e c d := m.Sound (.trace e) ∧ ScopesAlike (m.Admits m.Sound) c d
  binding _ e c d := m.Sound (.trace e) ∧ ScopesAlike (m.Admits m.Sound) c d
  walked _ := Value.Alike (likeness m)
  assumed _ := True
  lenient := False
  halted _ _ w h k := Beside m w ∧ HaltsAlike (likeness m) h k

variable {w : Pair} {A : Address} {o p : Overlays Trace}

/-- The stores of both evaluations have everything sound as it was. -/
theorem Beside.keptBy (h : Beside m w) :
    m.KeptBy m.Sound (likeness m) w.first.store w.second.store where
  first := by
    rw [h.first]
    exact ⟨Machine.sound_hereditary, (·.cell_lt), Nat.le_refl _, fun _ => rfl⟩
  second := h.second.keptIn
  trace ht := ht
  name hc := hc.2.1.2
  serials := .ofEq And.left And.left id

theorem basic : (simulation m).Basic where
  advance_refl _ := trivial
  advance_append _ _ := trivial
  site_later _ h := h
  halted_append _ h := h
  fault hw hf := ⟨hw, .fault hf⟩
  tooDeep hw := ⟨hw, .tooDeep⟩
  text hw hv := hw.keptBy.hasText_eq hv

/-- The second machine with another store. -/
theorem Beside.withStore (h : Beside m w) (hs : m.store.Grown s) :
    Beside m ⟨w.first, { w.second with store := s }⟩ where
  serials := h.serials
  draws := h.draws
  spare := h.spare
  first := h.first
  second := hs
  frames := h.frames
  opened := h.opened
  bindings := h.bindings
  others := h.others

theorem updated_beside {i j : FrameId} {f g : Option Value → Option Value} (a : Address)
    (hw : Beside m w) (h : m.Admits m.Sound i j)
    (hfg : ∀ {x y}, Option.Rel (Value.Alike (likeness m)) x y →
      Option.Rel (Value.Alike (likeness m)) (f x) (g y)) :
    Beside m (w.updated i j a f g) := by
  have hupdate := (hw.bindings h).update hfg a
  obtain rfl : i = j := h.1
  refine ⟨⟨hw.serials, hw.draws, hw.spare⟩, hw.first, hw.second, ?_, ?_, ?_, ?_⟩
  · simpa [Pair.updated] using hw.frames
  · simpa [Pair.updated] using hw.opened
  · intro i' j' hij
    obtain rfl : i' = j' := hij.1
    simp only [Pair.updated, Machine.bindings_modify, hw.frames]
    split
    · exact hupdate
    · exact hw.bindings hij
  · intro i' hi'
    have hne : i' ≠ i := fun heq => hi' (heq ▸ h)
    simp only [Pair.updated, Machine.bindings_modify, hne, false_and, if_false]
    exact hw.others hi'

theorem openFrame_runs {e : Trace} {c d : Scope} (h : ScopesAlike (m.Admits m.Sound) c d) :
    (simulation m).Runs A w (.openFrame e c) (.openFrame e d)
      fun _ => ScopesAlike (m.Admits m.Sound) := by
  intro hw _
  refine ⟨trivial, ⟨⟨hw.serials, hw.draws, hw.spare⟩, hw.first, hw.second, ?_, ?_, ?_, ?_⟩, ?_⟩
  · simpa using hw.frames
  · exact Nat.le_trans hw.opened (by simp)
  · intro i j hij
    rw [Machine.bindings_push, Machine.bindings_push]
    exact hw.bindings hij
  · intro i hi
    rw [Machine.bindings_push, Machine.bindings_push]
    exact hw.others hi
  · exact .frame ⟨hw.frames, .inl hw.opened⟩ h

/-- Below corresponding overlays there are corresponding overlays. -/
theorem below_runs (a : Address) (h : Fits m o p) :
    (simulation m).Runs A w (.watch (Run.edit (o.below a))) (.watch (Run.edit (p.below a)))
      fun _ => Fits m := by
  intro hw _
  obtain ⟨hintervene, hread⟩ := hw.keptBy.find?_overlay (fun t ht => h.read t (.inl ht)) a
  obtain ⟨htarget, hread'⟩ := hw.keptBy.find?_overlay (fun t ht => h.read t (.inr ht)) a
  rw [h.intervene] at hintervene
  rw [h.target] at htarget
  have hfits {output : Option Trace} (houtput : ∀ t ∈ output, m.store.Fresh t) :
      Fits m { intervene := o.intervene.bind (w.first.store.find? · a),
               target := o.target.bind (w.first.store.find? · a) }
        { intervene := p.intervene.bind (w.second.store.find? · a),
          target := p.target.bind (w.second.store.find? · a), output } := by
    refine ⟨?_, ?_, ?_, rfl, houtput⟩
    · rw [h.intervene]
      exact hintervene
    · rw [h.target]
      exact htarget
    · rintro t (ht | ht)
      · exact hread t ht
      · exact hread' t ht
  have hfirst := Run.edit_ok (m := w.first) (Overlays.below_absent (a := a) h.absent)
  simp only [Watched.run_watch, hfirst]
  -- Only the second run has an output, and what it adds there is in cells of its own.
  cases hp : p.output with
  | none =>
    rw [Run.edit_ok (Overlays.below_absent hp)]
    exact ⟨trivial, hw, hfits fun t ht => nomatch ht⟩
  | some t =>
    obtain ⟨u, s', hreach, hs', hu⟩ := hw.second.reach (h.output t hp) a
    rw [Run.edit_ok (Overlays.below_reach hp hreach)]
    refine ⟨trivial, hw.withStore hs', hfits fun x hx => ?_⟩
    cases hx
    exact hu

theorem traced {ctx : Context} (htop : ctx.topLevel = .standard) :
    (simulation m).Traced ctx (ScopesAlike (m.Admits m.Sound)) where
  toBasic := basic
  code_iff := .rfl
  parts_iff := .rfl
  entered_iff := .rfl
  binding_iff := .rfl
  emptyTrace := .empty
  value?_eq hw ht := hw.keptBy.value?_eq ht
  children_eq hw ht := hw.keptBy.children_eq ht
  outline_eq hw ht := hw.keptBy.outline_eq ht
  patterns hw := Simulation.Basic.keptPatterns id basic covers hw.keptBy.second .tree
  held hw ht hv := by
    rw [hw.keptBy.second.value?_eq ht] at hv
    exact covers.alike _ (ht.refers (.held hv))
  child hw ht hu := by
    rw [hw.keptBy.second.children_eq ht] at hu
    exact ht.refers (.child hu)
  lookup hname hw hscopes := by
    rw [htop]
    exact Scope.find_agree hw.bindings
      (TopLevel.resolve_standard_agree (fun _ _ => trivial) hname) hscopes
  closure hsource hname hscopes := by
    intro hw _
    have hsound := hname.kept id (.ofData rfl) fun hw => hw.keptBy.second
    refine ⟨trivial, ?_, hw.serials, ⟨hsource, hsound⟩, hscopes⟩
    exact ⟨⟨congrArg (· + 1) hw.serials, hw.draws, hw.spare⟩, hw.first, hw.second, hw.frames,
      hw.opened, hw.bindings, hw.others⟩
  openBlock hscopes := openFrame_runs hscopes
  openClosure h := (openFrame_runs h.2.2).mono fun _ _ _ _ hscopes => ⟨h.2.1.1, hscopes⟩
  bindName hname hscopes :=
    Simulation.bindName_runs basic hname (fun hw hij => hw.bindings hij)
      (fun _ hw hij hfg => ⟨updated_beside _ hw hij hfg, trivial⟩) hscopes.innermost
  event _ _ := trivial
  walked_iff := .rfl
  belowTag a htag := below_runs a htag.2

/-- Recording is a step of the second evaluation alone. -/
theorem recording_runs {x y : Watched Unit} (hx : x.run = pure ())
    (hy : m.store.Grown w.second.store →
      ∃ s', y.run w.second = .ok () { w.second with store := s' } ∧ m.store.Grown s') :
    (simulation m).Runs A w x y fun _ _ _ => True := by
  intro hw _
  obtain ⟨s', hrun, hs'⟩ := hy hw.second
  rw [hx, hrun]
  exact ⟨trivial, hw.withStore hs', trivial⟩

theorem recordCall_runs {f f' : Value} {vs vs' : List Value} (h : Fits m o p) :
    (simulation m).Runs A w (.recordCall f vs o v) (.recordCall f' vs' p v')
      fun _ _ _ => True := by
  refine recording_runs ?_ fun hs => ?_
  · rw [Watched.run_recordCall, h.absent]
    rfl
  · rw [Watched.run_recordCall]
    cases hp : p.output with
    | none => exact ⟨_, rfl, hs⟩
    | some t =>
      obtain ⟨s', hput, hs'⟩ := hs.put (h.output t hp) v'
      exact ⟨s', Run.edit_ok hput, hs'⟩

theorem recordDefinition_runs (h : Fits m o p) :
    (simulation m).Runs A w (.recordDefinition a o v) (.recordDefinition a p v')
      fun _ _ _ => True := by
  refine recording_runs ?_ fun hs => ?_
  · rw [Watched.recordDefinition, h.absent]
    rfl
  · unfold Watched.recordDefinition
    cases hp : p.output with
    | none => exact ⟨_, rfl, hs⟩
    | some t =>
      dsimp only
      split
      · exact ⟨_, rfl, hs⟩
      · obtain ⟨u, s', hreach, hs'⟩ := hs.reach (h.output t hp) a
        obtain ⟨s'', hput, hs''⟩ := hs'.1.put hs'.2 v'
        refine ⟨s'', ?_, hs''⟩
        have hedit := (Trace.reach_put hreach (some v')).trans hput
        rw [Watched.run_bind_apply, Watched.run_watch, Run.edit_ok hedit]
        rfl

theorem checkOutput_runs (h : Fits m o p) :
    (simulation m).Runs A w (.checkOutput o) (.checkOutput p) fun _ _ _ => True := by
  refine basic.ofStore fun hw => ?_
  rw [h.absent]
  cases hp : p.output with
  | none => exact .ok trivial
  | some t =>
    have hwritable := hw.second.writable (h.output t hp)
    simp only [Evaluator.checkOutput, hwritable, if_true]
    exact .ok trivial

theorem parallel {ctx : Context} (htop : ctx.topLevel = .standard) :
    (simulation m).Parallel where
  toBasic := basic
  drawn hw := ⟨hw.draws, hw.spare⟩
  numbered hw := hw.serials
  quiet hw hstore hframes hstore' hframes' hcounted := by
    refine ⟨⟨hw.counted hcounted, ?_, ?_, ?_, ?_, ?_, ?_⟩, trivial⟩
    · rw [hstore, hw.first]
    · rw [hstore']
      exact hw.second
    · rw [hframes, hframes', hw.frames]
    · rw [hframes]
      exact hw.opened
    · intro i j hij
      unfold Machine.bindings
      rw [hframes, hframes']
      exact hw.bindings hij
    · intro i hi
      unfold Machine.bindings
      rw [hframes, hframes']
      exact hw.others hi
  alike_of_walked _ hv := hv
  force _ hsite hv := by
    refine basic.force id (fun hw => ?_) hv
    rw [← hsite.intervene]
    exact (traced htop).overlaid_rel hw (fun t ht => hsite.read t (.inl ht)) _
  gave hv := Simulation.gave_runs (fun _ => trivial) hv
  forced _ hw hsite := by
    rw [← hsite.intervene]
    exact (traced htop).overlaid_rel hw (fun t ht => hsite.read t (.inl ht)) []
  observed _ hw hsite := by
    rw [← hsite.target]
    exact (traced htop).overlaid_rel hw (fun t ht => hsite.read t (.inr ht)) []
  same hw hv hu := hw.keptBy.same_eq hv hu
  relate r hw hv hu := hw.keptBy.relate_eq r hv hu
  captured hw hsite := ⟨hw.serials, hsite⟩
  remark _ _ := trivial
  checkOutput hsite := checkOutput_runs hsite
  below a hsite := below_runs a hsite
  recordCall _ _ _ _ _ hsite _ := recordCall_runs hsite
  defined _ _ := trivial
  recordDefinition _ hsite _ := recordDefinition_runs hsite
  returned _ _ _ _ _ := trivial

theorem lawful {ctx : Context} (htop : ctx.topLevel = .standard) : (simulation m).Lawful ctx where
  toBasic := basic
  toCoded := (traced htop).coded
  toOverlaid := (parallel htop).overlaid ctx

/-! ## What the two evaluations have in common -/

/-- Values that are alike differ in the outputs of tags only. -/
theorem untraced_eq (h : Value.Alike (likeness m) v v') : v.untraced = v'.untraced := by
  have hitems {vs vs' : List Value} (size : vs.length = vs'.length)
      (ih : ∀ {v v'}, (v, v') ∈ vs.zip vs' → v.untraced = v'.untraced) :
      untracedItems vs = untracedItems vs' := by
    have hall := List.forall₂_iff_zip.mpr ⟨size, ih⟩
    clear size ih
    induction hall with
    | nil => rfl
    | cons hv _ ih => rw [untracedItems, untracedItems, hv, ih]
  induction h with
  | list size _ ih => exact congrArg Value.list (hitems size ih)
  | tuple size _ ih => exact congrArg Value.tuple (hitems size ih)
  | quoted _ ih => exact congrArg Value.quoted ih
  | brackets size _ ih => exact congrArg Value.brackets (hitems size ih)
  | tag htag =>
    obtain ⟨rfl, hfits⟩ := htag
    simp only [Value.untraced, hfits.intervene, hfits.target]
  | closure hclosure =>
    obtain ⟨rfl, -, hscopes⟩ := hclosure
    rw [hscopes.eq And.left]
  | undefined h =>
    cases h
    rfl
  | _ => rfl

theorem untraced_halt_eq {h k : Halt} (hk : HaltsAlike (likeness m) h k) :
    h.untraced = k.untraced := by
  cases hk with
  | tooDeep => rfl
  | fault hf => exact congrArg Halt.fault (hf.mapValues_eq untraced_eq)

theorem mapValues_untraced_eq (h : FrameAlike (likeness m) t u) :
    t.mapValues Value.untraced = u.mapValues Value.untraced := by
  induction h with
  | cell n => rfl
  | @tree v w cs ds hvalue hkeys hitems ih =>
    have hall := List.forall₂_iff_zip.mp (FrameAlike.tree hvalue hkeys hitems).children
    have hchildren : List.Forall₂ (fun p q => p.1 = q.1 ∧
        p.2.mapValues Value.untraced = q.2.mapValues Value.untraced) cs ds :=
      List.forall₂_iff_zip.mpr ⟨hall.1, fun hmem => ⟨(hall.2 hmem).1, ih hmem⟩⟩
    have hmap : mapChildValues Value.untraced cs = mapChildValues Value.untraced ds := by
      clear hall ih hitems hkeys
      induction hchildren with
      | nil => rfl
      | cons hpq _ ih => rw [mapChildValues, mapChildValues, hpq.1, hpq.2, ih]
    have hroot : v.map Value.untraced = w.map Value.untraced := by
      cases hvalue with
      | none => rfl
      | some hv => simp only [Option.map_some, untraced_eq hv]
    rw [Trace.mapValues, Trace.mapValues, hroot, hmap]

theorem Beside.untold (h : Beside m w) : m.Untold w.first w.second where
  draws := h.draws
  spare := h.spare
  cell i hi := by rw [h.first, h.second.old hi]
  bindings id := by
    by_cases hid : m.Admits m.Sound id id
    · exact mapValues_untraced_eq (h.bindings hid)
    · rw [h.others hid]

/-- The two evaluations from the start, when the second has its output. -/
theorem Beside.start : Beside m ⟨m, m.withOutput⟩ where
  serials := rfl
  draws := rfl
  spare := rfl
  first := rfl
  second := .start
  frames := rfl
  opened := Nat.le_refl _
  bindings := covers.frameAlike
  others _ := rfl

theorem overlays_runs {intervene target : Option Trace}
    (hread : ∀ t, t ∈ intervene ∨ t ∈ target → m.Sound (.trace t)) :
    (simulation m).Runs [] w (.overlays intervene target .null)
      (.overlays intervene target (.trace m.store.next)) fun _ => Fits m := by
  refine basic.ofStore fun hw => ?_
  have hnew : m.store.Fresh m.store.next := Store.fresh_next
  simp only [Evaluator.withOutput, Evaluator.checkOutput, hw.second.writable hnew, if_true]
  refine .ok ⟨rfl, rfl, hread, rfl, fun t ht => ?_⟩
  cases ht
  exact hnew

/-- Evaluating an expression with a new output and without one has the same outcome. -/
theorem eval_sameOutcome {ctx : Context} (htop : ctx.topLevel = .standard) {m : Machine}
    {exp : Value} {scope : Scope} {intervene target : Option Trace}
    (hexp : m.Sound (.value exp)) (hscope : m.Sound (.scope scope))
    (hread : ∀ t, t ∈ intervene ∨ t ∈ target → m.Sound (.trace t)) :
    SameOutcome m
      (Evaluator.eval ctx exp scope intervene target .null m)
      ((do
        let output ← Run.edit (Edit.alloc {})
        Evaluator.eval ctx exp scope intervene target (.trace output)) m) := by
  have hcode : ∀ t, exp = .trace t → (simulation m).code [] t scope scope := by
    rintro t rfl
    exact ⟨hexp.refers (.content t), Machine.sound_hereditary.scopesAlike hscope⟩
  have hends := (lawful htop).eval (covers.alike exp hexp) hcode (overlays_runs hread) Beside.start
    fun _ _ => trivial
  rw [Watched.run_eval, Watched.run_eval] at hends
  show SameOutcome m _ (Evaluator.eval ctx exp scope intervene target
    (.trace m.store.next) m.withOutput)
  revert hends
  generalize Evaluator.eval ctx exp scope intervene target .null m = r
  generalize Evaluator.eval ctx exp scope intervene target _ _ = q
  intro hends
  match r, q, hends with
  | .ok (v, score) n, .ok (v', score') n', hends =>
    obtain ⟨-, hw, hv, hscore⟩ := hends
    cases hscore
    exact .returned (untraced_eq hv) hw.untold
  | .error h n, .error k n', hends =>
    obtain ⟨hw, hk⟩ := hends.resolve_left id
    exact .failed (untraced_halt_eq hk) hw.untold
  | .ok _ _, .error _ _, hends => exact hends.elim
  | .error _ _, .ok _ _, hends => exact hends.elim

/-- A coin thrown under the overlays of a captured tag, which force it. -/
def relocatedCoin : Trace :=
  Expression.withAddress
    (Expression.application [Expression.reference "tuple", Expression.this,
      Expression.literal (.text "coin")])
    (Expression.application [Expression.reference "flip", Expression.literal (.float 0.5)])

/-- The overlay that forces the coin. -/
def forcedHeads : Trace :=
  .tree none [(.name "coin", .tree none [(.name "flip", .leaf (.bool true))])]

theorem relocatedCoin_sameOutcome :
    ({} : Machine).Sound (.trace relocatedCoin) ∧ ({} : Machine).Sound (.trace forcedHeads) ∧
    SameOutcome {}
      (Evaluator.eval .halves (.trace relocatedCoin) .top (some forcedHeads) none .null {})
      ((do
        let output ← Run.edit (Edit.alloc {})
        Evaluator.eval .halves (.trace relocatedCoin) .top (some forcedHeads) none
          (.trace output)) {}) := by
  have hcoin : ({} : Machine).Sound (.trace relocatedCoin) := .ofData rfl
  have hcoin' : ({} : Machine).Sound (.value (.trace relocatedCoin)) := .ofData rfl
  have hheads : ({} : Machine).Sound (.trace forcedHeads) := .ofData rfl
  have hread : ∀ t, t ∈ some forcedHeads ∨ t ∈ none → ({} : Machine).Sound (.trace t) := by
    rintro t (ht | ht)
    · cases ht
      exact hheads
    · cases ht
  exact ⟨hcoin, hheads, eval_sameOutcome rfl hcoin' .top hread⟩

end Transparency
end ProbTrace
