import ProbTrace.Proofs.Cells
import ProbTrace.Proofs.Parallel
import ProbTrace.Proofs.Reachability
import ProbTrace.Proofs.Traced

/-!
# Intervention and target are only read

An evaluation writes to nodes of its output and to nodes that it makes itself, and to
no others.  A captured tag carries the overlays of the place where it was captured, so
also under a tag the output is among these nodes.  If the output shares no node with the
intervention and the target, both are the same after the evaluation as before,
whether it returns or fails.
-/

namespace ProbTrace

/-- The machine that a run leaves behind, whether it returns or fails. -/
def Run.leaves {α : Type} (x : Run α) (m : Machine) : Machine :=
  match x m with
  | .ok _ n => n
  | .error _ n => n

/-- Nothing that an evaluation may read through its intervention or target is a node of
its output, and no tag can be reached from them. -/
structure Machine.Separate (m : Machine) (intervene target : Option Trace) (output : Value) :
    Prop where
  sound : ∀ t, t ∈ intervene ∨ t ∈ target → m.Sound (.trace t)
  apart : ∀ t, t ∈ intervene ∨ t ∈ target → ∀ u, output = .trace u → ∀ a b n,
    m.store.find? u a = some (.cell n) → m.store.find? t b ≠ some (.cell n)

namespace ReadOnly

/-! ## Nodes that are read and nodes that are written -/

section Nodes

variable (m : Machine) (O : Value) (base : Store)

/-- The nodes that may be written to: those of the output, and new ones. -/
def Ground (t : Trace) : Prop :=
  (∃ u a, O = .trace u ∧ m.store.find? u a = some t) ∨ ∃ n, m.store.cells.size ≤ n ∧ t = .cell n

/-- The traces that may be met: those that were known, and new ones. -/
def Known (t : Trace) : Prop :=
  m.Sound (.trace t) ∨ ∃ n, m.store.cells.size ≤ n ∧ t = .cell n

/-- Overlays that are known, with an output that may be written to. -/
structure Fits (o : Overlays Trace) : Prop where
  intervene : ∀ t ∈ o.intervene, Known m t
  target : ∀ t ∈ o.target, Known m t
  output : ∀ t ∈ o.output, Ground m O t

/-- The values that may be met, each alike to itself only. -/
def likeness : Likeness where
  trace := Known m
  tag i o j p := i = j ∧ o = p ∧ Fits m O o
  closure source _ i c j d := i = j ∧ Known m source ∧ ScopesAlike (m.Admits m.Sound) c d
  special _ := True

/-- Only the ground is changed, and what is below the ground is on it. -/
structure Confined (s : Store) : Prop where
  size : m.store.cells.size ≤ s.cells.size
  ground : ∀ {t k u}, Ground m O t → s.child? t k = some u → Ground m O u
  others : ∀ {n}, ¬ Ground m O (.cell n) → s.cell n = m.store.cell n

/-- What is known stays known, only the ground is changed, and the nodes of a store are found
where they were. -/
structure KeptStore (s : Store) : Prop extends Confined m O s where
  held : ∀ {t v}, Known m t → s.value? t = some v → Value.Alike (likeness m O) v v
  child : ∀ {t k u}, Known m t → (k, u) ∈ s.children t → Known m u
  found : base.FoundIn s

structure Kept (n : Machine) : Prop where
  store : KeptStore m O base n.store
  frames : m.frames.size ≤ n.frames.size
  bindings : ∀ {i j}, m.Admits m.Sound i j →
    FrameAlike (likeness m O) (n.bindings i) (n.bindings j)

/-- An edit leaves the store kept, and its result is as said. -/
def After {α : Type} (post : α → Prop) : EStateM.Result Fault Store α → Prop
  | .ok a s => KeptStore m O base s ∧ post a
  | .error _ s => KeptStore m O base s

end Nodes

variable {m : Machine} {O : Value} {base : Store}

theorem alike_eq {v w : Value} (h : Value.Alike (likeness m O) v w) : v = w := by
  refine Value.Alike.eq ?_ ?_ id h
  · rintro i o j p ⟨hserial, ho, -⟩
    exact ⟨hserial, ho⟩
  · rintro source name i c j d ⟨hserial, -, hscopes⟩
    exact ⟨hserial, hscopes.eq And.left⟩

theorem covers : m.Covers m.Sound (likeness m O) where
  inherited := Machine.sound_hereditary
  trace _ := .inl
  tag _ _ h := h.not_tag.elim
  closure _ _ _ _ h := ⟨rfl, .inl (h.refers (.source _ _ _ _)),
    Machine.sound_hereditary.scopesAlike (h.refers (.scope _ _ _ _))⟩
  special _ _ := trivial
  undefined _ _ := rfl

variable {s : Store} {t u : Trace} {n : NodeId} {k : Key} {a : Address} {v : Value}

namespace Confined

theorem start : Confined m O m.store where
  size := Nat.le_refl _
  ground := by
    rintro t k u (⟨o, a, ho, ha⟩ | ⟨n, hn, rfl⟩) hu
    · refine .inl ⟨o, a ++ [k], ho, ?_⟩
      rw [Store.find?_append, ha, Option.bind_some, Store.find?_singleton, hu]
    · rw [Store.child?, Store.children, Store.cell_of_size_le hn] at hu
      cases hu
  others _ := rfl

theorem setValue (h : Confined m O s) (hn : Ground m O (.cell n)) (x : Option Value) :
    Confined m O (s.setValue n x) where
  size := by
    rw [Store.size_setValue]
    exact h.size
  ground := by
    intro t k u ht hu
    rw [Store.child?, Store.children_setValue] at hu
    exact h.ground ht hu
  others := by
    intro i hi
    have hne : i ≠ n := fun hin => hi (hin ▸ hn)
    rw [Store.cell_setValue, if_neg (hne ·.1)]
    exact h.others hi

theorem grow (h : Confined m O s) (hn : Ground m O (.cell n)) : Confined m O (s.grow n k) where
  size := by
    rw [Store.size_grow]
    exact Nat.le_succ_of_le h.size
  ground := by
    intro t j u ht hu
    cases t with
    | tree _ _ => exact h.ground ht hu
    | cell i =>
      rw [Store.child?, Store.children, Store.cell_grow] at hu
      split at hu
      · rename_i hin
        rw [childAt?_insertChild] at hu
        split at hu
        · cases hu
          exact .inr ⟨_, h.size, rfl⟩
        · exact h.ground hn hu
      · exact h.ground ht hu
  others := by
    intro i hi
    have hne : i ≠ n := fun hin => hi (hin ▸ hn)
    rw [Store.cell_grow, if_neg (hne ·.1)]
    exact h.others hi

end Confined

namespace KeptStore

/-- At the start everything is kept. -/
theorem start : KeptStore m O m.store m.store where
  toConfined := .start
  held := by
    rintro t v (ht | ⟨n, hn, rfl⟩) hv
    · exact covers.alike v (ht.refers (.held hv))
    · rw [Store.value?, Store.cell_of_size_le hn] at hv
      cases hv
  child := by
    rintro t k u (ht | ⟨n, hn, rfl⟩) hu
    · exact .inl (ht.refers (.child hu))
    · rw [Store.children, Store.cell_of_size_le hn] at hu
      cases hu
  found h := h

theorem setValue (h : KeptStore m O base s) (hn : Ground m O (.cell n))
    (hv : Value.Alike (likeness m O) v v) : KeptStore m O base (s.setValue n (some v)) where
  toConfined := h.toConfined.setValue hn (some v)
  held := by
    intro t x ht hx
    cases t with
    | tree _ _ => exact h.held ht hx
    | cell i =>
      rw [Store.value?, Store.cell_setValue] at hx
      split at hx
      · cases hx
        exact hv
      · exact h.held ht hx
  child := by
    intro t k u ht hu
    rw [Store.children_setValue] at hu
    exact h.child ht hu
  found hu := (Store.find?_setValue _).trans (h.found hu)

theorem grow (h : KeptStore m O base s) (hn : Ground m O (.cell n))
    (hmissing : s.child? (.cell n) k = none) : KeptStore m O base (s.grow n k) where
  toConfined := h.toConfined.grow hn
  held := by
    intro t x ht hx
    rw [Store.value?_grow] at hx
    exact h.held ht hx
  child := by
    intro t j u ht hu
    cases t with
    | tree _ _ => exact h.child ht hu
    | cell i =>
      rw [Store.children, Store.cell_grow] at hu
      split at hu
      · rename_i hin
        rcases Store.mem_insertChild hu with heq | hu
        · cases heq
          exact .inr ⟨_, h.size, rfl⟩
        · exact h.child ht (hin.1 ▸ hu)
      · exact h.child ht hu
  found hu := Store.find?_grow_of_some hmissing (h.found hu)

theorem find? (h : KeptStore m O base s) (ht : Known m t) (hu : s.find? t a = some u) :
    Known m u :=
  Store.find?_inherits h.child ht hu

end KeptStore

/-! ## Edits -/

section Edits

/-- Reaching an address below the ground stays on the ground. -/
theorem reach_after (h : KeptStore m O base s) (ht : Ground m O t) :
    After m O base (Ground m O) (t.reach a s) := by
  induction a generalizing s t with
  | nil => exact ⟨h, ht⟩
  | cons k a ih =>
    cases hchild : s.child? t k with
    | some u =>
      rw [Trace.reach_found hchild]
      exact ih h (h.ground ht hchild)
    | none =>
      cases hw : s.isWritable t with
      | false =>
        rw [Trace.reach_readOnly hchild hw]
        exact h
      | true =>
        cases t with
        | tree _ _ => cases hw
        | cell n =>
          rw [Trace.reach_missing hchild hw]
          exact ih (h.grow ht hchild) (.inr ⟨_, h.size, rfl⟩)

theorem put_after (h : KeptStore m O base s) (ht : Ground m O t)
    (hv : Value.Alike (likeness m O) v v) : After m O base (fun _ => True) (t.put (some v) s) := by
  rcases t.put_cases (some v) s with ⟨n, rfl, -, hput⟩ | ⟨-, hput⟩
  · rw [hput]
    exact ⟨h.setValue ht hv, trivial⟩
  · rw [hput]
    exact h

/-- A new cell is on the ground. -/
theorem alloc_after (h : KeptStore m O base s) : After m O base (Ground m O) (Edit.alloc {} s) := by
  have hkept : KeptStore m O base (s.alloc {}).1 := by
    refine ⟨⟨?_, ?_, ?_⟩, ?_, ?_, ?_⟩
    · rw [Store.size_alloc]
      exact Nat.le_succ_of_le h.size
    · intro t k u ht hu
      rw [Store.child?, Store.children_alloc_empty] at hu
      exact h.ground ht hu
    · intro n hn
      rw [Store.cell_alloc_empty]
      exact h.others hn
    · intro t v ht hv
      rw [Store.value?_alloc_empty] at hv
      exact h.held ht hv
    · intro t k u ht hu
      rw [Store.children_alloc_empty] at hu
      exact h.child ht hu
    · intro t a u hu
      exact Store.find?_alloc_empty.trans (h.found hu)
  exact ⟨hkept, .inr ⟨_, h.size, rfl⟩⟩

theorem After.bind {α β : Type} {x : Edit α} {f : α → Edit β} {P : α → Prop} {Q : β → Prop}
    (h : After m O base P (x s)) (hf : ∀ a s, KeptStore m O base s → P a → After m O base Q (f a s)) :
    After m O base Q ((x >>= f) s) := by
  show After m O base Q (EStateM.bind x f s)
  unfold EStateM.bind
  cases hx : x s with
  | ok a s' =>
    rw [hx] at h
    exact hf a s' h.1 h.2
  | error e s' =>
    rw [hx] at h
    exact h

theorem below_after {o : Overlays Trace} (h : KeptStore m O base s) (ho : Fits m O o) :
    After m O base (Fits m O) (o.below a s) := by
  have hread (t? : Option Trace) (ht : ∀ t ∈ t?, Known m t) :
      ∀ t ∈ t?.bind (s.find? · a), Known m t := by
    intro u hu
    obtain ⟨t, htmem, hfind⟩ := Option.bind_eq_some_iff.mp hu
    exact h.find? (ht t htmem) hfind
  have hintervene := hread o.intervene ho.intervene
  have htarget := hread o.target ho.target
  show After m O base (Fits m O) (Overlays.reaching
    { intervene := o.intervene.bind (s.find? · a), target := o.target.bind (s.find? · a) }
    o.output a s)
  unfold Overlays.reaching
  cases houtput : o.output with
  | none => exact ⟨h, hintervene, htarget, fun t ht => nomatch ht⟩
  | some t =>
    refine After.bind (P := fun u? => ∀ u ∈ u?, Ground m O u) ?_ ?_
    · refine After.bind (reach_after h (ho.output t houtput)) ?_
      rintro u s' hs' hu
      refine ⟨hs', fun x hx => ?_⟩
      cases hx
      exact hu
    · rintro u? s' hs' hu
      exact ⟨hs', hintervene, htarget, hu⟩

end Edits

/-! ## The simulation of a run by itself -/

/-- A run beside itself, from a machine and with an output. -/
def simulation (m : Machine) (O : Value) (base : Store) : Simulation where
  like := likeness m O
  related w := w.Same ∧ Kept m O base w.first
  advance _ _ _ := True
  site _ _ o p := o = p ∧ Fits m O o
  code _ e c d := Known m e ∧ ScopesAlike (m.Admits m.Sound) c d
  parts _ e c d := Known m e ∧ ScopesAlike (m.Admits m.Sound) c d
  entered _ e c d := Known m e ∧ ScopesAlike (m.Admits m.Sound) c d
  binding _ e c d := Known m e ∧ ScopesAlike (m.Admits m.Sound) c d
  walked _ := Value.Alike (likeness m O)
  assumed _ := True
  lenient := False
  halted _ _ w _ _ := Kept m O base w.first

variable {w : Pair} {A : Address} {output : Value}

theorem basic : (simulation m O base).Basic where
  advance_refl _ := trivial
  advance_append _ _ := trivial
  site_later _ h := h
  halted_append _ h := h
  fault h _ := h.2
  tooDeep h := h.2
  text hw hv := by rw [alike_eq hv, hw.1.store]

/-- What both runs compute from the store has one result, and a failure keeps what is kept. -/
theorem ofStore_runs {α : Type} {f : Store → Except Fault α} {P : α → Prop}
    (h : ∀ {s a}, f s = .ok a → P a) :
    (simulation m O base).Runs A w (.watch do Run.ofExcept (f (← Run.store)))
      (.watch do Run.ofExcept (f (← Run.store))) fun _ a b => a = b ∧ P a := by
  refine Simulation.Runs.withStore fun hw => ?_
  rw [hw.1.store]
  cases hf : f w.second.store with
  | ok a => exact basic.pureRun ⟨rfl, h hf⟩
  | error g => exact fun hw _ => .inr hw.2

/-- An edit that keeps the store has one result on both sides. -/
theorem edit_runs {α : Type} {e : Edit α} {P : α → Prop}
    (h : ∀ s, KeptStore m O base s → After m O base P (e s)) :
    (simulation m O base).Runs A w (.watch (Run.edit e)) (.watch (Run.edit e))
      fun _ a b => a = b ∧ P a := by
  rintro ⟨hsame, hkept⟩ -
  have hafter := h _ hkept.store
  simp only [Watched.run_watch, Run.edit]
  rw [← hsame.store]
  revert hafter
  cases e w.first.store with
  | ok a s =>
    rintro ⟨hs, ha⟩
    exact ⟨trivial, ⟨⟨⟨hsame.serials, hsame.draws, hsame.spare⟩, rfl, hsame.frames⟩, hs,
      hkept.frames, hkept.bindings⟩, rfl, ha⟩
  | error f s =>
    intro hs
    exact .inr ⟨hs, hkept.frames, hkept.bindings⟩

theorem below_runs {o p : Overlays Trace} (a : Address) (h : o = p ∧ Fits m O o) :
    (simulation m O base).Runs A w (.watch (Run.edit (o.below a))) (.watch (Run.edit (p.below a)))
      fun _ q r => q = r ∧ Fits m O q := by
  obtain ⟨rfl, ho⟩ := h
  exact edit_runs fun s hs => below_after hs ho

theorem frameAlike {i j : FrameId} (hw : (simulation m O base).related w) (h : m.Admits m.Sound i j) :
    FrameAlike (likeness m O) (w.first.bindings i) (w.second.bindings j) := by
  rw [← hw.1.bindings]
  exact hw.2.bindings h

theorem updated_related {i j : FrameId} {f g : Option Value → Option Value} (a : Address)
    (hw : (simulation m O base).related w) (h : m.Admits m.Sound i j)
    (hfg : ∀ {x y}, Option.Rel (Value.Alike (likeness m O)) x y →
      Option.Rel (Value.Alike (likeness m O)) (f x) (g y)) :
    (simulation m O base).related (w.updated i j a f g) := by
  obtain ⟨hsame, hkept⟩ := hw
  obtain rfl : i = j := h.1
  have hupdate := (hkept.bindings h).update hfg a
  refine ⟨⟨⟨hsame.serials, hsame.draws, hsame.spare⟩, hsame.store, ?_⟩, hkept.store, ?_, ?_⟩
  -- Values that are alike here are equal, so that the frames stay the same in both runs.
  · refine Array.ext_getElem? fun l => ?_
    simp only [Pair.updated, Array.getElem?_modify, ← hsame.frames]
    split
    · rename_i hil
      subst hil
      cases hget : w.first.frames[i]? with
      | none => rfl
      | some t =>
        have ht : w.first.bindings i = t := by
          rw [Machine.bindings, hget]
          rfl
        rw [ht] at hupdate
        simp only [Option.map_some, hupdate.eq alike_eq]
    · rfl
  · simpa [Pair.updated] using hkept.frames
  · intro i' j' hij
    obtain rfl : i' = j' := hij.1
    simp only [Pair.updated, Machine.bindings_modify]
    split
    · rw [← hupdate.eq alike_eq] at hupdate
      exact hupdate
    · exact hkept.bindings hij

theorem openFrame_runs {e : Trace} {c d : Scope} (h : ScopesAlike (m.Admits m.Sound) c d) :
    (simulation m O base).Runs A w (.openFrame e c) (.openFrame e d)
      fun _ => ScopesAlike (m.Admits m.Sound) := by
  rintro ⟨hsame, hkept⟩ -
  refine ⟨trivial, ⟨⟨⟨hsame.serials, hsame.draws, hsame.spare⟩, hsame.store, ?_⟩, hkept.store, ?_,
    fun hij => ?_⟩, .frame ⟨?_, .inl hkept.frames⟩ h⟩
  · exact congrArg (·.push .empty) hsame.frames
  · exact Nat.le_trans hkept.frames (by simp)
  · rw [Machine.bindings_push, Machine.bindings_push]
    exact hkept.bindings hij
  · exact congrArg Array.size hsame.frames

/-- Trees of values that may be met. -/
inductive Outlined (m : Machine) (O : Value) : Trace → Prop
  | cell (n : NodeId) : Outlined m O (.cell n)
  | tree {x : Option Value} {cs : List (Key × Trace)} :
      (∀ v ∈ x, Value.Alike (likeness m O) v v) → (∀ k u, (k, u) ∈ cs → Outlined m O u) →
      Outlined m O (.tree x cs)

theorem patterns : (simulation m O base).Patterns (Outlined m O) where
  part h hmem := by
    cases h with
    | tree _ hcs => exact hcs _ _ hmem
  held h := by
    cases h with
    | tree hv _ => exact hv _ rfl
  raise _ hmisfit := by
    cases hmisfit.eq alike_eq
    exact fun hw _ => .inr hw.2

theorem traced {ctx : Context} (htop : ctx.topLevel = .standard) :
    (simulation m O base).Traced ctx (ScopesAlike (m.Admits m.Sound)) where
  toBasic := basic
  code_iff := .rfl
  parts_iff := .rfl
  entered_iff := .rfl
  binding_iff := .rfl
  emptyTrace := .inl .empty
  value?_eq hw _ := by rw [hw.1.store]
  children_eq hw _ := by rw [hw.1.store]
  outline_eq hw _ := by rw [hw.1.store]
  patterns {w} hw := by
    refine ⟨Outlined m O, patterns, fun ht => Store.Outlines.outline ⟨?_, fun _ => .cell _, ?_⟩ ht⟩
    · rw [← hw.1.store]
      exact hw.2.store.child
    · intro t cs ht hcs
      rw [← hw.1.store]
      exact .tree (fun v hv => hw.2.store.held ht hv) hcs
  held hw ht hv := by
    rw [← hw.1.store] at hv
    exact hw.2.store.held ht hv
  child hw ht hu := by
    rw [← hw.1.store] at hu
    exact hw.2.store.child ht hu
  lookup hname hw hscopes := by
    rw [htop]
    exact Scope.find_agree (frameAlike hw)
      (TopLevel.resolve_standard_agree (fun _ _ => trivial) hname) hscopes
  closure hsource _ hscopes := by
    rintro ⟨hsame, hkept⟩ -
    exact ⟨trivial, ⟨⟨⟨congrArg (· + 1) hsame.serials, hsame.draws, hsame.spare⟩, hsame.store,
      hsame.frames⟩, hkept.store, hkept.frames, hkept.bindings⟩,
      hsame.serials, hsource, hscopes⟩
  openBlock hscopes := openFrame_runs hscopes
  openClosure h := (openFrame_runs h.2.2).mono fun _ _ _ _ hscopes => ⟨h.2.1, hscopes⟩
  bindName hname hscopes :=
    Simulation.bindName_runs basic hname frameAlike
      (fun _ hw hij hfg => ⟨updated_related _ hw hij hfg, trivial⟩) hscopes.innermost
  event _ _ := trivial
  walked_iff := .rfl
  belowTag a htag := below_runs a htag.2

theorem recordCall_runs {f f' v v' : Value} {vs vs' : List Value} {o p : Overlays Trace}
    (hsite : o = p ∧ Fits m O o) (hv : Value.Alike (likeness m O) v v') :
    (simulation m O base).Runs A w (.recordCall f vs o v) (.recordCall f' vs' p v')
      fun _ _ _ => True := by
  obtain ⟨rfl, ho⟩ := hsite
  cases alike_eq hv
  refine basic.bind (P := fun _ _ _ => True) ?_ ?_
  · unfold Evaluator.record
    cases houtput : o.output with
    | none => exact basic.pureRun trivial
    | some t =>
      exact (edit_runs fun s hs => put_after hs (ho.output t houtput) hv).mono
        fun _ _ _ _ _ => trivial
  · rintro w₁ - - - -
    unfold Watched.conclude
    cases o.output.isSome with
    | false => exact (Simulation.Runs.note fun _ _ => trivial).mono fun _ _ _ _ _ => trivial
    | true =>
      refine basic.bind (Simulation.Runs.note fun _ _ => trivial) ?_
      rintro w₂ - - - -
      exact (Simulation.Runs.note fun _ _ => trivial).mono fun _ _ _ _ _ => trivial

theorem recordDefinition_runs {v v' : Value} {a : Address} {o p : Overlays Trace}
    (hsite : o = p ∧ Fits m O o) (hv : Value.Alike (likeness m O) v v') :
    (simulation m O base).Runs A w (.recordDefinition a o v) (.recordDefinition a p v')
      fun _ _ _ => True := by
  obtain ⟨rfl, ho⟩ := hsite
  cases alike_eq hv
  unfold Watched.recordDefinition
  cases houtput : o.output with
  | none => exact basic.pure trivial
  | some t =>
    dsimp only
    split
    · exact basic.pure trivial
    · refine basic.bind (edit_runs (P := fun _ => True) fun s hs =>
        (reach_after hs (ho.output t houtput)).bind fun u s hs hu => put_after hs hu hv) ?_
      rintro w₁ - - - -
      exact (Simulation.Runs.note fun _ _ => trivial).mono fun _ _ _ _ _ => trivial

theorem parallel {ctx : Context} (htop : ctx.topLevel = .standard) :
    (simulation m O base).Parallel where
  toBasic := basic
  drawn hw := ⟨hw.1.draws, hw.1.spare⟩
  numbered hw := hw.1.serials
  quiet hw hstore hframes hstore' hframes' hcounted := by
    obtain ⟨hsame, hkept⟩ := hw
    refine ⟨⟨⟨hsame.counted hcounted, ?_, ?_⟩, ?_, ?_, ?_⟩, trivial⟩
    · rw [hstore, hstore', hsame.store]
    · rw [hframes, hframes', hsame.frames]
    · rw [hstore]
      exact hkept.store
    · rw [hframes]
      exact hkept.frames
    · intro i j hij
      unfold Machine.bindings
      rw [hframes]
      exact hkept.bindings hij
  alike_of_walked _ hv := hv
  force _ hsite hv := by
    obtain ⟨rfl, ho⟩ := hsite
    exact basic.force id (fun hw => (traced htop).overlaid_rel hw ho.intervene _) hv
  gave hv := Simulation.gave_runs (fun _ => trivial) hv
  forced _ hw hsite := by
    obtain ⟨rfl, ho⟩ := hsite
    exact (traced htop).overlaid_rel hw ho.intervene []
  observed _ hw hsite := by
    obtain ⟨rfl, ho⟩ := hsite
    exact (traced htop).overlaid_rel hw ho.target []
  same hw hv hu := by rw [alike_eq hv, alike_eq hu, hw.1.store]
  relate r hw hv hu := by rw [alike_eq hv, alike_eq hu, hw.1.store]
  captured hw hsite := ⟨hw.1.serials, hsite⟩
  remark _ _ := trivial
  checkOutput hsite := by
    obtain ⟨rfl, -⟩ := hsite
    exact (ofStore_runs (P := fun _ => True) fun _ => trivial).mono fun _ _ _ _ _ => trivial
  below a hsite := below_runs a hsite
  recordCall _ _ _ _ _ hsite hv := recordCall_runs hsite hv
  defined _ _ := trivial
  recordDefinition _ hsite hv := recordDefinition_runs hsite hv
  returned _ _ _ _ _ := trivial

theorem lawful {ctx : Context} (htop : ctx.topLevel = .standard) :
    (simulation m O base).Lawful ctx where
  toBasic := basic
  toCoded := (traced htop).coded
  toOverlaid := (parallel htop).overlaid ctx

/-- The overlays at the start of an evaluation fit. -/
theorem overlays_runs {intervene target : Option Trace} (hintervene : ∀ t ∈ intervene, Known m t)
    (htarget : ∀ t ∈ target, Known m t)
    (houtput : ∀ t, output = .trace t → Ground m O t) :
    (simulation m O base).Runs A w (.overlays intervene target output)
      (.overlays intervene target output) fun _ o p => o = p ∧ Fits m O o := by
  refine ofStore_runs fun {s o} ho => ?_
  unfold Evaluator.withOutput at ho
  split at ho
  · cases ho
    exact ⟨hintervene, htarget, fun t ht => nomatch ht⟩
  · rename_i t
    cases hcheck : Evaluator.checkOutput s (some t) with
    | error f =>
      rw [hcheck] at ho
      cases ho
    | ok _ =>
      rw [hcheck] at ho
      cases ho
      refine ⟨hintervene, htarget, fun u hu => ?_⟩
      cases hu
      exact houtput t rfl
  · cases ho

/-! ## Runs from the start -/

theorem Kept.start : Kept m O m.store m where
  store := .start
  frames := Nat.le_refl _
  bindings := covers.frameAlike

theorem Kept.ofRuns {α : Type} {x : Watched α} {P : Pair → α → α → Prop}
    (h : (simulation m O m.store).Runs [] ⟨m, m⟩ x x P) : Kept m O m.store (x.run.leaves m) := by
  have hends := h ⟨⟨⟨rfl, rfl, rfl⟩, rfl, rfl⟩, .start⟩ fun _ _ => trivial
  unfold Run.leaves
  revert hends
  dsimp only
  cases x.run m with
  | ok a n => exact fun hends => hends.2.1.2
  | error f n => exact fun hends => hends.resolve_left id

section Start

variable {ctx : Context} (htop : ctx.topLevel = .standard)
variable {intervene target : Option Trace} (h : m.Separate intervene target output)
include htop h

theorem eval_kept {exp : Value} {scope : Scope} (hexp : m.Sound (.value exp))
    (hscope : m.Sound (.scope scope)) :
    Kept m output m.store ((Evaluator.eval ctx exp scope intervene target output).leaves m) := by
  rw [← Watched.run_eval]
  refine .ofRuns ((lawful htop).eval (covers.alike _ hexp) ?_ (overlays_runs ?_ ?_ ?_))
  · rintro t rfl
    exact ⟨.inl (hexp.refers (.content t)), Machine.sound_hereditary.scopesAlike hscope⟩
  · exact fun t ht => .inl (h.sound t (.inl ht))
  · exact fun t ht => .inl (h.sound t (.inr ht))
  · exact fun t ht => .inl ⟨t, [], ht, rfl⟩

theorem apply_kept {proc inputs : Value} (hproc : m.Sound (.value proc))
    (hinputs : m.Sound (.value inputs)) :
    Kept m output m.store ((Evaluator.apply ctx proc inputs intervene target output).leaves m) := by
  rw [← Watched.run_apply]
  refine .ofRuns ((lawful htop).apply (covers.alike _ hproc) (covers.alike _ hinputs)
    fun _ _ => overlays_runs ?_ ?_ ?_)
  · exact fun t ht => .inl (h.sound t (.inl ht))
  · exact fun t ht => .inl (h.sound t (.inr ht))
  · exact fun t ht => .inl ⟨t, [], ht, rfl⟩

theorem infer_kept {proc inputs : Value} (hproc : m.Sound (.value proc))
    (hinputs : m.Sound (.value inputs)) :
    Kept m output m.store ((Evaluator.infer ctx proc inputs target intervene).leaves m) := by
  rw [← Watched.run_infer]
  refine .ofRuns (P := fun _ _ _ => True) ?_
  unfold Watched.infer Watched.recording
  refine basic.bind (P := fun _ r q => Value.Alike (likeness m output) r.2.1 q.2.1 ∧
    Value.Alike (likeness m output) r.2.2 q.2.2) ?_ ?_
  · refine basic.bind (edit_runs fun s hs => alloc_after hs) ?_
    rintro w₁ trace _ - ⟨rfl, htrace⟩
    refine basic.bind ((lawful htop).apply (covers.alike _ hproc) (covers.alike _ hinputs)
      fun _ _ => overlays_runs ?_ ?_ ?_) ?_
    · exact fun t ht => .inl (h.sound t (.inl ht))
    · exact fun t ht => .inl (h.sound t (.inr ht))
    · rintro t ht
      cases ht
      exact htrace
    · rintro w₂ r q - hr
      exact basic.pure hr
  · rintro w₃ ⟨trace, value, score⟩ ⟨trace', value', score'⟩ - ⟨hvalue, hscore⟩
    refine basic.bind (basic.compose (.cons (covers.alike _ hproc)
      (.cons hvalue (.cons hscore .nil)))) ?_
    rintro w₄ - - - -
    refine basic.bind ((parallel htop).enroll hscore) ?_
    rintro w₅ score score' - -
    exact basic.pure trivial

omit htop in
theorem unchanged (hs : Confined m output s) {t : Trace} (ht : t ∈ intervene ∨ t ∈ target) :
    t.Unchanged m.store s := by
  intro a u hu
  cases u with
  | tree _ _ => exact ⟨rfl, rfl, rfl⟩
  | cell i =>
    have hsound := (h.sound t ht).find? hu
    have hcell : s.cell i = m.store.cell i := by
      refine hs.others ?_
      rintro (⟨o, b, ho, hb⟩ | ⟨j, hj, heq⟩)
      · exact h.apart t ht o ho b a i hb hu
      · cases heq
        exact Nat.not_lt.mpr hj hsound.cell_lt
    simp only [Store.value?, Store.children, Store.isWritable, hcell, and_self]

end Start

/-- Evaluating an expression, applying a procedure and running a model leave every node of
the intervention and of the target as it was, however they end. -/
theorem overlays_unchanged {ctx : Context} (htop : ctx.topLevel = .standard) {m : Machine}
    {intervene target : Option Trace} {output : Value}
    (h : m.Separate intervene target output) {t : Trace} (ht : t ∈ intervene ∨ t ∈ target) :
    (∀ exp scope, m.Sound (.value exp) → m.Sound (.scope scope) →
      t.Unchanged m.store
        ((Evaluator.eval ctx exp scope intervene target output).leaves m).store) ∧
    (∀ proc inputs, m.Sound (.value proc) → m.Sound (.value inputs) →
      t.Unchanged m.store
        ((Evaluator.apply ctx proc inputs intervene target output).leaves m).store) ∧
    ∀ proc inputs, m.Sound (.value proc) → m.Sound (.value inputs) →
      t.Unchanged m.store ((Evaluator.infer ctx proc inputs target intervene).leaves m).store := by
  refine ⟨fun exp scope hexp hscope => ?_, fun proc inputs hproc hinputs => ?_,
    fun proc inputs hproc hinputs => ?_⟩
  · exact unchanged h (eval_kept htop h hexp hscope).store.toConfined ht
  · exact unchanged h (apply_kept htop h hproc hinputs).store.toConfined ht
  · exact unchanged h (infer_kept htop h hproc hinputs).store.toConfined ht

/-- A coin that an intervention forces, beside an empty output. -/
def forcedCoin : Machine where
  store := { cells := #[{ children := [(.name "flip", .cell 1)] }, { value := some (.bool true) }, {}] }

theorem forcedCoin_separate : forcedCoin.Separate (some (.cell 0)) none (.trace (.cell 2)) where
  sound := by
    rintro t (ht | ht)
    · cases ht
      have hleaf : forcedCoin.Sound (.trace (.cell 1)) := by
        refine .intro nofun (fun n hn => ?_) nofun ?_
        · cases hn
          decide
        · intro y hy
          cases hy with
          | held hv =>
            cases hv
            exact .ofData rfl
          | child hu => cases hu
      refine .intro nofun (fun n hn => ?_) nofun ?_
      · cases hn
        decide
      · intro y hy
        cases hy with
        | held hv => cases hv
        | child hu =>
          cases List.mem_singleton.mp hu
          exact hleaf
    · cases ht
  apart := by
    rintro t (ht | ht) u hu a b n ha hb
    · cases ht
      cases hu
      have hn : n = 2 := by
        rcases a with _ | ⟨k, a⟩
        · cases ha
          rfl
        · cases ha
      subst hn
      have hnode : Trace.cell 2 = .cell 0 ∨ Trace.cell 2 = .cell 1 := by
        refine Store.find?_inherits (P := fun t => t = .cell 0 ∨ t = .cell 1) ?_ (.inl rfl) hb
        rintro _ k u (rfl | rfl) hu
        · exact .inr (Prod.ext_iff.mp (List.mem_singleton.mp hu)).2
        · cases hu
      simp at hnode
    · cases ht

theorem forcedCoin_unchanged : forcedCoin.Separate (some (.cell 0)) none (.trace (.cell 2)) ∧
    (Trace.cell 0).Unchanged forcedCoin.store
      ((Evaluator.eval .halves
        (.trace (Expression.application [Expression.reference "flip", Expression.literal (.float 0.5)]))
        .top (some (.cell 0)) none (.trace (.cell 2))).leaves forcedCoin).store :=
  ⟨forcedCoin_separate,
    (overlays_unchanged rfl forcedCoin_separate (.inl rfl)).1 _ _ (.ofData rfl) .top⟩

end ReadOnly
end ProbTrace
