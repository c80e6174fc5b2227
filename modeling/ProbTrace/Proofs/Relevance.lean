import ProbTrace.Proofs.Comparison
import ProbTrace.Proofs.Copy
import ProbTrace.Proofs.Programmed
import ProbTrace.Proofs.ReadOnly

/-!
# Overlays matter where they are looked at

An evaluation looks at its intervention and its target where it evaluates a node and where it
makes a call.  If others hold the same values at these addresses, or none as well, then an
evaluation under the others goes the same way, whatever they hold elsewhere and whatever nodes
without values they have on the way.

The two evaluations run side by side and write the same cells of one output.  Only the tags that
they capture differ, in the intervention and the target that they carry.
-/

namespace ProbTrace

/-! ## The same but for what tags read -/

/-- Values that are the same but for the overlays that their tags read. -/
def Likeness.unread : Likeness where
  trace _ := True
  tag i o j p := i = j ∧ o.output = p.output
  closure _ _ i c j d := i = j ∧ c = d
  special _ := True

/-- Stores with the same nodes, whose values are alike. -/
structure Store.AlikeBy (L : Likeness) (s s' : Store) : Prop where
  size : s.cells.size = s'.cells.size
  children : ∀ n, (s.cell n).children = (s'.cell n).children
  writable : ∀ n, (s.cell n).writable = (s'.cell n).writable
  value : ∀ n, Option.Rel (Value.Alike L) (s.cell n).value (s'.cell n).value

/-- Machines with the same nodes and frames, whose values are alike, that have given out the
same serial and random numbers. -/
structure Machine.AlikeBy (L : Likeness) (m n : Machine) : Prop where
  inStep : Pair.InStep ⟨m, n⟩
  store : m.store.AlikeBy L n.store
  frames : m.frames.size = n.frames.size
  bindings : ∀ id, FrameAlike L (m.bindings id) (n.bindings id)

/-- Evaluations that end alike: with values that are alike and the same score, or with the same
fault. -/
inductive EndsAlike (L : Likeness) :
    EStateM.Result Halt Machine (Value × Float) →
      EStateM.Result Halt Machine (Value × Float) → Prop
  | returned {v w : Value} {score : Float} {m n : Machine} :
      Value.Alike L v w → m.AlikeBy L n → EndsAlike L (.ok (v, score) m) (.ok (w, score) n)
  | failed {h k : Halt} {m n : Machine} :
      HaltsAlike L h k → m.AlikeBy L n → EndsAlike L (.error h m) (.error k n)

theorem Value.alike_unread (v : Value) : Value.Alike .unread v v := by
  have hcovers : ({} : Machine).Covers (fun _ => True) .unread :=
    ⟨fun _ _ => trivial, fun _ _ => trivial, fun _ _ _ => ⟨rfl, rfl⟩, fun _ _ _ _ _ => ⟨rfl, rfl⟩,
      fun _ _ => trivial, fun _ _ => rfl⟩
  exact hcovers.alike v trivial

namespace Store.AlikeBy

variable {L : Likeness} {s s' : Store} {n : NodeId} {k : Key} {v v' : Value}

theorem refl (h : ∀ v, Value.Alike L v v) (s : Store) : s.AlikeBy L s := by
  refine ⟨rfl, fun _ => rfl, fun _ => rfl, fun n => ?_⟩
  cases (s.cell n).value with
  | none => exact .none
  | some v => exact .some (h v)

theorem child?_eq (h : s.AlikeBy L s') (t : Trace) (k : Key) : s.child? t k = s'.child? t k := by
  cases t with
  | tree _ _ => rfl
  | cell n => rw [child?, child?, Store.children, Store.children, h.children]

theorem isWritable_eq (h : s.AlikeBy L s') (t : Trace) : s.isWritable t = s'.isWritable t := by
  cases t with
  | tree _ _ => rfl
  | cell n => exact h.writable n

theorem setValue (h : s.AlikeBy L s') (n : NodeId) (hv : Value.Alike L v v') :
    (s.setValue n (some v)).AlikeBy L (s'.setValue n (some v')) where
  size := by
    rw [size_setValue, size_setValue, h.size]
  children i := by
    rw [cell_setValue, cell_setValue, h.size]
    split
    · exact h.children n
    · exact h.children i
  writable i := by
    rw [cell_setValue, cell_setValue, h.size]
    split
    · exact h.writable n
    · exact h.writable i
  value i := by
    rw [cell_setValue, cell_setValue, h.size]
    split
    · exact .some hv
    · exact h.value i

theorem grow (h : s.AlikeBy L s') (n : NodeId) (k : Key) :
    (s.grow n k).AlikeBy L (s'.grow n k) where
  size := by
    rw [size_grow, size_grow, h.size]
  children i := by
    rw [cell_grow, cell_grow, h.size]
    split
    · exact congrArg (insertChild · k _) (h.children n)
    · exact h.children i
  writable i := by
    rw [cell_grow, cell_grow, h.size]
    split
    · exact h.writable n
    · exact h.writable i
  value i := by
    rw [cell_grow, cell_grow, h.size]
    split
    · exact h.value n
    · exact h.value i

theorem hasText_contentAt (h : s.AlikeBy L s') (depth : Nat) (path : List NodeId) (n : NodeId) :
    (s.contentAt depth path n).hasText = (s'.contentAt depth path n).hasText := by
  induction depth generalizing path n with
  | zero => rfl
  | succ depth ih =>
    by_cases hmem : n ∈ path
    · simp only [contentAt, if_pos hmem]
    rw [contentAt_succ hmem, contentAt_succ hmem, h.children]
    have hchildren := childrenHaveText_expand_congr (ih (n :: path)) (s'.cell n).children
    rcases rel_cases (h.value n) with ⟨hv, hv'⟩ | ⟨v, v', hv, hv', halike⟩
    · rw [hv, hv']
      exact hchildren
    · rw [hv, hv']
      simp only [Trace.expand, Trace.hasText, hchildren, halike.hasText_expand (ih (n :: path))]

/-- Values that are alike have texts in both stores or in none. -/
theorem hasText_eq (h : s.AlikeBy L s') (hv : Value.Alike L v v') :
    s.hasText v = s'.hasText v' := by
  refine hv.hasText_expand fun n => ?_
  rw [depth, depth, h.size]
  exact h.hasText_contentAt _ [] n

end Store.AlikeBy

/-! ## What is looked at -/

/-- Two overlays hold the same value at an address, or none. -/
def SameAt (s : Store) (overlay overlay' : Option Trace) (a : Address) : Prop :=
  overlay.bind (s.valueAt? · a) = overlay'.bind (s.valueAt? · a)

/-- Whether a node was evaluated or a call made. -/
def Deed.isVisit : Deed → Bool
  | .gave _ => true
  | .called => true
  | _ => false

/-- The addresses at which an evaluation evaluated a node or made a call. -/
def Visited (es : List Event) (a : Address) : Prop :=
  a = [] ∨ ∃ e ∈ es, e.deed.isVisit = true ∧ e.address = a

/-- From a thing one can reach no procedure, no tag and no node of an output, and below it
nothing is missing. -/
structure Machine.Clear (m : Machine) (output : Value) (x : Item) : Prop where
  plain : m.Plain x
  apart : ∀ {n u a}, m.Reaches x (.trace (.cell n)) → output = .trace u →
    m.store.find? u a ≠ some (.cell n)

namespace Machine.Clear

variable {m : Machine} {O : Value} {x y : Item}

theorem refers (h : m.Clear O x) (hxy : m.Refers x y) : m.Clear O y :=
  ⟨h.plain.refers hxy, fun hy => h.apart (hy.head hxy)⟩

theorem ofData (h : x.isData = true) : m.Clear O x := by
  refine ⟨.ofData h, fun {n _ _} hn => ?_⟩
  have hdata : (Item.trace (.cell n)).isData = true :=
    Machine.Throughout.ofData (P := fun y => y.isData = true) id h _ hn
  cases hdata

theorem find? {t u : Trace} {a : Address} (h : m.Clear O (.trace t))
    (hu : m.store.find? t a = some u) : m.Clear O (.trace u) :=
  Store.find?_inherits (P := fun t => m.Clear O (.trace t)) (fun h hu => h.refers (.child hu)) h hu

theorem not_ground {n : NodeId} (h : m.Clear O (.trace (.cell n))) :
    ¬ ReadOnly.Ground m O (.cell n) := by
  rintro (⟨u, a, hu, ha⟩ | ⟨i, hi, heq⟩)
  · exact h.apart .refl hu ha
  · cases heq
    exact Nat.not_lt.mpr hi h.plain.sound.cell_lt

end Machine.Clear

namespace Relevance

open ReadOnly (Ground Confined)

section Relation

variable (m : Machine) (O : Value) (base base' : Overlays Trace)

/-- New frames are seen. -/
abbrev Opened : FrameId → Prop :=
  (m.frames.size ≤ ·)

/-- Values of the two evaluations: closures of expressions without `with-address`, and tags that
differ in what they read. -/
def likeness : Likeness where
  trace t := m.Clear O (.trace t)
  tag i o j p := i = j ∧ o.output = p.output
  closure source name i c j d := i = j ∧
    ((∃ p t name, source = (Term.gen p t name).toTrace ∧ t.isStationary = true) ∧
      m.Clear O (.value name)) ∧ ScopesAlike (Seen (Opened m)) c d
  special s := s ≠ .scored

/-- The stores of the two evaluations. -/
structure Stores (s s' : Store) : Prop where
  alike : s.AlikeBy .unread s'
  first : Confined m O s
  second : Confined m O s'

/-- The machines of the two evaluations. -/
structure Beside (w : Pair) : Prop extends w.InStep where
  stores : Stores m O w.first.store w.second.store
  frames : w.first.frames.size = w.second.frames.size
  opened : m.frames.size ≤ w.first.frames.size
  bindings : ∀ {i}, m.frames.size ≤ i →
    FrameAlike (likeness m O) (w.first.bindings i) (w.second.bindings i)
  others : ∀ {i}, ¬ m.frames.size ≤ i → w.first.bindings i = w.second.bindings i

/-- The overlays of both evaluations at an address. -/
structure Fits (A : Address) (o p : Overlays Trace) : Prop where
  intervene : o.intervene = base.intervene.bind (m.store.find? · A)
  intervene' : p.intervene = base'.intervene.bind (m.store.find? · A)
  target : o.target = base.target.bind (m.store.find? · A)
  target' : p.target = base'.target.bind (m.store.find? · A)
  output : o.output = p.output
  ground : ∀ t ∈ o.output, Ground m O t

/-- The overlays hold the same at an address. -/
def AgreeAt (A : Address) : Prop :=
  SameAt m.store base.intervene base'.intervene A ∧ SameAt m.store base.target base'.target A

/-- Syntax trees without `with-address`, where they are walked. -/
def Placed (_ : Address) (t : Term) (c d : Scope) : Prop :=
  t.isStationary = true ∧ ScopesAlike (Seen (Opened m)) c d

def Bound (_ : Address) (_ : Shape) (c d : Scope) : Prop :=
  ScopesAlike (Seen (Opened m)) c d

/-- The two evaluations side by side.  What a walk gives is alike if the overlays hold the same at
its address, which is known once it was looked at. -/
def simulation : Simulation where
  like := likeness m O
  related := Beside m O
  advance _ es _ := ∀ e ∈ es, e.deed ≠ .relocated
  site _ := Fits m O base base'
  code := Simulation.TermAt (Placed m)
  parts := Simulation.PartsAt (Placed m)
  entered := Simulation.ProcedureAt (Placed m) (Bound m)
  binding := Simulation.ShapeAt (Bound m)
  walked A v v' := AgreeAt m base base' A → Value.Alike (likeness m O) v v'
  assumed e := e.deed.isVisit = true → AgreeAt m base base' e.address
  lenient := False
  halted _ _ w h k := Beside m O w ∧ HaltsAlike .unread h k

end Relation

variable {m : Machine} {O : Value} {base base' : Overlays Trace}
variable {w : Pair} {A B : Address} {o p : Overlays Trace} {v v' : Value} {c d : Scope}

theorem alike_unread (h : Value.Alike (likeness m O) v v') : Value.Alike .unread v v' :=
  Value.Alike.mono (L := likeness m O) (fun _ _ => trivial) (fun _ _ _ _ ht => ht)
    (fun _ _ _ _ _ _ hc => ⟨hc.1, hc.2.2.eq And.left⟩) (fun _ _ => trivial) (fun _ _ => id) h

theorem basic : (simulation m O base base').Basic where
  advance_refl _ := fun _ he => (List.not_mem_nil he).elim
  advance_append h h' := List.forall_mem_append.mpr ⟨h, h'⟩
  site_later _ h := h
  halted_append _ h := h
  fault hw hf := ⟨hw, .fault (hf.mono alike_unread)⟩
  tooDeep hw := ⟨hw, .tooDeep⟩
  text hw hv := hw.stores.alike.hasText_eq (alike_unread hv)

theorem advance_of_ne {d : Deed} {w' : Pair} (hd : d ≠ .relocated) :
    (simulation m O base base').advance w [⟨A, d⟩] w' := by
  intro e he
  rw [List.mem_singleton.mp he]
  exact hd

theorem note_runs {d e : Deed} (hd : d ≠ .relocated) :
    (simulation m O base base').Runs A w (.note d) (.note e) fun _ _ _ =>
      (simulation m O base base').assumed ⟨A, d⟩ :=
  Simulation.Runs.note fun _ _ => advance_of_ne hd

theorem covers : m.Covers (m.Clear O) (likeness m O) where
  inherited := Machine.Clear.refers
  trace _ h := h
  tag _ _ h := nomatch h.plain.1.self
  closure _ _ _ _ h := nomatch h.plain.1.self
  special _ h := nomatch h.plain.1.self
  undefined _ _ := rfl

theorem fault_alike_unread (f : Fault) : Fault.Alike .unread f f :=
  .same (List.forall₂_same.mpr fun v _ => v.alike_unread)

/-- What is read from both stores.  A fault may show the output, which is not clear. -/
theorem ofStore_runs {α β : Type} {f : Store → Except Fault α} {g : Store → Except Fault β}
    {P : α → β → Prop} (h : Beside m O w → Agree .unread P (f w.first.store) (g w.second.store)) :
    (simulation m O base base').Runs A w (.watch do Run.ofExcept (f (← Run.store)))
      (.watch do Run.ofExcept (g (← Run.store))) fun _ => P := by
  intro hw _
  have hagree := h hw
  show (simulation m O base base').Ends _ _ _ (Run.ofExcept (f w.first.store) w.first)
    (Run.ofExcept (g w.second.store) w.second)
  revert hagree
  generalize f w.first.store = x
  generalize g w.second.store = y
  intro hagree
  cases hagree with
  | ok hab => exact ⟨fun _ he => (List.not_mem_nil he).elim, hw, hab⟩
  | error hf => exact .inr ⟨hw, .fault (hf.raised hw.stores.alike.hasText_eq)⟩

/-! ## Edits of both stores -/

section Edits

variable {α β γ δ : Type} {s s' : Store} {t : Trace} {a : Address}

/-- Edits of both stores that end alike. -/
def Follow (m : Machine) (O : Value) (P : α → β → Prop) :
    EStateM.Result Fault Store α → EStateM.Result Fault Store β → Prop
  | .ok a s, .ok b s' => Stores m O s s' ∧ P a b
  | .error f s, .error g s' => Stores m O s s' ∧ f = g
  | _, _ => False

theorem Follow.bind {x : Edit α} {y : Edit β} {f : α → Edit γ} {g : β → Edit δ}
    {P : α → β → Prop} {Q : γ → δ → Prop} (h : Follow m O P (x s) (y s'))
    (hf : ∀ a b s s', Stores m O s s' → P a b → Follow m O Q (f a s) (g b s')) :
    Follow m O Q ((x >>= f) s) ((y >>= g) s') := by
  show Follow m O Q (EStateM.bind x f s) (EStateM.bind y g s')
  unfold EStateM.bind
  revert h
  cases x s <;> cases y s' <;> intro h
  · exact hf _ _ _ _ h.1 h.2
  · exact False.elim h
  · exact False.elim h
  · exact h

/-- Both evaluations reach the same node. -/
theorem Stores.reach (h : Stores m O s s') (ht : Ground m O t) :
    Follow m O (fun u u' => u = u' ∧ Ground m O u) (t.reach a s) (t.reach a s') := by
  induction a generalizing s s' t with
  | nil => exact ⟨h, rfl, ht⟩
  | cons k a ih =>
    have hchild' := h.alike.child?_eq t k
    have hwritable' := h.alike.isWritable_eq t
    cases hchild : s.child? t k with
    | some u =>
      rw [Trace.reach_found hchild, Trace.reach_found (hchild'.symm.trans hchild)]
      exact ih h (h.first.ground ht hchild)
    | none =>
      rw [hchild] at hchild'
      cases hw : s.isWritable t with
      | false =>
        rw [hw] at hwritable'
        rw [Trace.reach_readOnly hchild hw, Trace.reach_readOnly hchild'.symm hwritable'.symm]
        exact ⟨h, rfl⟩
      | true =>
        rw [hw] at hwritable'
        cases t with
        | tree _ _ => cases hw
        | cell n =>
          rw [Trace.reach_missing hchild hw, Trace.reach_missing hchild'.symm hwritable'.symm,
            ← h.alike.size]
          exact ih ⟨h.alike.grow n k, h.first.grow ht, h.second.grow ht⟩ (.inr ⟨_, h.first.size, rfl⟩)

theorem Stores.put (h : Stores m O s s') (ht : Ground m O t)
    (hv : Value.Alike (likeness m O) v v') :
    Follow m O (fun _ _ => True) (t.put (some v) s) (t.put (some v') s') := by
  have hwritable' := h.alike.isWritable_eq t
  cases hw : s.isWritable t with
  | false =>
    rw [hw] at hwritable'
    rw [Trace.put_readOnly _ hw, Trace.put_readOnly _ hwritable'.symm]
    exact ⟨h, rfl⟩
  | true =>
    rw [hw] at hwritable'
    cases t with
    | tree _ _ => cases hw
    | cell n =>
      rw [Trace.put_writable _ hw, Trace.put_writable _ hwritable'.symm]
      exact ⟨⟨h.alike.setValue n (alike_unread hv), h.first.setValue ht _, h.second.setValue ht _⟩,
        trivial⟩

theorem Beside.withStores (h : Beside m O w) (hs : Stores m O s s') :
    Beside m O ⟨{ w.first with store := s }, { w.second with store := s' }⟩ where
  serials := h.serials
  draws := h.draws
  spare := h.spare
  stores := hs
  frames := h.frames
  opened := h.opened
  bindings := h.bindings
  others := h.others

theorem edit_runs {e : Edit α} {e' : Edit β} {P : α → β → Prop}
    (h : ∀ s s', Stores m O s s' → Follow m O P (e s) (e' s')) :
    (simulation m O base base').Runs A w (.watch (Run.edit e)) (.watch (Run.edit e'))
      fun _ => P := by
  intro hw _
  have hfollow := h _ _ hw.stores
  simp only [Watched.run_watch, Run.edit]
  revert hfollow
  cases e w.first.store <;> cases e' w.second.store <;> intro hfollow
  · exact ⟨fun _ he => (List.not_mem_nil he).elim, hw.withStores hfollow.1, hfollow.2⟩
  · exact hfollow
  · exact hfollow
  · obtain ⟨hstores, rfl⟩ := hfollow
    exact .inr ⟨hw.withStores hstores,
      .fault ((fault_alike_unread _).raised hstores.alike.hasText_eq)⟩

end Edits

/-! ## Overlays -/

section Overlays

theorem confined_keptIn {s : Store} (h : Confined m O s) : m.KeptIn (m.Clear O) s where
  inherited := Machine.Clear.refers
  there hn := hn.plain.sound.cell_lt
  size := h.size
  cell hn := h.others hn.not_ground

theorem Beside.keptBy (h : Beside m O w) :
    m.KeptBy (m.Clear O) (likeness m O) w.first.store w.second.store where
  first := confined_keptIn h.stores.first
  second := confined_keptIn h.stores.second
  trace ht := ht
  name hc := hc.2.1.2
  serials := .ofEq And.left And.left id

theorem overlay_alike {overlay : Option Trace} (hclear : ∀ t ∈ overlay, m.Clear O (.trace t))
    (a : Address) :
    Option.Rel (Value.Alike (likeness m O)) (overlay.bind (m.store.valueAt? · a))
      (overlay.bind (m.store.valueAt? · a)) := by
  cases hv : overlay.bind (m.store.valueAt? · a) with
  | none => exact .none
  | some v =>
    obtain ⟨t, ht, hv⟩ := Option.bind_eq_some_iff.mp hv
    obtain ⟨u, hu, hv⟩ := Option.bind_eq_some_iff.mp hv
    exact .some (covers.alike v (((hclear t ht).find? hu).refers (.held hv)))

end Overlays

/-- No overlay of either evaluation shares a node with the output. -/
structure ClearBases (m : Machine) (O : Value) (base base' : Overlays Trace) : Prop where
  intervene : ∀ t ∈ base.intervene, m.Clear O (.trace t)
  target : ∀ t ∈ base.target, m.Clear O (.trace t)
  intervene' : ∀ t ∈ base'.intervene, m.Clear O (.trace t)
  target' : ∀ t ∈ base'.target, m.Clear O (.trace t)

section Laws

variable (hbases : ClearBases m O base base')
include hbases

/-- Where the overlays hold the same, the same is forced in both evaluations. -/
theorem Fits.forced (h : Fits m O base base' B o p) (hw : Beside m O w) (a : Address)
    (hagree : AgreeAt m base base' (B ++ a)) :
    Option.Rel (Value.Alike (likeness m O)) (o.intervene.bind (w.first.store.valueAt? · a))
      (p.intervene.bind (w.second.store.valueAt? · a)) := by
  rw [h.intervene, h.intervene', hw.keptBy.first.valueAt?_below hbases.intervene,
    hw.keptBy.second.valueAt?_below hbases.intervene', ← hagree.1]
  exact overlay_alike hbases.intervene _

theorem Fits.observed (h : Fits m O base base' A o p) (hw : Beside m O w)
    (hagree : AgreeAt m base base' A) :
    Option.Rel (Value.Alike (likeness m O)) (o.target.bind (w.first.store.valueAt? · []))
      (p.target.bind (w.second.store.valueAt? · [])) := by
  rw [h.target, h.target', hw.keptBy.first.valueAt?_below hbases.target,
    hw.keptBy.second.valueAt?_below hbases.target', List.append_nil, ← hagree.2]
  exact overlay_alike hbases.target _

theorem below_runs (a : Address) (h : Fits m O base base' B o p) :
    (simulation m O base base').Runs A w (.watch (Run.edit (o.below a)))
      (.watch (Run.edit (p.below a))) fun _ => Fits m O base base' (B ++ a) := by
  refine edit_runs fun s s' hs => ?_
  have hkept := confined_keptIn hs.first
  have hkept' := confined_keptIn hs.second
  have hfits {output : Option Trace} (hground : ∀ t ∈ output, Ground m O t) :
      Fits m O base base' (B ++ a)
        { intervene := o.intervene.bind (s.find? · a), target := o.target.bind (s.find? · a), output }
        { intervene := p.intervene.bind (s'.find? · a), target := p.target.bind (s'.find? · a),
          output } := by
    refine ⟨?_, ?_, ?_, ?_, rfl, hground⟩
    · rw [h.intervene]
      exact hkept.find?_below hbases.intervene B a
    · rw [h.intervene']
      exact hkept'.find?_below hbases.intervene' B a
    · rw [h.target]
      exact hkept.find?_below hbases.target B a
    · rw [h.target']
      exact hkept'.find?_below hbases.target' B a
  cases ho : o.output with
  | none =>
    rw [Overlays.below_absent ho, Overlays.below_absent (h.output.symm.trans ho)]
    exact ⟨hs, hfits nofun⟩
  | some t =>
    have hp := h.output.symm.trans ho
    have hreach := hs.reach (a := a) (h.ground t ho)
    revert hreach
    cases hr : t.reach a s <;> cases hr' : t.reach a s' <;> intro hreach
    · obtain ⟨hs', rfl, hu⟩ := hreach
      rw [Overlays.below_reach ho hr, Overlays.below_reach hp hr']
      refine ⟨hs', hfits fun t ht => ?_⟩
      cases ht
      exact hu
    · exact hreach.elim
    · exact hreach.elim
    · obtain ⟨hs', rfl⟩ := hreach
      rw [Overlays.below_fails ho hr, Overlays.below_fails hp hr']
      exact ⟨hs', rfl⟩

omit hbases

theorem recordCall_runs {f f' : Value} {vs vs' : List Value} (h : Fits m O base base' A o p)
    (hv : Value.Alike (likeness m O) v v') :
    (simulation m O base base').Runs A w (.recordCall f vs o v) (.recordCall f' vs' p v')
      fun _ _ _ => True := by
  have hrecord : (simulation m O base base').Runs A w (.watch (Evaluator.record o.output v))
      (.watch (Evaluator.record p.output v')) fun _ _ _ => True := by
    rw [← h.output]
    unfold Evaluator.record
    cases ho : o.output with
    | none => exact basic.pureRun trivial
    | some t => exact edit_runs fun s s' hs => hs.put (h.ground t ho) hv
  refine basic.bind hrecord ?_
  rintro w₁ - - - -
  unfold Watched.conclude
  rw [← h.output]
  have hreturned {w : Pair} : (simulation m O base base').Runs A w (.note (.returned f vs v))
      (.note (.returned f' vs' v')) fun _ _ _ => True :=
    (note_runs (by nofun)).mono fun _ _ _ _ _ => trivial
  dsimp only
  split
  · exact basic.bind (note_runs (by nofun)) fun _ _ _ _ _ => hreturned
  · exact hreturned

theorem recordDefinition_runs {a : Address} (h : Fits m O base base' B o p)
    (hv : Value.Alike (likeness m O) v v') :
    (simulation m O base base').Runs A w (.recordDefinition a o v) (.recordDefinition a p v')
      fun _ _ _ => True := by
  unfold Watched.recordDefinition
  rw [← h.output, hv.isTagAddress_eq]
  cases ho : o.output with
  | none => exact basic.pure trivial
  | some t =>
    dsimp only
    split
    · exact basic.pure trivial
    · refine basic.bind (P := fun _ _ _ => True) (edit_runs fun s s' hs => ?_) ?_
      · refine (hs.reach (h.ground t ho)).bind ?_
        rintro u _ r r' hr ⟨rfl, hu⟩
        exact hr.put hu hv
      · rintro w₁ - - - -
        exact (note_runs (by nofun)).mono fun _ _ _ _ _ => trivial

theorem checkOutput_runs (h : Fits m O base base' A o p) :
    (simulation m O base base').Runs A w (.checkOutput o) (.checkOutput p) fun _ _ _ => True := by
  refine ofStore_runs fun hw => ?_
  rw [← h.output]
  unfold Evaluator.checkOutput
  cases o.output with
  | none => exact .ok trivial
  | some t =>
    simp only [hw.stores.alike.isWritable_eq t]
    split
    · exact .ok trivial
    · exact .error (fault_alike_unread _)

include hbases in
theorem parallel : (simulation m O base base').Parallel where
  toBasic := basic
  drawn hw := ⟨hw.draws, hw.spare⟩
  numbered hw := hw.serials
  quiet hw hstore hframes hstore' hframes' hcounted := by
    refine ⟨⟨hw.counted hcounted, ?_, ?_, ?_, ?_, ?_⟩, fun _ he => (List.not_mem_nil he).elim⟩
    · rw [hstore, hstore']
      exact hw.stores
    · rw [hframes, hframes', hw.frames]
    · rw [hframes]
      exact hw.opened
    · intro i hi
      unfold Machine.bindings
      rw [hframes, hframes']
      exact hw.bindings hi
    · intro i hi
      unfold Machine.bindings
      rw [hframes, hframes']
      exact hw.others hi
  alike_of_walked hcalled hv := hv (hcalled rfl)
  force {w A B a o p v v'} hA hsite hv := by
    refine Simulation.Runs.withStore fun hw => basic.pureRun fun hagree => ?_
    rw [hA] at hagree
    rcases rel_cases (hsite.forced hbases hw a hagree) with ⟨hi, hi'⟩ | ⟨i, i', hi, hi', hii⟩
    · rw [hi, hi']
      exact hv
    · rw [hi, hi']
      exact hii
  gave hv := (note_runs (by nofun)).mono fun _ _ _ _ hgave => hv (hgave rfl)
  forced {w A o p} hcalled hw hsite := by
    rw [overlayValue?_eq, overlayValue?_eq]
    refine hsite.forced hbases hw [] ?_
    rw [List.append_nil]
    exact hcalled rfl
  observed hcalled hw hsite := by
    rw [overlayValue?_eq, overlayValue?_eq]
    exact hsite.observed hbases hw (hcalled rfl)
  same hw hv hu := hw.keptBy.same_eq hv hu
  relate r hw hv hu := hw.keptBy.relate_eq r hv hu
  captured hw hsite := ⟨hw.serials, hsite.output⟩
  remark {w A d} hd _ := advance_of_ne fun h => by
    rw [h] at hd
    cases hd
  checkOutput hsite := checkOutput_runs hsite
  below a hsite := below_runs hbases a hsite
  recordCall _ _ _ _ _ hsite hv := recordCall_runs hsite hv
  defined _ _ := advance_of_ne nofun
  recordDefinition _ hsite hv := recordDefinition_runs hsite hv
  returned _ _ _ _ _ := advance_of_ne nofun

end Laws

/-! ## Code -/

theorem Beside.frameAlike (hw : Beside m O w) {i j : FrameId} (h : Seen (Opened m) i j) :
    FrameAlike (likeness m O) (w.first.bindings i) (w.second.bindings j) := by
  obtain ⟨rfl, hi⟩ := h
  exact hw.bindings hi

theorem openFrame_runs (source : Trace) (h : ScopesAlike (Seen (Opened m)) c d) :
    (simulation m O base base').Runs A w (.openFrame source c) (.openFrame source d)
      fun _ => ScopesAlike (Seen (Opened m)) := by
  intro hw _
  refine ⟨advance_of_ne (d := .opened _ source) nofun,
    ⟨⟨hw.serials, hw.draws, hw.spare⟩, hw.stores, ?_, ?_, ?_, ?_⟩,
    .frame ⟨hw.frames, hw.opened⟩ h⟩
  · simpa using hw.frames
  · exact Nat.le_trans hw.opened (by simp)
  · intro i hi
    rw [Machine.bindings_push, Machine.bindings_push]
    exact hw.bindings hi
  · intro i hi
    rw [Machine.bindings_push, Machine.bindings_push]
    exact hw.others hi

/-- Binding a pattern in a frame that is seen leaves machines beside each other. -/
theorem Beside.rebinds {names : List String} {w' : Pair} (hw : Beside m O w)
    (hscopes : ScopesAlike (Seen (Opened m)) c c)
    (h : Simulation.Rebinds (likeness m O) w c c names w') : Beside m O w' := by
  have hinner {i : FrameId} (hi : c.innermost? = some i) : m.frames.size ≤ i := by
    cases hscopes with
    | top => cases hi
    | absent => cases hi
    | frame hij _ =>
      cases hi
      exact hij.2
  refine ⟨?_, ?_, ?_, ?_, fun {i} hi => ?_, fun {i} hi => ?_⟩
  · have hstep : Pair.InStep ⟨w'.first, w'.second⟩ := by
      rw [h.first.rest, h.second.rest]
      exact ⟨hw.serials, hw.draws, hw.spare⟩
    exact hstep
  · rw [h.first.store, h.second.store]
    exact hw.stores
  · rw [h.first.size, h.second.size, hw.frames]
  · rw [h.first.size]
    exact hw.opened
  · by_cases hid : c.innermost? = some i
    · exact h.alike hid hid
    · rw [h.first.others hid, h.second.others hid]
      exact hw.bindings hi
  · have hid : c.innermost? ≠ some i := fun hid => hi (hinner hid)
    rw [h.first.others hid, h.second.others hid]
    exact hw.others hi

theorem bindPattern_runs {ctx : Context} {s : Shape} (h : ScopesAlike (Seen (Opened m)) c d)
    (hv : Value.Alike (likeness m O) v v') :
    (simulation m O base base').Runs A w (.bindPattern ctx c s.toTrace v)
      (.bindPattern ctx d s.toTrace v') fun _ _ _ => True := by
  obtain rfl := h.eq And.left
  intro hw _
  rw [Watched.run_bindPattern, Watched.run_bindPattern]
  have hsize {i j : FrameId} (hij : Seen (Opened m) i j) :
      i < w.first.frames.size ↔ j < w.second.frames.size := by
    rw [hij.1, hw.frames]
  obtain ⟨m', n', hrebinds, ⟨hok, hok'⟩ | ⟨f, g, hhalts, herror, herror'⟩⟩ :=
    s.matchBind_cases ctx (fun hx => covers.alike _ (.ofData hx)) (basic.text hw) h.innermost
      hw.frameAlike hsize hv
  · rw [hok, hok', Watched.events_bindPattern hok]
    exact ⟨advance_of_ne (d := .bound _ _ _) nofun, hw.rebinds h hrebinds, trivial⟩
  · rw [herror, herror']
    exact .inr ⟨hw.rebinds h hrebinds, hhalts.mono alike_unread⟩

theorem programmed {ctx : Context} (htop : ctx.topLevel = .standard)
    (hbases : ClearBases m O base base') :
    (simulation m O base base').Programmed ctx (Placed m) (Bound m) where
  toBasic := basic
  code_iff := .rfl
  parts_iff := .rfl
  entered_iff := .rfl
  binding_iff := .rfl
  operands {A t ts c d} h i u hu := by
    have hall : Term.areStationary (t :: ts) = true := h.1
    exact ⟨Term.isStationary_of_mem hall (List.mem_of_getElem? hu), h.2⟩
  branches {A p y n c d} h := by
    obtain ⟨hstationary, hscopes⟩ := h
    rw [Term.isStationary, Bool.and_eq_true, Bool.and_eq_true] at hstationary
    obtain ⟨⟨hp, hy⟩, hn⟩ := hstationary
    exact ⟨⟨hp, hscopes⟩, ⟨hy, hscopes⟩, ⟨hn, hscopes⟩⟩
  definition h := ⟨h, h.2⟩
  tagPart h := nomatch h.1
  lookup h := Simulation.Runs.withMachine fun hw => by
    refine basic.ofExcept ?_
    rw [htop]
    exact Scope.find_agree hw.frameAlike
      (TopLevel.resolve_standard_agree (L := likeness m O) (fun _ hs => hs) (.text _)) h.2
  data hv := covers.alike _ (.ofData hv)
  closure {w A p t name c d label} h hlabel := by
    refine ((parallel hbases).fresh (·.serials)).mono ?_
    rintro w₁ i _ - rfl
    exact ⟨rfl, ⟨⟨p, t, name, rfl, h.1⟩, .ofData hlabel⟩, h.2⟩
  openBlock {w A ts c d} h := by
    refine (openFrame_runs _ h.2).mono ?_
    rintro w₁ c' d' - hscopes i t ht
    exact ⟨Term.isStationary_of_mem h.1 (List.mem_of_getElem? ht), hscopes⟩
  openClosure h := by
    obtain ⟨-, ⟨⟨p, t, name, rfl, ht⟩, -⟩, hscopes⟩ := h
    exact (openFrame_runs _ hscopes).mono fun _ _ _ _ h => ⟨p, t, name, rfl, ⟨ht, h⟩, h⟩
  bindPattern h hv := bindPattern_runs h hv
  invoked _ _ := advance_of_ne nofun
  relocate h _ := nomatch h.1

theorem lawful {ctx : Context} (htop : ctx.topLevel = .standard)
    (hbases : ClearBases m O base base') : (simulation m O base base').Lawful ctx where
  toBasic := basic
  toCoded := (programmed htop hbases).coded
  toOverlaid := (parallel hbases).overlaid ctx

/-! ## Evaluation from the start -/

theorem Beside.start : Beside m O ⟨m, m⟩ where
  serials := rfl
  draws := rfl
  spare := rfl
  stores := ⟨.refl Value.alike_unread _, .start, .start⟩
  frames := rfl
  opened := Nat.le_refl _
  bindings hi := by
    rw [Machine.bindings_of_size_le hi]
    exact .empty
  others _ := rfl

theorem Beside.alikeBy (h : Beside m O w) : w.first.AlikeBy .unread w.second where
  inStep := h.toInStep
  store := h.stores.alike
  frames := h.frames
  bindings id := by
    by_cases hid : m.frames.size ≤ id
    · exact (h.bindings hid).mono alike_unread
    · rw [h.others hid]
      exact .refl _ fun _ v _ => v.alike_unread

theorem overlays_runs :
    (simulation m O base base').Runs [] w (.overlays base.intervene base.target O)
      (.overlays base'.intervene base'.target O) fun _ => Fits m O base base' [] := by
  have hfits {output : Option Trace} (hground : ∀ t ∈ output, Ground m O t) :
      Fits m O base base' [] { base with output } { base' with output } := by
    have hroot (overlay : Option Trace) : overlay = overlay.bind (m.store.find? · []) := by
      cases overlay <;> rfl
    exact ⟨hroot _, hroot _, hroot _, hroot _, rfl, hground⟩
  refine ofStore_runs fun hw => ?_
  unfold Evaluator.withOutput
  cases O with
  | null => exact .ok (hfits nofun)
  | trace t =>
    simp only [Evaluator.checkOutput, hw.stores.alike.isWritable_eq t]
    split
    · refine .ok (hfits fun u hu => ?_)
      cases hu
      exact .inl ⟨t, [], rfl, rfl⟩
    · exact .error (fault_alike_unread _)
  | _ => exact .error (fault_alike_unread _)

/-- An evaluation of an expression without `with-address` stays under its overlays. -/
theorem eval_stays {ctx : Context} (htop : ctx.topLevel = .standard) {exp : Trace}
    (hexp : Expression.Stationary exp) (hbase : ClearBases m O base base) {r : Value × Float}
    {m' : Machine}
    (hrun : (Watched.eval ctx (.trace exp) .top base.intervene base.target O).run m = .ok r m') :
    ∀ e ∈ (Watched.eval ctx (.trace exp) .top base.intervene base.target O).events m,
      e.deed ≠ .relocated := by
  obtain ⟨e, rfl, he⟩ := hexp
  have hexp : Value.Alike (likeness m O) (.trace e.toTrace) (.trace e.toTrace) :=
    .trace (.ofData e.isData_toTrace)
  have hcode : ∀ t, Value.trace e.toTrace = .trace t →
      (simulation m O base base).code [] t .top .top := by
    rintro _ ⟨⟩
    exact ⟨e, rfl, he, .top⟩
  have hends := (lawful htop hbase).eval hexp hcode overlays_runs Beside.start
    fun _ _ _ => ⟨rfl, rfl⟩
  simp only [hrun] at hends
  exact fun x hx => hends.1 (x.below []) (List.mem_map_of_mem hx)

/-- Evaluations under overlays that hold the same wherever the first one looks end alike. -/
theorem eval_endsAlike {ctx : Context} (htop : ctx.topLevel = .standard) {m : Machine} {exp : Trace}
    (hexp : Expression.Stationary exp) {intervene intervene' target target' : Option Trace}
    {output : Value}
    (hclear : ∀ t, t ∈ intervene ∨ t ∈ intervene' ∨ t ∈ target ∨ t ∈ target' →
      m.Clear output (.trace t))
    (hsame : ∀ a, Visited ((Watched.eval ctx (.trace exp) .top intervene target output).events m) a →
      SameAt m.store intervene intervene' a ∧ SameAt m.store target target' a) :
    EndsAlike .unread (Evaluator.eval ctx (.trace exp) .top intervene target output m)
      (Evaluator.eval ctx (.trace exp) .top intervene' target' output m) := by
  obtain ⟨e, rfl, he⟩ := hexp
  let base : Overlays Trace := { intervene, target }
  let base' : Overlays Trace := { intervene := intervene', target := target' }
  have hbases : ClearBases m output base base' :=
    ⟨fun t ht => hclear t (.inl ht), fun t ht => hclear t (.inr (.inr (.inl ht))),
      fun t ht => hclear t (.inr (.inl ht)), fun t ht => hclear t (.inr (.inr (.inr ht)))⟩
  have hexp : Value.Alike (likeness m output) (.trace e.toTrace) (.trace e.toTrace) :=
    .trace (.ofData e.isData_toTrace)
  have hcode : ∀ t, Value.trace e.toTrace = .trace t →
      (simulation m output base base').code [] t .top .top := by
    rintro _ ⟨⟩
    exact ⟨e, rfl, he, .top⟩
  -- The overlays are compared only where the first run asked for a value.
  have hassumed : ∀ x ∈ (Watched.eval ctx (.trace e.toTrace) .top intervene target output).events m,
      (simulation m output base base').assumed (x.below []) :=
    fun x hx hvisit => hsame x.address (.inr ⟨x, hx, hvisit, rfl⟩)
  have hends := (lawful htop hbases).eval hexp hcode overlays_runs Beside.start hassumed
  rw [Watched.run_eval, Watched.run_eval] at hends
  revert hends
  generalize Evaluator.eval ctx (.trace e.toTrace) .top intervene target output m = r
  generalize Evaluator.eval ctx (.trace e.toTrace) .top _ _ output m = q
  intro hends
  match r, q, hends with
  | .ok (v, score) n, .ok (v', score') n', hends =>
    obtain ⟨-, hw, hv, hscore⟩ := hends
    cases hscore
    exact .returned (alike_unread (hv (hsame [] (.inl rfl)))) hw.alikeBy
  | .error h n, .error k n', hends =>
    obtain ⟨hw, hk⟩ := hends.resolve_left id
    exact .failed hk hw.alikeBy
  | .ok _ _, .error _ _, hends => exact hends.elim
  | .error _ _, .ok _ _, hends => exact hends.elim

/-- One of two coins, chosen by a third. -/
def chosenCoin : Trace :=
  Expression.conditional
    (Expression.application [Expression.reference "flip", Expression.literal (.int 1)])
    (Expression.application [Expression.reference "flip", Expression.literal (.float 0.5)])
    (Expression.application [Expression.reference "flip", Expression.literal (.float 0.5)])

/-- An overlay that forces the coin that is not chosen, with a node on the way to the other. -/
def idleOverlay : Trace :=
  .tree none [(.name "then", .tree none []),
    (.name "else", .tree none [(.name "flip", .leaf (.bool true))])]

theorem chosenCoin_endsAlike :
    EndsAlike .unread
      (Evaluator.eval .halves (.trace chosenCoin) .top none none (.trace (.cell 0)) .oneCell)
      (Evaluator.eval .halves (.trace chosenCoin) .top (some idleOverlay) none (.trace (.cell 0))
        .oneCell) := by
  have hunforced : ((Watched.eval .halves (.trace chosenCoin) .top none none
      (.trace (.cell 0))).events .oneCell).all (fun e => !e.deed.isVisit ||
        (Machine.oneCell.store.valueAt? idleOverlay e.address).isNone) = true := by
    decide +kernel
  refine eval_endsAlike rfl ⟨.conditional
    (.application (.reference "flip") [.literal (.int 1) rfl])
    (.application (.reference "flip") [.literal (.float 0.5) rfl])
    (.application (.reference "flip") [.literal (.float 0.5) rfl]), rfl, rfl⟩ ?_ ?_
  · rintro t (ht | ht | ht | ht) <;> cases ht
    exact .ofData rfl
  · rintro a (rfl | ⟨e, he, hvisit, rfl⟩)
    · exact ⟨rfl, rfl⟩
    · have hnone := List.all_eq_true.mp hunforced e he
      rw [hvisit, Bool.not_true, Bool.false_or, Option.isNone_iff_eq_none] at hnone
      exact ⟨hnone.symm, rfl⟩

end Relevance
end ProbTrace
