import ProbTrace.Proofs.Contract
import ProbTrace.Proofs.Fidelity

/-!
# What a run of a program keeps

A program runs among things that are tame: their procedures are closures of syntax trees or
procedures of the standard top level, and no tag can be reached from them.  All that the run
meets are such things and what it makes of them.  This is kept whatever the output is, also
if the output is part of the intervention.

Three facts are carried along.  A tag address that is written to the store was returned by a
call.  If nothing is observed, then all scores are zero.  And if the output is made by the run
itself, then the run can always write to it.
-/

namespace ProbTrace

/-- Things from which no tag can be reached, and no procedure but closures of syntax trees and
procedures of the standard top level. -/
def Machine.Tame (m : Machine) : Item → Prop :=
  m.Throughout fun y => y.IsAuthored ∧ ∀ serial o, y ≠ .value (.tag serial o)

namespace Machine.Tame

variable {m : Machine} {x : Item}

theorem ofData (h : x.isData = true) : m.Tame x := by
  refine Throughout.ofData (fun {y} hy => ⟨(Authored.ofData (m := m) hy).self, ?_⟩) h
  rintro serial o rfl
  cases hy

theorem ofAuthored (h : m.Authored x) (htag : m.TagFree x) : m.Tame x := by
  refine fun y hy => ⟨h y hy, ?_⟩
  rintro serial o rfl
  exact htag serial o hy

theorem ofPlain (h : m.Plain x) : m.Tame x := by
  refine ofAuthored (fun y hy => Item.isAuthored_of ?_ ?_) h.sound.1
  · rintro serial source c name rfl
    cases h.1 _ hy
  · rintro s rfl
    cases h.1 _ hy

end Machine.Tame

/-! ## Tag addresses in the store -/

/-- A store that follows another one after a log: its new children are new cells, and its new
tag addresses were returned by calls. -/
structure Store.Follows (s : Store) (es : List Event) (s' : Store) : Prop where
  size : s.cells.size ≤ s'.cells.size
  child : ∀ {n k u}, (k, u) ∈ (s'.cell n).children → (k, u) ∈ (s.cell n).children ∨ s.Fresh u
  tag : ∀ {n v}, (s'.cell n).value = some v → v.isTagAddress = true →
    (s.cell n).value = some v ∨ ∃ a f vs, ⟨a, .returned f vs v⟩ ∈ es

namespace Store.Follows

variable {s s' s'' : Store} {es es' : List Event} {n : NodeId} {k : Key} {v : Value}

theorem refl (s : Store) (es : List Event) : s.Follows es s :=
  ⟨Nat.le_refl _, .inl, fun hv _ => .inl hv⟩

theorem append (h : s.Follows es s') (h' : s'.Follows es' s'') : s.Follows (es ++ es') s'' where
  size := Nat.le_trans h.size h'.size
  child hu := by
    rcases h'.child hu with hu | ⟨i, hi, rfl⟩
    · exact h.child hu
    · exact .inr ⟨i, Nat.le_trans h.size hi, rfl⟩
  tag hv htag := by
    rcases h'.tag hv htag with hv | ⟨a, f, vs, hmem⟩
    · rcases h.tag hv htag with hv | ⟨a, f, vs, hmem⟩
      · exact .inl hv
      · exact .inr ⟨a, f, vs, List.mem_append_left _ hmem⟩
    · exact .inr ⟨a, f, vs, List.mem_append_right _ hmem⟩

theorem below (a : Address) (h : s.Follows es s') : s.Follows (es.map (Event.below a)) s' where
  size := h.size
  child := h.child
  tag hv htag := by
    refine (h.tag hv htag).imp_right ?_
    rintro ⟨b, f, vs, hmem⟩
    exact ⟨a ++ b, f, vs, List.mem_map.mpr ⟨_, hmem, rfl⟩⟩

theorem grow (n : NodeId) (k : Key) : s.Follows [] (s.grow n k) where
  size := by
    rw [Store.size_grow]
    exact Nat.le_succ _
  child {i j u} hu := by
    rw [Store.cell_grow] at hu
    split at hu
    · rename_i hin
      rcases Store.mem_insertChild hu with heq | hu
      · cases heq
        exact .inr ⟨_, Nat.le_refl _, rfl⟩
      · rw [hin.1]
        exact .inl hu
    · exact .inl hu
  tag {i v} hv _ := by
    have hvalue : (s.grow n k).value? (.cell i) = s.value? (.cell i) := Store.value?_grow ..
    exact .inl (hvalue.symm.trans hv)

theorem setValue (n : NodeId) (v : Value)
    (h : v.isTagAddress = true → ∃ a f vs, ⟨a, .returned f vs v⟩ ∈ es) :
    s.Follows es (s.setValue n (some v)) where
  size := Nat.le_of_eq (Store.size_setValue ..).symm
  child {i j u} hu := by
    change (j, u) ∈ (s.setValue n (some v)).children (.cell i) at hu
    rw [Store.children_setValue] at hu
    exact .inl hu
  tag {i u} hu htag := by
    rw [Store.cell_setValue] at hu
    split at hu
    · cases hu
      exact .inr (h htag)
    · exact .inl hu

theorem reach {t u : Trace} {a : Address} (h : t.reach a s = .ok u s') : s.Follows [] s' := by
  induction a generalizing t s with
  | nil =>
    cases h
    exact .refl _ _
  | cons k a ih =>
    cases hchild : s.child? t k with
    | some x =>
      rw [Trace.reach_found hchild] at h
      exact ih h
    | none =>
      cases hw : s.isWritable t with
      | false =>
        rw [Trace.reach_readOnly hchild hw] at h
        cases h
      | true =>
        cases t with
        | tree _ _ => cases hw
        | cell n =>
          rw [Trace.reach_missing hchild hw] at h
          exact (grow n k).append (ih h)

end Store.Follows

namespace Upkeep

/-! ## The contract -/

section Definitions

-- Whether the run observes nothing, and whether it records into cells of its own only.
variable (m : Machine) (unobserved own : Prop)

/-- The traces that are met: tame ones, and new cells. -/
def Known (t : Trace) : Prop :=
  m.Tame (.trace t) ∨ m.store.Fresh t

/-- The overlays that are met. -/
structure Fits (o : Overlays Trace) : Prop where
  intervene : ∀ t ∈ o.intervene, Known m t
  target : ∀ t ∈ o.target, Known m t
  unobserved : unobserved → o.target = none
  output : own → ∀ t ∈ o.output, m.store.Fresh t

/-- The frames that are seen: those of tame scopes, and new ones. -/
def Frame (i : FrameId) : Prop :=
  m.frames.size ≤ i ∨ ∃ c, m.Tame (.scope (.frame i c))

/-- The values that are met. -/
abbrev Met (v : Value) : Prop :=
  Value.Alike (.copying (Frame m) (Known m) (fun _ => True) (Fits m unobserved own)) v v

/-- Traces that are met hold values and have children that are met. -/
structure Kept (s : Store) : Prop where
  size : m.store.cells.size ≤ s.cells.size
  held : ∀ {t v}, Known m t → s.value? t = some v → Met m unobserved own v
  child : ∀ {t k u}, Known m t → (k, u) ∈ s.children t → Known m u
  grown : own → m.store.Grown s

def contract : Contract where
  frame := Frame m
  opened := m.frames.size
  trace := Known m
  site := Fits m unobserved own
  stored := Kept m unobserved own
  advance := Store.Follows
  score x := unobserved → x = 0.0
  fault f := own → f.isStuck = false

end Definitions

variable {m : Machine} {unobserved own : Prop} {s s' : Store} {t u : Trace} {n : NodeId} {k : Key}
variable {a : Address} {v : Value} {o : Overlays Trace}

theorem covers :
    m.Covers m.Tame (.copying (Frame m) (Known m) (fun _ => True) (Fits m unobserved own)) :=
  Machine.Authored.covers Machine.Throughout.hereditary (fun hx => hx.self.1) (fun _ => .inl)
    (fun _ _ => trivial) (fun _ _ h => absurd rfl (h.self.2 _ _)) fun _ c hc => .inr ⟨c, hc⟩

/-! ## The store -/

theorem hereditary : m.Hereditary m.Tame :=
  Machine.Throughout.hereditary

namespace Kept

variable (h : Kept m unobserved own s)
include h

theorem setValue (hn : own → m.store.cells.size ≤ n) (hv : Met m unobserved own v) :
    Kept m unobserved own (s.setValue n (some v)) where
  size := by
    rw [Store.size_setValue]
    exact h.size
  held := by
    intro t x ht hx
    cases t with
    | tree _ _ => exact h.held ht hx
    | cell i =>
      rw [Store.value?, Store.cell_setValue] at hx
      split at hx
      · cases hx
        exact hv
      · exact h.held ht hx
  child := by
    intro t k u ht hu
    rw [Store.children_setValue] at hu
    exact h.child ht hu
  grown hown := (h.grown hown).setValue (hn hown) (some v)

theorem grow (hn : own → m.store.cells.size ≤ n) : Kept m unobserved own (s.grow n k) where
  size := by
    rw [Store.size_grow]
    exact Nat.le_succ_of_le h.size
  held := by
    intro t x ht hx
    rw [Store.value?_grow] at hx
    exact h.held ht hx
  child := by
    intro t j u ht hu
    cases t with
    | tree _ _ => exact h.child ht hu
    | cell i =>
      rw [Store.children, Store.cell_grow] at hu
      split at hu
      · rename_i hin
        rcases Store.mem_insertChild hu with heq | hu
        · cases heq
          exact .inr ⟨_, h.size, rfl⟩
        · exact h.child ht (hin.1 ▸ hu)
      · exact h.child ht hu
  grown hown := (h.grown hown).grow (hn hown) k

theorem alloc : Kept m unobserved own (s.alloc {}).1 where
  size := by
    rw [Store.size_alloc]
    exact Nat.le_succ_of_le h.size
  held := by
    intro t v ht hv
    rw [Store.value?_alloc_empty] at hv
    exact h.held ht hv
  child := by
    intro t k u ht hu
    rw [Store.children_alloc_empty] at hu
    exact h.child ht hu
  grown hown := (h.grown hown).alloc

theorem find? (ht : Known m t) (hu : s.find? t a = some u) : Known m u :=
  Store.find?_inherits h.child ht hu

/-- Reaching an address leaves the store kept, and it cannot fail below a new cell. -/
theorem reach (ht : own → m.store.Fresh t) :
    match t.reach a s with
    | .ok u s' => Kept m unobserved own s' ∧ (own → m.store.Fresh u)
    | .error f _ => own → f.isStuck = false := by
  induction a generalizing s t with
  | nil => exact ⟨h, ht⟩
  | cons k a ih =>
    cases hchild : s.child? t k with
    | some x =>
      rw [Trace.reach_found hchild]
      exact ih h fun hown => (h.grown hown).child (ht hown) (mem_of_childAt? hchild)
    | none =>
      cases hw : s.isWritable t with
      | false =>
        rw [Trace.reach_readOnly hchild hw]
        intro hown
        rw [(h.grown hown).writable (ht hown)] at hw
        cases hw
      | true =>
        cases t with
        | tree _ _ => cases hw
        | cell n =>
          have hn (hown : own) : m.store.cells.size ≤ n := by
            obtain ⟨i, hi, heq⟩ := ht hown
            cases heq
            exact hi
          rw [Trace.reach_missing hchild hw]
          exact ih (h.grow hn) fun hown => ⟨_, (h.grown hown).size, rfl⟩

/-- Writing leaves the store kept, and it cannot fail at a new cell. -/
theorem put (ht : own → m.store.Fresh t) (hv : Met m unobserved own v) :
    (∃ n, t.put (some v) s = .ok () (s.setValue n (some v)) ∧
      Kept m unobserved own (s.setValue n (some v))) ∨
    ∃ f, t.put (some v) s = .error f s ∧ (own → f.isStuck = false) := by
  rcases t.put_cases (some v) s with ⟨n, rfl, -, hput⟩ | ⟨hw, hput⟩
  · refine .inl ⟨n, hput, h.setValue (fun hown => ?_) hv⟩
    obtain ⟨i, hi, heq⟩ := ht hown
    cases heq
    exact hi
  · refine .inr ⟨_, hput, fun hown => ?_⟩
    rw [(h.grown hown).writable (ht hown)] at hw
    cases hw

theorem valueAt? (ht : Known m t) (hv : s.valueAt? t a = some v) : Met m unobserved own v := by
  unfold Store.valueAt? at hv
  obtain ⟨u, hu, hv⟩ := Option.bind_eq_some_iff.mp hv
  exact h.held (h.find? ht hu) hv

end Kept

/-! ## Overlays -/

theorem below_keeps (a : Address) (ho : Fits m unobserved own o) :
    (contract m unobserved own).Keeps (.watch (Run.edit (o.below a))) (Fits m unobserved own) := by
  refine .edit (fun _ => rfl) fun {s} hs => ?_
  have hread {overlay : Option Trace} (h : ∀ t ∈ overlay, Known m t) :
      ∀ u ∈ overlay.bind (s.find? · a), Known m u := by
    intro u hu
    obtain ⟨t, ht, hfind⟩ := Option.bind_eq_some_iff.mp hu
    exact hs.find? (h t ht) hfind
  have hfits {output : Option Trace} (houtput : own → ∀ t ∈ output, m.store.Fresh t) :
      Fits m unobserved own { intervene := o.intervene.bind (s.find? · a),
                              target := o.target.bind (s.find? · a), output } := by
    refine ⟨hread ho.intervene, hread ho.target, fun hunobserved => ?_, houtput⟩
    rw [ho.unobserved hunobserved]
    rfl
  cases hoption : o.output with
  | none =>
    rw [Overlays.below_absent hoption]
    exact ⟨hs, .refl s [], hfits fun _ _ ht => nomatch ht⟩
  | some t =>
    have hreach := hs.reach (t := t) (a := a) fun hown => ho.output hown t hoption
    cases hr : t.reach a s with
    | ok u s' =>
      rw [hr] at hreach
      rw [Overlays.below_reach hoption hr]
      refine ⟨hreach.1, .reach hr, hfits fun hown x hx => ?_⟩
      cases hx
      exact hreach.2 hown
    | error f s' =>
      rw [hr] at hreach
      rw [Overlays.below_fails hoption hr]
      exact hreach

theorem recordCall_keeps {f : Value} {vs : List Value} (ho : Fits m unobserved own o)
    (hv : Met m unobserved own v) :
    (contract m unobserved own).Keeps (.recordCall f vs o v) fun _ => True := by
  intro n hn
  cases hoption : o.output with
  | none =>
    have hrun : (Watched.recordCall f vs o v).run n = .ok () n := by
      rw [Watched.run_recordCall, hoption]
      rfl
    rw [hrun]
    exact ⟨hn, .refl _ _, trivial⟩
  | some t =>
    have ht (hown : own) := ho.output hown t hoption
    rcases hn.stored.put ht hv with ⟨i, hput, hkept⟩ | ⟨g, hput, hg⟩
    · obtain ⟨hrun, hevents⟩ := Watched.recordCall_put hoption hput f vs
      rw [hrun, hevents]
      refine ⟨hn.withStore hkept, .setValue i v fun _ => ⟨[], f, vs, ?_⟩, trivial⟩
      exact List.mem_cons_of_mem _ List.mem_cons_self
    · have hrun : (Watched.recordCall f vs o v).run n = .error (.fault (n.store.raised g)) n := by
        rw [Watched.run_recordCall, hoption]
        exact Run.edit_error hput
      rw [hrun]
      exact fun hown => Store.raised_unstuck (hg hown)

/-- A definition writes no tag address, so that its write needs no call. -/
theorem recordDefinition_keeps (ho : Fits m unobserved own o) (hv : Met m unobserved own v) :
    (contract m unobserved own).Keeps (.recordDefinition a o v) fun _ => True := by
  intro n hn
  have hpure (h : Watched.recordDefinition a o v = pure ()) :
      (contract m unobserved own).Ends n.store ((Watched.recordDefinition a o v).events n)
        (fun _ => True) ((Watched.recordDefinition a o v).run n) := by
    rw [h]
    exact ⟨hn, .refl _ _, trivial⟩
  cases hoption : o.output with
  | none =>
    refine hpure ?_
    unfold Watched.recordDefinition
    rw [hoption]
  | some t =>
    cases htag : v.isTagAddress with
    | true => exact hpure (Watched.recordDefinition_tag hoption a htag)
    | false =>
      have hreach := hn.stored.reach (t := t) (a := a) fun hown => ho.output hown t hoption
      have hfails {g : Fault} {s' : Store}
          (h : (t.reach a >>= fun u => u.put (some v)) n.store = .error g s')
          (hg : own → g.isStuck = false) :
          (contract m unobserved own).Ends n.store ((Watched.recordDefinition a o v).events n)
            (fun _ => True) ((Watched.recordDefinition a o v).run n) := by
        unfold Watched.recordDefinition
        rw [hoption]
        dsimp only
        rw [if_neg (by simp [htag]), Watched.run_bind_apply, Watched.run_watch, Run.edit_error h]
        exact fun hown => Store.raised_unstuck (hg hown)
      cases hr : t.reach a n.store with
      | error g s' =>
        rw [hr] at hreach
        exact hfails (Trace.reach_put_error hr (some v)) hreach
      | ok u s' =>
        rw [hr] at hreach
        have hbind := Trace.reach_put hr (some v)
        rcases hreach.1.put hreach.2 hv with ⟨i, hput, hkept⟩ | ⟨g, hput, hg⟩
        · obtain ⟨hrun, hevents⟩ :=
            Watched.recordDefinition_put hoption (hbind.trans hput) htag
          rw [hrun, hevents]
          -- Only the address of a tag would have to be among the results of calls.
          have hwrite : s'.Follows [⟨[], .recorded v⟩] (s'.setValue i (some v)) :=
            .setValue i v fun h => absurd (htag.symm.trans h) Bool.false_ne_true
          exact ⟨hn.withStore hkept, (Store.Follows.reach hr).append hwrite, trivial⟩
        · exact hfails (hbind.trans hput) hg

theorem lawful : (contract m unobserved own).Lawful where
  seen := .inl
  data ht := .inl (.ofData ht)
  zero _ := rfl
  sum hx hy hunobserved := by
    rw [hx hunobserved, hy hunobserved]
    rfl
  routine hf _ := hf
  refl s := .refl s []
  append := .append
  within := .below
  note s e := .refl s [e]
  forced hs ho hv := by
    obtain ⟨t, ht, hv⟩ := Option.bind_eq_some_iff.mp hv
    exact hs.valueAt? (ho.intervene t ht) hv
  observed hs ho hv := by
    obtain ⟨t, ht, hv⟩ := Option.bind_eq_some_iff.mp hv
    refine ⟨hs.held (ho.target t ht) hv, fun x hunobserved => ?_⟩
    rw [ho.unobserved hunobserved] at ht
    cases ht
  output {s o f} hs ho hf hown := by
    unfold Evaluator.checkOutput at hf
    split at hf
    · cases hf
    · rename_i t hoption
      rw [(hs.grown hown).writable (ho.output hown t hoption)] at hf
      cases hf
  below a ho := below_keeps a ho
  recordCall ho hv := recordCall_keeps ho hv
  recordDefinition ho hv := recordDefinition_keeps ho hv

/-! ## The start -/

theorem Kept.start : Kept m unobserved own m.store where
  size := Nat.le_refl _
  held := by
    rintro t v (ht | ⟨n, hn, rfl⟩) hv
    · exact covers.alike v (hereditary ht (.held hv))
    · rw [Store.value?, Store.cell_of_size_le hn] at hv
      cases hv
  child := by
    rintro t k u (ht | ⟨n, hn, rfl⟩) hu
    · exact .inl (hereditary ht (.child hu))
    · rw [Store.children, Store.cell_of_size_le hn] at hu
      cases hu
  grown _ := .refl

theorem holds_of_kept (hs : Kept m unobserved own s) :
    (contract m unobserved own).Holds { m with store := s } where
  stored := hs
  opened := Nat.le_refl _
  bindings hi := covers.frameAlike ⟨rfl, hi⟩

theorem overlays_keeps {intervene target : Option Trace} {output : Value}
    (hread : ∀ t, t ∈ intervene ∨ t ∈ target → Known m t)
    (hunobserved : unobserved → target = none)
    (houtput : own → output = .null ∨ ∃ t, output = .trace t ∧ m.store.Fresh t) :
    (contract m unobserved own).Keeps (.overlays intervene target output)
      (Fits m unobserved own) := by
  have hfits {t? : Option Trace} (ht? : own → ∀ t ∈ t?, m.store.Fresh t) :
      Fits m unobserved own { intervene, target, output := t? } :=
    ⟨fun t ht => hread t (.inl ht), fun t ht => hread t (.inr ht), hunobserved, ht?⟩
  refine lawful.ofStore (fun {s o} _ hok => ?_) fun {s f} hs hf hown => ?_
  · unfold Evaluator.withOutput at hok
    split at hok
    · cases hok
      exact hfits fun _ _ ht => nomatch ht
    · rename_i t
      obtain ⟨_, -, hok⟩ := exists_of_bind_ok hok
      cases hok
      refine hfits fun hown u hu => ?_
      cases hu
      obtain heq | ⟨u, heq, hu⟩ := houtput hown
      · cases heq
      · cases heq
        exact hu
    · cases hok
  · obtain rfl | ⟨t, rfl, ht⟩ := houtput hown
    · cases hf
    · simp only [Evaluator.withOutput, Evaluator.checkOutput, (hs.grown hown).writable ht,
        if_true] at hf
      cases hf

/-! ## Scores -/

/-- If nothing is observed, then the score of an evaluation is zero. -/
theorem eval_unscored {ctx : Context} (htop : ctx.topLevel = .standard) {m m' : Machine}
    {exp : Trace} (hexp : Expression.Built exp) {scope : Scope} (hscope : m.Tame (.scope scope))
    {intervene : Option Trace} (hintervene : ∀ t ∈ intervene, m.Plain (.trace t))
    {output v : Value} {score : Float}
    (hrun : Evaluator.eval ctx (.trace exp) scope intervene none output m = .ok (v, score) m') :
    score = 0.0 := by
  obtain ⟨e, rfl⟩ := hexp.exists_term
  have hread : ∀ t, t ∈ intervene ∨ t ∈ none → Known m t := by
    rintro t (ht | ht)
    · exact .inl (.ofPlain (hintervene t ht))
    · cases ht
  have hoverlays : (contract m True False).Keeps (.overlays intervene none output)
      (Fits m True False) := overlays_keeps hread (fun _ => rfl) nofun
  have hsees : (contract m True False).Sees scope := hereditary.scopesAlike hscope
  have hends := lawful.eval htop hoverlays e hsees m (holds_of_kept .start)
  rw [Watched.run_eval, hrun] at hends
  exact hends.2.2.2 trivial

/-- A machine with a cell, and with a frame that binds a coin. -/
def coinAtHand : Machine where
  store := { cells := #[{}] }
  frames := #[.tree none [(.name "coin", .leaf (.closure 0
    (Expression.gen (Expression.tuplePattern [Expression.reference "p"]) (Expression.application
      [Expression.reference "flip", Expression.reference "p"]) none) .top .null))]]
  serials := 1

theorem coinAtHand_tame : coinAtHand.Tame (.scope (.frame 0 .top)) := by
  have htop : coinAtHand.Tame (.scope .top) := .intro ⟨trivial, nofun⟩ nofun
  refine .intro ⟨trivial, nofun⟩ fun y hy => ?_
  cases hy with
  | outer => exact htop
  | bound hmem =>
    cases List.mem_singleton.mp hmem
    refine .intro ⟨⟨.tuple [.name "p"], .application (.reference "flip") [.reference "p"], none,
      rfl⟩, nofun⟩ fun y hy => ?_
    cases hy with
    | item h => cases h
    | source => exact Machine.Tame.ofData rfl
    | scope => exact htop
    | name => exact Machine.Tame.ofData rfl

/-- A coin that is thrown under a captured tag, and two coins that are thrown by `map`. -/
def manyCoins : Trace :=
  Expression.block [
    .node Expression.Kind.definition.word
      [(.name "pattern", Expression.reference "here"), (.name "here", Expression.this)],
    Expression.withAddress (Expression.application [Expression.reference "list",
      Expression.reference "here", Expression.literal (.text "x")])
      (Expression.application [Expression.reference "coin", Expression.literal (.int 1)]),
    Expression.application [Expression.reference "map", Expression.reference "coin",
      Expression.application [Expression.reference "list", Expression.literal (.int 0),
        Expression.literal (.int 1)]]]

/-- The first of two coins that `map` throws shows heads. -/
def firstHeads : Trace :=
  .tree none [(.index 2, .tree none [(.name "map", .tree none [(.index 0, .leaf (.bool true))])])]

theorem manyCoins_unscored : ∃ v score m',
    Evaluator.eval .halves (.trace manyCoins) (.frame 0 .top) (some firstHeads) none
      (.trace (.cell 0)) coinAtHand = .ok (v, score) m' ∧ score = 0.0 := by
  have hbuilt : Expression.Built manyCoins :=
    ⟨.list [.symbol "block", .list [.symbol "define", .symbol "here", .list [.symbol "this"]],
      .list [.symbol "with-address", .list [.symbol "list", .symbol "here", .text "x"],
        .list [.symbol "coin", .int 1]],
      .list [.symbol "map", .symbol "coin", .list [.symbol "list", .int 0, .int 1]]],
      _, 0, rfl, rfl, rfl⟩
  have hplain : ∀ t ∈ some firstHeads, coinAtHand.Plain (.trace t) := by
    rintro _ ⟨⟩
    exact .ofData rfl
  obtain ⟨⟨v, score⟩, m', hrun⟩ := exists_of_returns (x := Evaluator.eval .halves
    (.trace manyCoins) (.frame 0 .top) (some firstHeads) none (.trace (.cell 0)) coinAtHand)
    (by decide +kernel)
  exact ⟨v, score, m', hrun, eval_unscored rfl hbuilt coinAtHand_tame hplain hrun⟩

/-! ## Tag addresses -/

/-- A tag address in the output of an evaluation was returned by a call. -/
theorem tagAddress_returned {ctx : Context} (htop : ctx.topLevel = .standard) {m m' : Machine}
    {exp : Trace} (hexp : Expression.Built exp) {intervene target : Option Trace}
    (hread : ∀ t, t ∈ intervene ∨ t ∈ target → m.Plain (.trace t)) {output : Trace} {v : Value}
    {score : Float}
    (hrun : (Watched.recording (Watched.eval ctx (.trace exp) .top intervene target)).run m =
      .ok (output, v, score) m')
    {a : Address} {u : Value} (hu : m'.store.valueAt? output a = some u)
    (htag : u.isTagAddress = true) :
    ∃ b proc inputs, ⟨b, .returned proc inputs u⟩ ∈
      (Watched.recording (Watched.eval ctx (.trace exp) .top intervene target)).events m := by
  obtain ⟨e, rfl⟩ := hexp.exists_term
  obtain ⟨rfl, hreturns⟩ := Watched.recording_ok hrun
  have hoverlays : (contract m False False).Keeps
      (.overlays intervene target (.trace m.store.next)) (Fits m False False) :=
    overlays_keeps (fun t ht => .inl (.ofPlain (hread t ht))) nofun nofun
  have hkept : Kept m False False m.withOutput.store := Kept.start.alloc
  have hends := lawful.eval htop hoverlays e .top m.withOutput (holds_of_kept hkept)
  rw [hreturns] at hends
  have hfollows : m.withOutput.store.Follows _ m'.store := hends.2.1
  -- What is below the output was made by the run, so that nothing was held there at the start.
  have hempty {n : NodeId} (hn : m.store.cells.size ≤ n) : m.withOutput.store.cell n = {} := by
    show (m.store.alloc {}).1.cell n = {}
    rw [Store.cell_alloc_empty, Store.cell_of_size_le hn]
  have hfresh {t x : Trace} {k : Key} (ht : m.store.Fresh t) (hx : (k, x) ∈ m'.store.children t) :
      m.store.Fresh x := by
    obtain ⟨n, hn, rfl⟩ := ht
    rcases hfollows.child hx with hx | ⟨i, hi, rfl⟩
    · rw [hempty hn] at hx
      cases hx
    · exact ⟨i, Nat.le_trans hkept.size hi, rfl⟩
  obtain ⟨t, ht, hvalue⟩ := Option.bind_eq_some_iff.mp hu
  obtain ⟨n, hn, rfl⟩ := Store.find?_inherits hfresh Store.fresh_next ht
  rw [Watched.events_recording]
  rcases hfollows.tag hvalue htag with hold | hreturned
  · rw [hempty hn] at hold
    cases hold
  · exact hreturned

/-- A call of a procedure that captures where it is called. -/
def capturingCall : Trace :=
  Expression.application [Expression.gen (Expression.tuplePattern []) Expression.this none]

theorem capturingCall_built : Expression.Built capturingCall :=
  ⟨.list [.list [.symbol "gen", .list [], .list [.symbol "this"]]], _, 0, rfl, rfl, rfl⟩

/-- The value at an address of the output, if the run returns. -/
def recordedAt (a : Address) :
    EStateM.Result Halt Machine (Trace × Value × Float) → Option Value
  | .ok (output, _, _) m => m.store.valueAt? output a
  | .error _ _ => none

theorem exists_recorded {a : Address} {x : EStateM.Result Halt Machine (Trace × Value × Float)}
    (h : (recordedAt a x).any Value.isTagAddress = true) :
    ∃ output v score m u, x = .ok (output, v, score) m ∧ m.store.valueAt? output a = some u ∧
      u.isTagAddress = true := by
  match x with
  | .error _ _ => cases h
  | .ok (output, v, score) m =>
    cases hu : m.store.valueAt? output a with
    | none =>
      rw [recordedAt, hu] at h
      cases h
    | some u =>
      rw [recordedAt, hu] at h
      exact ⟨output, v, score, m, u, rfl, hu, h⟩

theorem capturingCall_returned : ∃ output v score m' u,
    (Watched.recording (Watched.eval .halves (.trace capturingCall) .top none none)).run {} =
      .ok (output, v, score) m' ∧
    m'.store.valueAt? output [.name "call"] = some u ∧ u.isTagAddress = true ∧
    ∃ b proc inputs, ⟨b, .returned proc inputs u⟩ ∈
      (Watched.recording (Watched.eval .halves (.trace capturingCall) .top none none)).events {} := by
  obtain ⟨output, v, score, m', u, hrun, hu, htag⟩ := exists_recorded (a := [.name "call"])
    (x := (Watched.recording (Watched.eval .halves (.trace capturingCall) .top none none)).run {})
    (by decide +kernel)
  have hread : ∀ t, t ∈ none ∨ t ∈ none → ({} : Machine).Plain (.trace t) := by
    rintro t (ht | ht) <;> cases ht
  exact ⟨output, v, score, m', u, hrun, hu, htag,
    tagAddress_returned rfl capturingCall_built hread hrun hu htag⟩

/-- The output of a call that captures where it is called refers to itself. -/
theorem capturingCall_selfReferent : Expression.Built capturingCall ∧
    ∃ output v score m' a u,
      (Watched.recording (Watched.eval .halves (.trace capturingCall) .top none none)).run {} =
        .ok (output, v, score) m' ∧
      m'.store.valueAt? output a = some u ∧ u.isTagAddress = true := by
  obtain ⟨output, v, score, m', u, hrun, hu, htag⟩ := exists_recorded (a := [.name "call"])
    (x := (Watched.recording (Watched.eval .halves (.trace capturingCall) .top none none)).run {})
    (by decide +kernel)
  exact ⟨capturingCall_built, output, v, score, m', _, u, hrun, hu, htag⟩

end Upkeep
end ProbTrace
