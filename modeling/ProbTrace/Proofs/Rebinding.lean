import ProbTrace.Proofs.Term

/-!
# Binding a pattern in one frame each

Binding a pattern changes the innermost frame of a scope only, and there only the names of the
pattern.  Two frames that are alike stay alike when a pattern is bound in both of them to
values that are alike.
-/

namespace ProbTrace

open Expression (numbered)

mutual

theorem Shape.patternNames_toTrace : ∀ p : Shape, p.toTrace.patternNames = p.names.map Value.text
  | .name _ => rfl
  | .rest => rfl
  | .tuple parts => by
    have hname : childAt? (numbered 0 (Shape.toTraces parts)) Pattern.nameKey = none :=
      childAt?_numbered_name _ 0 _
    simp only [Shape.toTrace, Expression.tuplePattern, Trace.node, Trace.patternNames,
      Trace.valueAt?, hname, Option.toList_none, List.nil_append, Shape.names]
    exact Shape.childPatternNames_toTraces parts 0

theorem Shape.childPatternNames_toTraces : ∀ (ps : List Shape) (i : Nat),
    childPatternNames (numbered i (Shape.toTraces ps)) = (Shape.partNames ps).map Value.text
  | [], _ => rfl
  | p :: ps, i => by
    rw [Shape.toTraces, numbered, childPatternNames, Shape.partNames, List.map_append,
      Shape.patternNames_toTrace p, Shape.childPatternNames_toTraces ps (i + 1)]

end

mutual

theorem Shape.outline_toTrace (deref : NodeId → Trace) : ∀ p : Shape,
    p.toTrace.outline deref = p.toTrace
  | .name _ => rfl
  | .rest => rfl
  | .tuple parts => by
    simp only [Shape.toTrace, Expression.tuplePattern, Trace.node, Trace.outline,
      Shape.outlineChildren_toTraces deref parts 0]

theorem Shape.outlineChildren_toTraces (deref : NodeId → Trace) : ∀ (ps : List Shape) (i : Nat),
    outlineChildren deref (numbered i (Shape.toTraces ps)) = numbered i (Shape.toTraces ps)
  | [], _ => rfl
  | p :: ps, i => by
    simp only [Shape.toTraces, numbered, outlineChildren, Shape.outline_toTrace deref p,
      Shape.outlineChildren_toTraces deref ps (i + 1)]

end

theorem Shape.matchBind_toTrace (ctx : Context) (c : Scope) (p : Shape) (v : Value) (m : Machine) :
    Run.matchBind ctx c (.trace p.toTrace) v m = p.toTrace.bindPattern ctx c v m := by
  show (m.store.outline p.toTrace).bindPattern ctx c v m = _
  rw [Store.outline, p.outline_toTrace]

/-- The innermost frame of a scope. -/
def Scope.innermost? : Scope → Option FrameId
  | .frame id _ => some id
  | _ => none

/-- Machines before and after names of a frame were bound. -/
structure Machine.Rebound (m : Machine) (frame : Option FrameId) (names : List String)
    (m' : Machine) : Prop where
  rest : m' = { m with frames := m'.frames }
  size : m'.frames.size = m.frames.size
  others : ∀ {k}, frame ≠ some k → m'.bindings k = m.bindings k
  unnamed : ∀ {k x}, x ∉ names →
    (m'.bindings k).valueAt? [.name x] = (m.bindings k).valueAt? [.name x]

theorem Trace.valueAt?_empty (a : Address) : Trace.empty.valueAt? a = none := by
  cases a with
  | nil => rfl
  | cons k a => rfl

/-- Changing a value leaves the values at all other addresses. -/
theorem Trace.valueAt?_update_of_ne {f : Option Value → Option Value} {a b : Address} (h : b ≠ a)
    (t : Trace) : (Trace.update f a t).valueAt? b = t.valueAt? b := by
  induction a generalizing b t with
  | nil =>
    cases t with
    | cell n => rfl
    | tree v cs =>
      cases b with
      | nil => exact absurd rfl h
      | cons l b => rfl
  | cons k a ih =>
    cases t with
    | cell n => rfl
    | tree v cs =>
      cases b with
      | nil => rfl
      | cons l b =>
        simp only [Trace.update, Trace.valueAt?, childAt?_insertChild]
        by_cases hkl : k = l
        · subst hkl
          have hne : b ≠ a := fun hba => h (hba ▸ rfl)
          rw [if_pos rfl]
          show (Trace.update f a ((childAt? cs k).getD .empty)).valueAt? b = _
          rw [ih hne]
          cases childAt? cs k with
          | none => exact Trace.valueAt?_empty b
          | some u => rfl
        · rw [if_neg hkl]

namespace Machine.Rebound

variable {m m' : Machine} {frame : Option FrameId} {names : List String}

theorem store (h : m.Rebound frame names m') : m'.store = m.store := by
  rw [h.rest]

theorem refl (m : Machine) : m.Rebound frame names m where
  rest := rfl
  size := rfl
  others _ := rfl
  unnamed _ := rfl

theorem update (h : m.Rebound frame names m') {i : FrameId} (hi : frame = some i) {x : String}
    (hx : x ∈ names) (f : Option Value → Option Value) :
    m.Rebound frame names
      { m' with frames := m'.frames.modify i (Trace.update f [.name x]) } where
  rest := by
    rw [h.rest]
  size := by
    rw [Array.size_modify]
    exact h.size
  others := by
    intro k hk
    have hne : k ≠ i := by
      rintro rfl
      exact hk hi
    rw [bindings_modify, if_neg (hne ·.1)]
    exact h.others hk
  unnamed := by
    intro k y hy
    have hne : [Key.name y] ≠ [.name x] := by
      rintro heq
      cases heq
      exact hy hx
    rw [bindings_modify]
    split
    · rename_i hki
      rw [hki.1, Trace.valueAt?_update_of_ne hne]
      exact h.unnamed hy
    · exact h.unnamed hy

end Machine.Rebound

namespace Simulation

/-- Machines after names were bound in the innermost frames of two scopes, which are alike. -/
structure Rebinds (L : Likeness) (w₀ : Pair) (c d : Scope) (names : List String) (w : Pair) :
    Prop where
  first : w₀.first.Rebound c.innermost? names w.first
  second : w₀.second.Rebound d.innermost? names w.second
  alike : ∀ {i j}, c.innermost? = some i → d.innermost? = some j →
    FrameAlike L (w.first.bindings i) (w.second.bindings j)

/-- Two runs that bind names, each in one frame. -/
def rebinding (L : Likeness) (w₀ : Pair) (c d : Scope) (names : List String) : Simulation where
  like := L
  related := Rebinds L w₀ c d names
  advance _ _ _ := True
  site _ _ _ _ := True
  code _ _ _ _ := True
  parts _ _ _ _ := True
  entered _ _ _ _ := True
  binding _ _ _ _ := True
  walked _ := Value.Alike L
  assumed _ := True
  lenient := False
  halted _ _ w h k := Rebinds L w₀ c d names w ∧ HaltsAlike L h k

variable {L : Likeness} {w₀ : Pair} {c d : Scope} {names : List String}

theorem rebinding_basic (htext : ∀ {v v'}, Value.Alike L v v' →
    w₀.first.store.hasText v = w₀.second.store.hasText v') :
    (rebinding L w₀ c d names).Basic where
  advance_refl _ := trivial
  advance_append _ _ := trivial
  site_later _ _ := trivial
  halted_append _ h := h
  fault hw hf := ⟨hw, .fault hf⟩
  tooDeep hw := ⟨hw, .tooDeep⟩
  text hw hv := by
    rw [hw.first.store, hw.second.store]
    exact htext hv

/-- Patterns that are data correspond to themselves, with their parts. -/
theorem Basic.dataPatterns {S : Simulation} (hS : S.Basic)
    (hdata : ∀ {v : Value}, v.isData = true → S.Alike v v) :
    S.Patterns fun t => t.isData = true := by
  have hrefers {x y : Item} (hx : x.isData = true) (hxy : ({} : Machine).Refers x y) :
      y.isData = true :=
    hxy.isData hx
  refine hS.patterns (fun {t} ht => ?_) (fun {v cs k t} ht hmem => ?_) fun {v cs} ht => ?_
  · cases hdata (v := .trace t) ht with
    | trace h => exact h
  · exact hrefers (x := .trace (.tree v cs)) (y := .trace t) ht (.child hmem)
  · exact hdata (hrefers (x := .trace (.tree (some v) cs)) (y := .value v) ht (.held rfl))

end Simulation

/-- Binding a pattern to values that are alike succeeds on both sides or fails on both.  However
it ends, it has changed the names of the pattern in the innermost frames only. -/
theorem Shape.matchBind_cases (ctx : Context) {L : Likeness} {F : FrameId → FrameId → Prop}
    {m n : Machine} {c d : Scope} {v v' : Value} (p : Shape)
    (hdata : ∀ {v : Value}, v.isData = true → Value.Alike L v v)
    (htext : ∀ {v v'}, Value.Alike L v v' → m.store.hasText v = n.store.hasText v')
    (hscopes : InnermostAlike F c d)
    (hframe : ∀ {i j}, F i j → FrameAlike L (m.bindings i) (n.bindings j))
    (hsize : ∀ {i j}, F i j → (i < m.frames.size ↔ j < n.frames.size)) (hv : Value.Alike L v v') :
    ∃ m' n', Simulation.Rebinds L ⟨m, n⟩ c d p.names ⟨m', n'⟩ ∧
      ((Run.matchBind ctx c (.trace p.toTrace) v m = .ok () m' ∧
          Run.matchBind ctx d (.trace p.toTrace) v' n = .ok () n') ∨
        ∃ h k, HaltsAlike L h k ∧ Run.matchBind ctx c (.trace p.toTrace) v m = .error h m' ∧
          Run.matchBind ctx d (.trace p.toTrace) v' n = .error k n') := by
  let S := Simulation.rebinding L ⟨m, n⟩ c d p.names
  have hS : S.Basic := Simulation.rebinding_basic htext
  have hstart : S.related ⟨m, n⟩ := by
    refine ⟨.refl m, .refl n, fun hi hj => ?_⟩
    cases hscopes with
    | top => cases hi
    | absent => cases hi
    | frame _ _ hij =>
      cases hi
      cases hj
      exact hframe hij
  have hscopes' : InnermostAlike (fun i j => c.innermost? = some i ∧ d.innermost? = some j ∧
      (i < m.frames.size ↔ j < n.frames.size)) c d := by
    cases hscopes with
    | top => exact .top
    | absent => exact .absent
    | frame _ _ hij => exact .frame _ _ ⟨rfl, rfl, hsize hij⟩
  have hname : ∀ name ∈ p.toTrace.patternNames,
      S.BindsAlike [] (Run.bindName ctx c name) (Run.bindName ctx d name) := by
    intro name hmem
    rw [p.patternNames_toTrace] at hmem
    obtain ⟨x, hx, rfl⟩ := List.mem_map.mp hmem
    refine Simulation.bindName_runs hS (.text x)
      (fun hw hij => hw.alike hij.1 hij.2.1) ?_ hscopes'
    rintro w i j f g _ rfl hw ⟨hi, hj, hij⟩ hfg
    refine ⟨⟨hw.first.update hi hx f, hw.second.update hj hx g, fun hi' hj' => ?_⟩, trivial⟩
    obtain rfl : i = _ := Option.some.inj (hi.symm.trans hi')
    obtain rfl : j = _ := Option.some.inj (hj.symm.trans hj')
    have hupdate := (hw.alike hi hj).update hfg [.name x]
    rw [← hw.first.size, ← hw.second.size] at hij
    simp only [Pair.updated, Machine.bindings_modify, true_and, hij]
    split
    · exact hupdate
    · exact hw.alike hi hj
  have hends := Simulation.bindPattern_runs hS (hS.dataPatterns hdata) p.toTrace p.isData_toTrace
    hname hv hstart fun _ _ => trivial
  rw [p.matchBind_toTrace, p.matchBind_toTrace]
  revert hends
  simp only [Watched.run_watch]
  cases p.toTrace.bindPattern ctx c v m <;> cases p.toTrace.bindPattern ctx d v' n <;> intro hends
  · exact ⟨_, _, hends.2.1, .inl ⟨rfl, rfl⟩⟩
  · exact hends.elim
  · exact hends.elim
  · obtain ⟨hrebinds, hhalts⟩ := hends.resolve_left id
    exact ⟨_, _, hrebinds, .inr ⟨_, _, hhalts, rfl, rfl⟩⟩

end ProbTrace
