import ProbTrace.Proofs.Term

/-!
# Code in syntax trees

The laws of a simulation about code hold for the traces of syntax trees, which are read the
same way in every store.  What remains is to say where trees are placed: the address and the
scopes at which they are walked, and where their patterns are bound.
-/

namespace ProbTrace

/-- The key of a call is a name, whatever the operator is. -/
theorem Term.procedureKey_toTrace (t : Term) :
    ∃ name, ∀ s, Evaluator.procedureKey s t.toTrace = .ok (.name name) := by
  cases t with
  | reference name => exact ⟨name, fun _ => rfl⟩
  | _ => exact ⟨"call", fun _ => rfl⟩

/-- Reading a part that every store has changes nothing and cannot fail. -/
theorem Evaluator.part_ok {e u : Trace} {k : Key} (h : ∀ s : Store, s.child? e k = some u)
    (m : Machine) : Evaluator.part e k m = .ok u m := by
  show Run.ofExcept (m.store.getChild e k.toValue) m = _
  simp only [Store.getChild, Value.key?_toValue, Option.bind_some, h]
  rfl

namespace Simulation

section Places

variable (place : Address → Term → Scope → Scope → Prop)
variable (binds : Address → Shape → Scope → Scope → Prop)
variable (A : Address) (e : Trace) (c d : Scope)

/-- Syntax trees where they may be walked. -/
def TermAt : Prop :=
  ∃ t : Term, e = t.toTrace ∧ place A t c d

/-- Syntax trees whose numbered parts are where they may be walked. -/
def PartsAt : Prop :=
  ∃ (kind : Expression.Kind) (ts : List Term),
    e = .node kind.word (Expression.numbered 0 (Term.toTraces ts)) ∧
      ∀ (i : Nat) t, ts[i]? = some t → place (A ++ [.index i]) t c d

/-- Patterns where they may be bound. -/
def ShapeAt : Prop :=
  ∃ p : Shape, e = p.toTrace ∧ binds A p c d

/-- Procedures whose pattern may be bound and whose body may be walked. -/
def ProcedureAt : Prop :=
  ∃ p t name, e = (Term.gen p t name).toTrace ∧ place A t c d ∧ binds A p c d

end Places

/-- The laws of a simulation of expressions that are syntax trees. -/
structure Programmed (S : Simulation) (ctx : Context)
    (place : Address → Term → Scope → Scope → Prop)
    (binds : Address → Shape → Scope → Scope → Prop) : Prop extends S.Basic where
  code_iff : ∀ {A e c d}, S.code A e c d ↔ TermAt place A e c d
  parts_iff : ∀ {A e c d}, S.parts A e c d ↔ PartsAt place A e c d
  entered_iff : ∀ {A e c d}, S.entered A e c d ↔ ProcedureAt place binds A e c d
  binding_iff : ∀ {A e c d}, S.binding A e c d ↔ ShapeAt binds A e c d
  operands : ∀ {A t ts c d}, place A (.application t ts) c d →
    ∀ (i : Nat) u, (t :: ts)[i]? = some u → place (A ++ [.index i]) u c d
  branches : ∀ {A p y n c d}, place A (.conditional p y n) c d →
    place (A ++ [.name "predicate"]) p c d ∧ place (A ++ [.name "then"]) y c d ∧
      place (A ++ [.name "else"]) n c d
  definition : ∀ {A p t h c d}, place A (.definition p t h) c d →
    place (A ++ [p.key]) t c d ∧ binds (A ++ [p.key]) p c d
  tagPart : ∀ {A t u c d}, place A (.withAddress t u) c d → place (A ++ [.name "tag"]) t c d
  lookup : ∀ {w A name c d}, place A (.reference name) c d →
    S.Runs A w (.watch (Run.lookup ctx c (.text name))) (.watch (Run.lookup ctx d (.text name)))
      fun _ => S.Alike
  data : ∀ {v}, v.isData = true → S.Alike v v
  closure : ∀ {w A p t name c d label}, place A (.gen p t name) c d → label.isData = true →
    S.Runs A w (.watch Run.fresh) (.watch Run.fresh) fun _ i j =>
      S.like.closure (Term.gen p t name).toTrace label i c j d
  openBlock : ∀ {w A ts c d}, place A (.block ts) c d →
    S.Runs A w (.openFrame (Term.block ts).toTrace c) (.openFrame (Term.block ts).toTrace d)
      fun _ c' d' => ∀ (i : Nat) t, ts[i]? = some t → place (A ++ [.index i]) t c' d'
  openClosure : ∀ {w A source name i c j d}, S.like.closure source name i c j d →
    S.Runs A w (.openFrame source c) (.openFrame source d) fun _ c' d' =>
      S.entered A source c' d'
  bindPattern : ∀ {w A p c d v v'}, binds A p c d → S.Alike v v' →
    S.Runs A w (.bindPattern ctx c p.toTrace v) (.bindPattern ctx d p.toTrace v')
      fun _ _ _ => True
  invoked : ∀ {w A} (name : String), S.related w → S.advance w [⟨A ++ [.name name], .invoked⟩] w
  relocate : ∀ {w A t u c d v v'}, place A (.withAddress t u) c d → S.Alike v v' →
    S.Runs A w (.relocate (Term.withAddress t u).toTrace v)
      (.relocate (Term.withAddress t u).toTrace v') fun w' r q =>
        r.2 = q.2 ∧ S.code A r.2 c d ∧ S.site w' A r.1 q.1 ∧
          ∀ x x', S.walked A x x' → S.Alike x x'

theorem HasKind.eq {t : Term} {kind : Expression.Kind} (h : HasKind t.toTrace kind) :
    t.kind = kind := by
  obtain ⟨s, hs⟩ := h
  rw [Term.kindOf_toTrace] at hs
  exact Option.some.inj hs

/-- Runs in which no expression is evaluated under the overlays of a tag. -/
theorem relocate_of_not_assumed {S : Simulation} {A : Address} {w : Pair} {e : Trace} {v v' : Value}
    {P : Pair → Overlays Trace × Trace → Overlays Trace × Trace → Prop}
    (h : ¬ S.assumed ⟨A, .relocated⟩) : S.Runs A w (.relocate e v) (.relocate e v') P := by
  intro _ he
  refine (h ?_).elim
  simpa [Event.below] using he ⟨[], .relocated⟩ List.mem_cons_self

namespace Basic

variable {S : Simulation} (hS : S.Basic) {A : Address} {w : Pair} {α β : Type}
include hS

/-- Computations that change nothing and cannot fail. -/
theorem returns {x : Run α} {y : Run β} {a : α} {b : β} {P : Pair → α → β → Prop}
    (hx : ∀ m, x m = .ok a m) (hy : ∀ m, y m = .ok b m) (h : P w a b) :
    S.Runs A w (.watch x) (.watch y) P := by
  intro hw _
  simp only [Watched.run_watch, hx, hy]
  exact ⟨hS.advance_refl hw, hw, h⟩

/-- Reading a part that every store has. -/
theorem readPart {e u : Trace} {k : Key} (h : ∀ s : Store, s.child? e k = some u) :
    S.Runs A w (.part e k) (.part e k) fun _ v v' => v = v' ∧ v = u :=
  hS.returns (Evaluator.part_ok h) (Evaluator.part_ok h) ⟨rfl, rfl⟩

/-- Reading a numbered part, which may be missing. -/
theorem readNumbered {kind : Expression.Kind} {ts : List Term} (i : Nat) :
    S.Runs A w (.part (.node kind.word (Expression.numbered 0 (Term.toTraces ts))) (.index i))
      (.part (.node kind.word (Expression.numbered 0 (Term.toTraces ts))) (.index i))
      fun _ u v => u = v ∧ ∃ t, ts[i]? = some t ∧ u = t.toTrace := by
  have hchild (s : Store) : s.child? (.node kind.word (Expression.numbered 0 (Term.toTraces ts)))
      (.index i) = ts[i]?.map Term.toTrace := by
    have hnumber := childAt?_numbered (Term.toTraces ts) i 0
    rw [Nat.zero_add, Term.getElem?_toTraces] at hnumber
    exact hnumber
  cases ht : ts[i]? with
  | some t =>
    refine (hS.readPart (u := t.toTrace) fun s => ?_).mono ?_
    · rw [hchild, ht]
      rfl
    · rintro w u _ - ⟨rfl, rfl⟩
      exact ⟨rfl, t, rfl, rfl⟩
  | none =>
    refine hS.ofStore fun _ => ?_
    unfold Store.getChild
    simp only [Value.key?_toValue, Option.bind_some, hchild, ht, Option.map_none]
    exact .error (.same (.cons (.ofKey _) .nil))

theorem readDefinition {p : Shape} {t : Term} (h : p.key ≠ .name "pattern") :
    S.Runs A w (.openDefinition (Term.definition p t h).toTrace)
      (.openDefinition (Term.definition p t h).toTrace)
      fun _ r q => r = q ∧ r = (p.toTrace, p.key, t.toTrace) := by
  refine hS.bind (hS.readPart (u := p.toTrace) fun s => rfl) ?_
  rintro w₁ pattern _ - ⟨rfl, rfl⟩
  have hkey (s : Store) : s.definiens (.trace p.toTrace) = .ok p.key := p.definiens_toTrace s
  refine hS.bind (P := fun _ k k' => k = k' ∧ k = p.key)
    (hS.ofStore fun _ => by rw [hkey, hkey]; exact .ok ⟨rfl, rfl⟩) ?_
  rintro w₂ key _ - ⟨rfl, rfl⟩
  refine hS.bind (hS.readPart (u := t.toTrace) fun s => ?_) ?_
  · show childAt? [(.name "pattern", p.toTrace), (p.key, t.toTrace)] p.key = _
    rw [childAt?_cons, if_neg (Ne.symm h), childAt?_cons, if_pos rfl]
  · rintro w₃ rhs _ - ⟨rfl, rfl⟩
    exact hS.pure ⟨rfl, rfl⟩

theorem readCallKey {t : Term} {ts : List Term} :
    S.Runs A w (.callKey (Term.application t ts).toTrace)
      (.callKey (Term.application t ts).toTrace)
      fun _ k k' => k = k' ∧ ∃ name, k = .name name := by
  refine hS.bind (hS.readPart (u := t.toTrace) fun s => rfl) ?_
  rintro w₁ operator _ - ⟨rfl, rfl⟩
  obtain ⟨name, hname⟩ := t.procedureKey_toTrace
  refine hS.ofStore fun _ => ?_
  rw [hname, hname]
  exact .ok ⟨rfl, name, rfl⟩

end Basic

namespace Programmed

variable {S : Simulation} {ctx : Context} {place : Address → Term → Scope → Scope → Prop}
variable {binds : Address → Shape → Scope → Scope → Prop} (hS : S.Programmed ctx place binds)
include hS

/-- Trees of data correspond to themselves. -/
theorem dataTrace {t : Trace} (h : t.isData = true) : S.like.trace t := by
  have halike := hS.data (v := .trace t) h
  cases halike with
  | trace h => exact h

section Parts

variable {w : Pair} {A : Address} {c d : Scope}

theorem childPart {e : Trace} {k : Key} {t : Term}
    (hchild : ∀ s : Store, s.child? e k = some t.toTrace) (hplace : place (A ++ [k]) t c d) :
    S.Runs A w (.part e k) (.part e k) fun _ u v => u = v ∧ S.code (A ++ [k]) u c d := by
  refine (hS.readPart hchild).mono ?_
  rintro w u _ - ⟨rfl, rfl⟩
  exact ⟨rfl, hS.code_iff.mpr ⟨t, rfl, hplace⟩⟩

theorem walkedPart {t : Term} {key : Key} (hplace : place A t c d)
    (hkey : key ∈ t.kind.walkedKeys) :
    S.Runs A w (.part t.toTrace key) (.part t.toTrace key) fun _ u v =>
      u = v ∧ S.code (A ++ [key]) u c d := by
  cases t with
  | conditional p y n =>
    obtain ⟨hp, hy, hn⟩ := hS.branches hplace
    simp only [Term.kind, Expression.Kind.walkedKeys, List.mem_cons, List.not_mem_nil,
      or_false] at hkey
    rcases hkey with rfl | rfl | rfl
    · exact hS.childPart (fun _ => rfl) hp
    · exact hS.childPart (fun _ => rfl) hy
    · exact hS.childPart (fun _ => rfl) hn
  | withAddress t e =>
    cases List.mem_singleton.mp hkey
    exact hS.childPart (fun _ => rfl) (hS.tagPart hplace)
  | _ => cases hkey

theorem walkReference {name : String} (hplace : place A (.reference name) c d) :
    S.Runs A w (.watch (Evaluator.walkReference ctx (Term.reference name).toTrace c))
      (.watch (Evaluator.walkReference ctx (Term.reference name).toTrace d))
      fun _ r q => S.Alike r.1 q.1 ∧ r.2 = q.2 := by
  refine Runs.withStore fun _ => hS.bindRun (P := fun _ v v' => v = .text name ∧ v' = .text name)
    (hS.returns (fun _ => rfl) (fun _ => rfl) ⟨rfl, rfl⟩) ?_
  rintro w₁ _ _ - ⟨rfl, rfl⟩
  refine hS.bindRun (hS.lookup hplace) ?_
  rintro w₂ v v' - hv
  exact hS.pureRun ⟨hv, rfl⟩

theorem walkGen {p : Shape} {t : Term} {name : Option String}
    (hplace : place A (.gen p t name) c d) :
    S.Runs A w (.watch (Evaluator.walkGen (Term.gen p t name).toTrace c))
      (.watch (Evaluator.walkGen (Term.gen p t name).toTrace d))
      fun _ r q => S.Alike r.1 q.1 ∧ r.2 = q.2 := by
  have hname (s : Store) : s.valueAt? (Term.gen p t name).toTrace [Pattern.nameKey] =
      name.map Value.text := by
    cases name <;> rfl
  have hlabel : ((name.map Value.text).getD .null).isData = true := by
    cases name <;> rfl
  refine Runs.withStore fun _ => ?_
  rw [hname, hname]
  refine hS.bindRun (hS.compose (.cons (hS.data hlabel) .nil)) ?_
  rintro w₁ - - - -
  refine hS.bindRun (hS.closure hplace hlabel) ?_
  rintro w₂ i j - hclosure
  exact hS.pureRun ⟨.closure hclosure, rfl⟩

end Parts

/-- All laws about code hold. -/
theorem coded : S.Coded ctx where
  trace hcode := by
    obtain ⟨t, rfl, -⟩ := hS.code_iff.mp hcode
    exact hS.dataTrace t.isData_toTrace
  kind _ hcode := by
    obtain ⟨t, rfl, -⟩ := hS.code_iff.mp hcode
    rw [Term.kindOf_toTrace, Term.kindOf_toTrace]
  application hcode hkind := by
    obtain ⟨t, rfl, hplace⟩ := hS.code_iff.mp hcode
    have hk := hkind.eq
    cases t with
    | application t ts =>
      exact hS.parts_iff.mpr ⟨.application, t :: ts, rfl, hS.operands hplace⟩
    | _ => cases hk
  count _ hparts := by
    obtain ⟨kind, ts, rfl, -⟩ := hS.parts_iff.mp hparts
    rfl
  part i hparts := by
    obtain ⟨kind, ts, rfl, hplace⟩ := hS.parts_iff.mp hparts
    refine (hS.readNumbered i).mono ?_
    rintro w u _ - ⟨rfl, t, ht, rfl⟩
    exact ⟨rfl, hS.code_iff.mpr ⟨t, rfl, hplace i t ht⟩⟩
  walkedPart hcode hkind hkey := by
    obtain ⟨t, rfl, hplace⟩ := hS.code_iff.mp hcode
    cases hkind.eq
    exact hS.walkedPart hplace hkey
  reference hcode hkind := by
    obtain ⟨t, rfl, hplace⟩ := hS.code_iff.mp hcode
    have hk := hkind.eq
    cases t with
    | reference name => exact hS.walkReference hplace
    | _ => cases hk
  literal hcode hkind := by
    obtain ⟨t, rfl, hplace⟩ := hS.code_iff.mp hcode
    have hk := hkind.eq
    cases t with
    | literal v hv => exact hS.returns (fun _ => rfl) (fun _ => rfl) ⟨hS.data hv, rfl⟩
    | _ => cases hk
  gen hcode hkind := by
    obtain ⟨t, rfl, hplace⟩ := hS.code_iff.mp hcode
    have hk := hkind.eq
    cases t with
    | gen p t name => exact hS.walkGen hplace
    | _ => cases hk
  emptyTrace := hS.dataTrace rfl
  openBlock hcode hkind := by
    obtain ⟨t, rfl, hplace⟩ := hS.code_iff.mp hcode
    have hk := hkind.eq
    cases t with
    | block ts =>
      exact (hS.openBlock hplace).mono fun _ _ _ _ h => hS.parts_iff.mpr ⟨.block, ts, rfl, h⟩
    | _ => cases hk
  openClosure := hS.openClosure
  parameters hentered := by
    obtain ⟨p, t, name, rfl, -, hbinds⟩ := hS.entered_iff.mp hentered
    refine (hS.readPart fun s => rfl).mono ?_
    rintro w u _ - ⟨rfl, rfl⟩
    exact ⟨rfl, hS.binding_iff.mpr ⟨p, rfl, hbinds⟩⟩
  body hentered := by
    obtain ⟨p, t, name, rfl, hplace, -⟩ := hS.entered_iff.mp hentered
    refine (hS.readPart fun s => rfl).mono ?_
    rintro w u _ - ⟨rfl, rfl⟩
    exact ⟨rfl, hS.code_iff.mpr ⟨t, rfl, hplace⟩⟩
  openDefinition hcode hkind := by
    obtain ⟨t, rfl, hplace⟩ := hS.code_iff.mp hcode
    have hk := hkind.eq
    cases t with
    | definition p t h =>
      obtain ⟨hrhs, hbinds⟩ := hS.definition hplace
      refine (hS.readDefinition h).mono ?_
      rintro w r _ - ⟨rfl, rfl⟩
      exact ⟨rfl, hS.code_iff.mpr ⟨t, rfl, hrhs⟩, hS.binding_iff.mpr ⟨p, rfl, hbinds⟩⟩
    | _ => cases hk
  bindPattern hbinding hv := by
    obtain ⟨p, rfl, hbinds⟩ := hS.binding_iff.mp hbinding
    exact hS.bindPattern hbinds hv
  callKey hcode hkind := by
    obtain ⟨t, rfl, -⟩ := hS.code_iff.mp hcode
    have hk := hkind.eq
    cases t with
    | application t ts =>
      refine hS.readCallKey.mono ?_
      rintro w k _ - ⟨rfl, name, rfl⟩
      exact ⟨rfl, fun w' hw' => hS.invoked name hw'⟩
    | _ => cases hk
  relocate hcode hkind ht := by
    obtain ⟨t, rfl, hplace⟩ := hS.code_iff.mp hcode
    have hk := hkind.eq
    cases t with
    | withAddress t u => exact hS.relocate hplace ht
    | _ => cases hk

end Programmed
end Simulation
end ProbTrace
