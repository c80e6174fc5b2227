import ProbTrace.Proofs.Copy
import ProbTrace.Proofs.Faults
import ProbTrace.Proofs.Programmed

/-!
# What an evaluation keeps

A contract says what an evaluation of syntax trees may rely on and what it has to keep: which
values and overlays are met on the way, what holds of the store, how the store may change in
view of the log, which scores are given and which faults are raised.

If each access to an overlay respects a contract, then so does every evaluation, because all
else that an evaluation does is the same for all contracts.  The parts of a syntax tree are
where evaluation looks for them, patterns bind values that were met in frames that are seen,
and operations give values that are met when they are given such values.
-/

namespace ProbTrace

/-- What is kept along an evaluation of syntax trees. -/
structure Contract where
  /-- The frames that are seen. -/
  frame : FrameId → Prop
  /-- The first frame that was not there at the start. -/
  opened : Nat
  /-- The traces that are met as values. -/
  trace : Trace → Prop
  /-- The overlays under which expressions are evaluated, and that tags have. -/
  site : Overlays Trace → Prop
  stored : Store → Prop
  /-- How a step may change the store, given its log. -/
  advance : Store → List Event → Store → Prop
  score : Float → Prop
  fault : Fault → Prop

namespace Contract

section Definitions

variable (C : Contract)

abbrev like : Likeness :=
  .copying C.frame C.trace (fun _ => True) C.site

/-- The values that are met. -/
abbrev Admits (v : Value) : Prop :=
  Value.Alike C.like v v

/-- The scopes whose frames are all seen. -/
abbrev Sees (c : Scope) : Prop :=
  ScopesAlike (Seen C.frame) c c

structure Holds (m : Machine) : Prop where
  stored : C.stored m.store
  opened : C.opened ≤ m.frames.size
  bindings : ∀ {i}, C.frame i → FrameAlike C.like (m.bindings i) (m.bindings i)

/-- How a computation ends that respects the contract. -/
def Ends {α : Type} (s : Store) (es : List Event) (P : α → Prop) :
    EStateM.Result Halt Machine α → Prop
  | .ok a m => C.Holds m ∧ C.advance s es m.store ∧ P a
  | .error (.fault f) _ => C.fault f
  | .error .tooDeep _ => True

/-- A computation that respects the contract, and whose result has a property. -/
def Keeps {α : Type} (x : Watched α) (P : α → Prop) : Prop :=
  ∀ m, C.Holds m → C.Ends m.store (x.events m) P (x.run m)

/-- What the walk of an expression gives. -/
def Gives (r : Value × Float) : Prop :=
  C.Admits r.1 ∧ C.score r.2

/-- What a call returns. -/
def Returns (r : Value × Value) : Prop :=
  C.Admits r.1 ∧ ∃ x, r.2 = .float x ∧ C.score x

/-- The laws of a contract: those of its parts, and those of each access to an overlay. -/
structure Lawful : Prop where
  seen : ∀ {i}, C.opened ≤ i → C.frame i
  data : ∀ {t}, t.isData = true → C.trace t
  zero : C.score 0.0
  sum : ∀ {x y}, C.score x → C.score y → C.score (x + y)
  routine : ∀ {f}, f.isStuck = false → C.fault f
  refl : ∀ s, C.advance s [] s
  append : ∀ {s s' s'' es es'}, C.advance s es s' → C.advance s' es' s'' →
    C.advance s (es ++ es') s''
  within : ∀ {s es s'} (a : Address), C.advance s es s' →
    C.advance s (es.map (Event.below a)) s'
  note : ∀ s e, C.advance s [e] s
  forced : ∀ {s o a v}, C.stored s → C.site o → o.intervene.bind (s.valueAt? · a) = some v →
    C.Admits v
  /-- A score can be anything once a value is observed. -/
  observed : ∀ {s o v}, C.stored s → C.site o → Evaluator.overlayValue? s o.target = some v →
    C.Admits v ∧ ∀ x, C.score x
  output : ∀ {s o f}, C.stored s → C.site o → Evaluator.checkOutput s o.output = .error f →
    C.fault f
  below : ∀ {o} (a : Address), C.site o → C.Keeps (.watch (Run.edit (o.below a))) C.site
  recordCall : ∀ {f vs o v}, C.site o → C.Admits v →
    C.Keeps (.recordCall f vs o v) fun _ => True
  recordDefinition : ∀ {a o v}, C.site o → C.Admits v →
    C.Keeps (.recordDefinition a o v) fun _ => True

end Definitions

variable {C : Contract} {α β : Type} {P : α → Prop} {Q : β → Prop} {m m' : Machine}

namespace Holds

/-- A machine beside itself. -/
theorem copies (h : C.Holds m) : Pair.Copies C.like C.frame C.opened ⟨m, m⟩ where
  serials := rfl
  draws := rfl
  spare := rfl
  store := rfl
  frames := rfl
  opened := h.opened
  bindings := h.bindings

theorem ofCopies (h : Pair.Copies C.like C.frame C.opened ⟨m, m⟩) (hstored : C.stored m.store) :
    C.Holds m :=
  ⟨hstored, h.opened, h.bindings⟩

theorem quiet (h : C.Holds m) (hquiet : m.Quiet m') : C.Holds m' where
  stored := by
    rw [hquiet.store]
    exact h.stored
  opened := by
    rw [hquiet.frames]
    exact h.opened
  bindings hi := by
    unfold Machine.bindings
    rw [hquiet.frames]
    exact h.bindings hi

theorem withStore (h : C.Holds m) {s : Store} (hs : C.stored s) :
    C.Holds { m with store := s } :=
  ⟨hs, h.opened, h.bindings⟩

end Holds

/-- A look at the store. -/
theorem Keeps.withStore {g : Store → Run α} (h : ∀ s, C.stored s → C.Keeps (.watch (g s)) P) :
    C.Keeps (.watch (Run.store >>= g)) P :=
  fun m hm => h m.store hm.stored m hm

theorem fault_raised (hplain : C.fault .wrongValue) {f : Fault} (h : C.fault f) (s : Store) :
    C.fault (s.raised f) := by
  rcases s.raised_cases f with heq | heq
  · rw [heq]
    exact h
  · rw [heq]
    exact hplain

/-- An edit; its fault becomes another where the message cannot be composed. -/
theorem Keeps.edit (hplain : C.fault .wrongValue) {e : Edit α}
    (h : ∀ {s}, C.stored s → match e s with
      | .ok a s' => C.stored s' ∧ C.advance s [] s' ∧ P a
      | .error f _ => C.fault f) : C.Keeps (.watch (Run.edit e)) P := by
  intro m hm
  have hends := h hm.stored
  rw [Watched.run_watch]
  cases he : e m.store with
  | ok a s =>
    rw [he] at hends
    rw [Run.edit_ok he]
    exact ⟨hm.withStore hends.1, hends.2.1, hends.2.2⟩
  | error f s =>
    rw [he] at hends
    rw [Run.edit_error he]
    exact fault_raised hplain hends s

variable (hC : C.Lawful)
include hC

namespace Lawful

/-! ## Steps -/

theorem pure {a : α} (h : P a) : C.Keeps (pure a) P :=
  fun m hm => ⟨hm, hC.refl m.store, h⟩

theorem bind {x : Watched α} {f : α → Watched β} (hx : C.Keeps x P)
    (hf : ∀ a, P a → C.Keeps (f a) Q) : C.Keeps (x >>= f) Q := by
  intro m hm
  have hends := hx m hm
  rw [Watched.run_bind_apply, Watched.events_bind]
  revert hends
  generalize x.run m = r
  rcases r with ⟨a, m'⟩ | ⟨_ | _, m'⟩
  · rintro ⟨hm', hadv, ha⟩
    have hends' := hf a ha m' hm'
    revert hends'
    dsimp only
    generalize (f a).run m' = q
    rcases q with ⟨b, m''⟩ | ⟨_ | _, m''⟩
    · exact fun ⟨hm'', hadv', hb⟩ => ⟨hm'', hC.append hadv hadv', hb⟩
    · exact id
    · exact id
  · exact id
  · exact id

theorem noted (d : Deed) : C.Keeps (.note d) fun _ => True :=
  fun m hm => ⟨hm, hC.note m.store _, trivial⟩

theorem inside (a : Address) {x : Watched α} (h : C.Keeps x P) : C.Keeps (.within a x) P := by
  intro m hm
  have hends := h m hm
  show C.Ends m.store ((x.events m).map (Event.below a)) P (x.run m)
  revert hends
  generalize x.run m = r
  rcases r with ⟨b, m'⟩ | ⟨_ | _, m'⟩
  · exact fun ⟨hm', hadv, hb⟩ => ⟨hm', hC.within a hadv, hb⟩
  · exact id
  · exact id

/-- A step that leaves the store and the frames, and that is never stuck. -/
theorem quiet {x : Run α} (hunstuck : Run.Unstuck x)
    (hok : ∀ {m a m'}, C.Holds m → x m = .ok a m' → m.Quiet m' ∧ P a) : C.Keeps (.watch x) P := by
  intro m hm
  rw [Watched.run_watch]
  cases hx : x m with
  | ok a m' =>
    obtain ⟨hquiet, ha⟩ := hok hm hx
    refine ⟨hm.quiet hquiet, ?_, ha⟩
    rw [hquiet.store]
    exact hC.refl m.store
  | error h m' =>
    cases h with
    | fault f => exact hC.routine (hunstuck m f m' hx)
    | tooDeep => trivial

/-- A step that gives the same in every machine. -/
theorem returns {x : Run α} {a : α} (hx : ∀ m, x m = .ok a m) (h : P a) :
    C.Keeps (.watch x) P := by
  refine hC.quiet (.of_ok fun m => ⟨a, m, hx m⟩) fun {m b m'} _ hok => ?_
  rw [hx] at hok
  cases hok
  exact ⟨⟨rfl, rfl⟩, h⟩

theorem pureRun {a : α} (h : P a) : C.Keeps (.watch (Pure.pure a)) P :=
  hC.returns (fun _ => rfl) h

theorem bindRun {x : Run α} {f : α → Run β} (hx : C.Keeps (.watch x) P)
    (hf : ∀ a, P a → C.Keeps (.watch (f a)) Q) : C.Keeps (.watch (x >>= f)) Q := by
  rw [Watched.watch_bind]
  exact hC.bind hx hf

theorem raise {f : Fault} (h : f.isStuck = false) : C.Keeps (.watch (Run.raise f)) P :=
  hC.quiet (.raise h) fun _ hok => nomatch hok

theorem ofExcept {x : Except Fault α} (hunstuck : Unstuck x) (hok : ∀ a, x = .ok a → P a) :
    C.Keeps (.watch (Run.ofExcept x)) P := by
  refine hC.quiet (.ofExcept hunstuck) fun _ h => ?_
  obtain ⟨hx, rfl⟩ := Run.eq_of_ofExcept h
  exact ⟨⟨rfl, rfl⟩, hok _ hx⟩

/-- A look at the store. -/
theorem ofStore {g : Store → Except Fault α} (hok : ∀ {s a}, C.stored s → g s = .ok a → P a)
    (herror : ∀ {s f}, C.stored s → g s = .error f → C.fault f) :
    C.Keeps (.watch do Run.ofExcept (g (← Run.store))) P := by
  intro m hm
  show C.Ends m.store [] P (Run.ofExcept (g m.store) m)
  cases hg : g m.store with
  | ok a => exact ⟨hm, hC.refl m.store, hok hm.stored hg⟩
  | error f => exact fault_raised (hC.routine rfl) (herror hm.stored hg) m.store

theorem compose (shown : List Value) : C.Keeps (.watch (Run.compose shown)) fun _ => True := by
  refine hC.quiet (fun m f m' hx => ?_) fun {m _ m'} _ hx => ?_
  · rcases Run.compose_cases shown m with h | h
    · cases h.symm.trans hx
    · cases h.symm.trans hx
      rfl
  · rcases Run.compose_cases shown m with h | h
    · cases h.symm.trans hx
      exact ⟨⟨rfl, rfl⟩, trivial⟩
    · cases h.symm.trans hx

theorem notify (n : Notice) : C.Keeps (.watch (Run.notify n)) fun _ => True := by
  refine hC.quiet (.of_ok fun _ => ⟨_, _, rfl⟩) fun _ hok => ?_
  cases hok
  exact ⟨⟨rfl, rfl⟩, trivial⟩

theorem rate {x : Float} (h : C.score x) : C.Keeps (.rate x) C.score :=
  hC.bind (hC.noted (.rated x)) fun _ _ => hC.pure h

theorem addScore {total : Float} {v : Value} (htotal : C.score total)
    (hv : ∃ x, v = .float x ∧ C.score x) : C.Keeps (.addScore total v) C.score := by
  obtain ⟨x, rfl, hx⟩ := hv
  exact hC.bind (P := (· = total + x)) (hC.returns (fun _ => rfl) rfl) fun sum hsum =>
    hsum ▸ hC.rate (hC.sum htotal hx)

theorem isData {v : Value} (hv : v.isData = true) : C.Admits v :=
  (Machine.Covers.alike (m := {}) (K := fun x => x.isData = true)
    { inherited := fun hx hxy => hxy.isData hx
      trace := fun _ ht => hC.data ht
      tag := fun _ _ h => nomatch h
      closure := fun _ _ _ _ h => nomatch h
      special := fun _ h => nomatch h
      undefined := fun _ _ => rfl }) v hv

/-! ## Code -/

section Code

variable {ctx : Context} (htop : ctx.topLevel = .standard) {c : Scope} {v : Value}

theorem readPart {e u : Trace} {k : Key} (h : ∀ s : Store, s.child? e k = some u) :
    C.Keeps (.part e k) (· = u) :=
  hC.returns (Evaluator.part_ok h) rfl

include htop in
theorem lookup (hc : C.Sees c) (name : String) :
    C.Keeps (.watch (Run.lookup ctx c (.text name))) C.Admits := by
  refine hC.quiet ?_ fun {m a m'} hm hok => ?_
  · refine .bind (.of_ok fun _ => ⟨_, _, rfl⟩) fun m => .ofExcept ?_
    rw [htop]
    exact Scope.find_unstuck name c
  · obtain ⟨hfind, rfl⟩ := Run.eq_of_ofExcept (x := c.find ctx.topLevel m (.text name)) hok
    exact ⟨⟨rfl, rfl⟩, (hm.copies.lookup htop (fun _ hs => hs) name hc).self_ok hfind⟩

theorem openFrame (source : Trace) (hc : C.Sees c) : C.Keeps (.openFrame source c) C.Sees := by
  intro m hm
  have hcopies := hm.copies.newFrame
  exact ⟨.ofCopies hcopies hm.stored, hC.note m.store _, hm.copies.scopesAlike hC.seen hc⟩

theorem bindPattern (p : Shape) (hc : C.Sees c) (hv : C.Admits v) :
    C.Keeps (.bindPattern ctx c p.toTrace v) fun _ => True := by
  intro m hm
  rw [Watched.run_bindPattern]
  rcases hm.copies.matchBind_cases ctx p hC.isData hc hv with
    ⟨m', n', hok, hok', hrebound, hcopies⟩ | ⟨h, k, m', n', herror, -, -⟩
  · obtain rfl : m' = n' := by
      rw [hok] at hok'
      cases hok'
      rfl
    rw [hok, Watched.events_bindPattern hok]
    have hstore : m'.store = m.store := hrebound.store
    refine ⟨.ofCopies hcopies ?_, ?_, trivial⟩
    · rw [hstore]
      exact hm.stored
    · rw [hstore]
      exact hC.note m.store _
  · rw [herror]
    cases h with
    | fault f => exact hC.routine (p.matchBind_unstuck ctx c v m f m' herror)
    | tooDeep => trivial

theorem readDefinition {p : Shape} {t : Term} (h : p.key ≠ .name "pattern") :
    C.Keeps (.openDefinition (Term.definition p t h).toTrace)
      (· = (p.toTrace, p.key, t.toTrace)) := by
  refine hC.bind (hC.readPart (u := p.toTrace) fun s => rfl) ?_
  rintro _ rfl
  refine hC.bind (P := (· = p.key)) (hC.returns (fun m => ?_) rfl) ?_
  · show Run.ofExcept (m.store.definiens (.trace p.toTrace)) m = _
    rw [p.definiens_toTrace]
    rfl
  · rintro _ rfl
    refine hC.bind (hC.readPart (u := t.toTrace) fun s => ?_) ?_
    · show childAt? [(.name "pattern", p.toTrace), (p.key, t.toTrace)] p.key = _
      rw [childAt?_cons, if_neg (Ne.symm h), childAt?_cons, if_pos rfl]
    · rintro _ rfl
      exact hC.pure rfl

end Code

/-! ## Calls -/

section Calls

variable {ctx : Context} {o : Overlays Trace} {v f : Value} {vs : List Value}

theorem checkOutput (ho : C.site o) : C.Keeps (.checkOutput o) fun _ => True :=
  hC.ofStore (fun _ _ => trivial) fun hs hf => hC.output hs ho hf

theorem overlaid (ho : C.site o) {s : Store} (hs : C.stored s)
    (h : Evaluator.overlayValue? s o.intervene = some v) : C.Admits v := by
  rw [overlayValue?_eq] at h
  exact hC.forced hs ho h

theorem noteClash : C.Keeps (.noteClash o) fun _ => True := by
  refine hC.bind (P := fun _ => True) ?_ fun clash _ => ?_
  · exact hC.quiet (.of_ok fun _ => ⟨_, _, rfl⟩) fun _ hok => by
      cases hok
      exact ⟨⟨rfl, rfl⟩, trivial⟩
  · cases clash with
    | true => exact hC.noted .clashed
    | false => exact hC.pure trivial

theorem warnMismatch (target intervention proc : Value) (callee : String) :
    C.Keeps (.watch (Evaluator.warnMismatch ctx target intervention proc callee))
      fun _ => True := by
  unfold Evaluator.warnMismatch
  split
  · exact hC.bindRun (hC.compose _) fun _ _ => Keeps.withStore fun _ _ => hC.notify _
  · exact hC.pureRun trivial

theorem verdict (ho : C.site o) (hv : C.Admits v) {score : Float} (hscore : C.score score) :
    C.Keeps (.watch (Watched.verdict ctx f o v score)) C.Gives := by
  refine Keeps.withStore fun s hs => ?_
  have hforced : C.Admits ((Evaluator.overlayValue? s o.intervene).getD v) := by
    cases hx : Evaluator.overlayValue? s o.intervene with
    | none => exact hv
    | some x => exact hC.overlaid ho hs hx
  cases hu : Evaluator.overlayValue? s o.target with
  | none => exact hC.pureRun ⟨hforced, hscore⟩
  | some u =>
    obtain ⟨hadmits, hany⟩ := hC.observed hs ho hu
    cases Evaluator.overlayValue? s o.intervene with
    | none => exact hC.pureRun ⟨hadmits, hany _⟩
    | some x =>
      dsimp only
      split
      · exact hC.bindRun (hC.warnMismatch _ _ _ _) fun _ _ => hC.pureRun ⟨hadmits, hany _⟩
      · exact hC.pureRun ⟨hadmits, hany _⟩

theorem settle (ho : C.site o) (hv : C.Admits v) {score : Float} (hscore : C.score score) :
    C.Keeps (.settle ctx f vs o v score) C.Gives := by
  refine hC.bind hC.noteClash fun _ _ => hC.bind (hC.verdict ho hv hscore) fun r hr => ?_
  exact hC.bind (hC.recordCall ho hr.1) fun _ _ => hC.pure hr

theorem enroll (hv : C.Admits v) : C.Keeps (.watch (Run.enroll v)) C.Admits := by
  refine hC.quiet (.of_ok fun _ => ⟨_, _, rfl⟩) fun _ hok => ?_
  obtain ⟨hu, hstill⟩ := Run.enroll_ok (fun _ => rfl) hok hv
  exact ⟨hstill.toQuiet, hu⟩

omit hC in
theorem compute_ok {s : Store} {b : Builtin} (hvs : ItemsAlike C.like vs vs)
    (h : b.compute s vs = .ok v) : C.Admits v := by
  cases hb : b.compares with
  | false => exact (Builtin.compute_agree s s hb hvs).self_ok h
  | true =>
    refine (Builtin.compute_compares hb hvs (fun hv hx => ?_) fun r _ _ _ _ hv hx => ?_).self_ok h
    · rw [Likeness.copying_eq hv, Likeness.copying_eq hx]
    · rw [Likeness.copying_eq hv, Likeness.copying_eq hx]

theorem callBuiltin (b : Builtin) (hvs : ItemsAlike C.like vs vs) :
    C.Keeps (.watch (b.call vs)) C.Admits := by
  by_cases hb : b = .note
  · subst hb
    refine hC.quiet (.of_ok fun _ => ⟨_, _, rfl⟩) fun _ hok => ?_
    cases hok
    exact ⟨⟨rfl, rfl⟩, hvs.getLast?_getD .null⟩
  · rw [Builtin.call_eq hb]
    refine Keeps.withStore fun s _ => ?_
    exact hC.bindRun (hC.ofExcept (b.compute_unstuck s vs) fun _ => compute_ok hvs) fun _ hv =>
      hC.enroll hv

theorem choose (ho : C.site o) (d : Distribution) (hvs : ItemsAlike C.like vs vs) :
    C.Keeps (.watch (Watched.choose ctx d vs o)) C.Gives := by
  refine Keeps.withStore fun s hs => ?_
  cases hu : Evaluator.overlayValue? s o.target with
  | some u =>
    obtain ⟨hadmits, hany⟩ := hC.observed hs ho hu
    have hscored : C.Keeps (.watch do
        let score ← Run.ofExcept (d.logDensity s (u :: vs))
        return (u, score)) C.Gives :=
      hC.bindRun (P := fun _ => True)
        (hC.ofExcept (d.logDensity_plain s (u :: vs)).unstuck fun _ _ => trivial) fun score _ =>
          hC.pureRun ⟨hadmits, hany score⟩
    cases Evaluator.overlayValue? s o.intervene with
    | none => exact hscored
    | some x =>
      dsimp only
      split
      · exact hscored
      · exact hC.bindRun (hC.warnMismatch _ _ _ _) fun _ _ => hC.pureRun ⟨hadmits, hany _⟩
  | none =>
    cases hx : Evaluator.overlayValue? s o.intervene with
    | some x => exact hC.pureRun ⟨hC.overlaid ho hs hx, hC.zero⟩
    | none =>
      refine hC.bindRun (P := C.Admits) ?_ fun v hv => hC.pureRun ⟨hv, hC.zero⟩
      refine hC.quiet (d.sample_unstuck ctx vs) fun _ hok => ?_
      obtain ⟨hv, hquiet⟩ := Distribution.sample_ok (fun _ => rfl) hvs hok
      exact ⟨hquiet, hv⟩

theorem applyRandom (ho : C.site o) (d : Distribution) (hvs : ItemsAlike C.like vs vs) :
    C.Keeps (.applyRandom ctx d vs o) C.Gives := by
  refine hC.bind hC.noteClash fun _ _ => hC.bind (hC.choose ho d hvs) fun r hr => ?_
  refine hC.bind (hC.noted (.rated r.2)) fun _ _ => ?_
  exact hC.bind (hC.recordCall ho hr.1) fun _ _ => hC.pure hr

end Calls

end Lawful

omit hC

/-- Recursive calls that respect the contract. -/
structure KeepsCalls (C : Contract) (calls : Watched.Calls) : Prop where
  walk : ∀ {e : Term} {c a o}, C.Sees c → C.site o →
    C.Keeps (calls.walk e.toTrace c a o) C.Gives
  apply : ∀ {f v o}, C.Admits f → C.Admits v → C.site o →
    C.Keeps (calls.apply f v o) C.Returns

namespace Lawful

include hC

section Recursion

variable {ctx : Context} (htop : ctx.topLevel = .standard) {calls : Watched.Calls}
variable (hcalls : C.KeepsCalls calls) {o : Overlays Trace} {v f : Value} {vs : List Value}
variable {c : Scope} {a : Address}
include hcalls

theorem mapItems (ho : C.site o) (hf : C.Admits f) (i : Nat) {total : Float}
    (htotal : C.score total) (hvs : ItemsAlike C.like vs vs) :
    C.Keeps (.mapItems calls f o i total vs) fun r => ItemsAlike C.like r.1 r.1 ∧ C.score r.2 := by
  induction vs generalizing i total with
  | nil => exact hC.pure ⟨.nil, htotal⟩
  | cons v vs ih =>
    cases hvs with | cons hv hvs =>
    refine hC.bind (hC.below [.index i] ho) fun below hbelow => ?_
    have hinput : C.Admits (.list [v]) := .ofList (.cons hv .nil)
    refine hC.bind (hC.inside [.index i] (hcalls.apply hf hinput hbelow)) fun r hr => ?_
    refine hC.bind (hC.addScore htotal hr.2) fun sum hsum => ?_
    exact hC.bind (ih (i + 1) hsum hvs) fun q hq => hC.pure ⟨.cons hr.1 hq.1, hq.2⟩

theorem applySpecial (ho : C.site o) {s : Special} (hs : s ≠ .scored)
    (hvs : ItemsAlike C.like vs vs) : C.Keeps (.applySpecial ctx calls s vs o) C.Returns := by
  have harity (shape : String) : (Evaluator.needsTwo vs shape).isStuck = false := by
    unfold Evaluator.needsTwo
    split <;> rfl
  cases s with
  | apply =>
    match vs, hvs with
    | [proc, args], .cons hproc (.cons hargs .nil) =>
      refine hC.bind (hcalls.apply hproc hargs ho) fun r hr => ?_
      exact hC.bind (hC.noted _) fun _ _ => hC.pure hr
    | [], _ | [_], _ | _ :: _ :: _ :: _, _ => exact hC.raise (harity _)
  | map =>
    match vs, hvs with
    | [proc, sequence], .cons hproc (.cons hsequence .nil) =>
      rcases hsequence.items?_cases with ⟨hnone, -⟩ | ⟨items, _, hitems, hitems', hall⟩
      · simp only [Watched.applySpecial, hnone]
        exact hC.raise rfl
      · obtain rfl := Option.some.inj (hitems.symm.trans hitems')
        simp only [Watched.applySpecial, hitems]
        refine hC.bind (hC.mapItems hcalls ho hproc 0 hC.zero hall) fun r hr => ?_
        have hresult := hsequence.sameKind hr.1
        refine hC.bind (hC.recordCall ho hresult) fun _ _ => ?_
        exact hC.pure ⟨hresult, r.2, rfl, hr.2⟩
    | [], _ | [_], _ | _ :: _ :: _ :: _, _ => exact hC.raise (harity _)
  | random d => exact hC.bind (hC.applyRandom ho d hvs) fun r hr => hC.pure ⟨hr.1, r.2, rfl, hr.2⟩
  | scored => exact absurd rfl hs

theorem evalFrom (e : Term) (hc : C.Sees c) (ho : C.site o) :
    C.Keeps (.evalFrom calls e.toTrace c o) C.Gives :=
  hC.bind (hC.checkOutput ho) fun _ _ => hcalls.walk hc ho

theorem applyClosure (p : Shape) (t : Term) (name : Option String) (hc : C.Sees c)
    (hv : C.Admits v) (ho : C.site o) :
    C.Keeps (.applyClosure ctx calls (Term.gen p t name).toTrace c v o) C.Gives := by
  refine hC.bind (P := fun r => C.Sees r.1 ∧ r.2 = t.toTrace) ?_ ?_
  · refine hC.bind (hC.openFrame _ hc) fun frame hframe => ?_
    refine hC.bind (hC.readPart (u := p.toTrace) fun _ => rfl) ?_
    rintro _ rfl
    refine hC.bind (hC.bindPattern p hframe hv) fun _ _ => ?_
    refine hC.bind (hC.readPart (u := t.toTrace) fun _ => rfl) ?_
    rintro _ rfl
    exact hC.pure ⟨hframe, rfl⟩
  · rintro ⟨frame, _⟩ ⟨hframe, rfl⟩
    exact hC.evalFrom hcalls t hframe ho

theorem applyWith (hf : C.Admits f) (hv : C.Admits v) (ho : C.site o) :
    C.Keeps (.applyWith ctx calls f v o) C.Returns := by
  refine hC.bind (hC.noted .called) fun _ _ => ?_
  refine hC.bind (P := fun items => ItemsAlike C.like items items) ?_ fun items hitems => ?_
  · unfold Evaluator.checkInputs
    rcases hv.items?_cases with ⟨hnone, -⟩ | ⟨items, _, hitems, hitems', hall⟩
    · rw [hnone]
      exact hC.raise rfl
    · obtain rfl := Option.some.inj (hitems.symm.trans hitems')
      rw [hitems]
      exact hC.pureRun hall
  refine hC.bind (hC.checkOutput ho) fun _ _ => ?_
  cases hf with
  | special hs => exact hC.applySpecial hcalls ho hs hitems
  | @closure serial source c name _ _ hclosure =>
    obtain ⟨-, ⟨⟨p, t, label, rfl⟩, -⟩, hc⟩ := hclosure
    refine hC.bind (hC.applyClosure hcalls p t label hc hv ho) fun r hr => ?_
    exact hC.bind (hC.settle ho hr.1 hr.2) fun q hq => hC.pure ⟨hq.1, q.2, rfl, hq.2⟩
  | builtin b =>
    refine hC.bind (P := C.Gives) ?_ fun q hq => hC.pure ⟨hq.1, q.2, rfl, hq.2⟩
    exact hC.bind (hC.callBuiltin b hitems) fun v hv => hC.settle ho hv hC.zero
  | _ =>
    refine hC.bindRun (hC.compose _) fun _ _ => Keeps.withStore fun s _ => ?_
    exact hC.bindRun (hC.notify _) fun _ _ => hC.raise rfl

/-! ## Forms -/

theorem descend (e : Term) (key : Key) (hc : C.Sees c) (ho : C.site o) :
    C.Keeps (.descend calls e.toTrace c a key o) C.Gives := by
  refine hC.inside [key] (hC.bind (hcalls.walk hc ho) fun r hr => ?_)
  exact hC.bind (hC.noted (.gave r.1)) fun _ _ => hC.pure hr

/-- The parts of an expression from a position on, when the expression has them all. -/
theorem walkParts (kind : Expression.Kind) (ts : List Term) (hc : C.Sees c) (ho : C.site o)
    (left i : Nat) (hleft : i + left ≤ ts.length) {total : Float} (htotal : C.score total) :
    C.Keeps (.walkParts calls (.node kind.word (Expression.numbered 0 (Term.toTraces ts))) c a o
      left i total) fun r => ItemsAlike C.like r.1 r.1 ∧ r.1.length = left ∧ C.score r.2 := by
  induction left generalizing i total with
  | zero => exact hC.pure ⟨.nil, rfl, htotal⟩
  | succ left ih =>
    have hi : i < ts.length := by omega
    refine hC.bind (hC.readPart (u := ts[i].toTrace) fun s => ?_) ?_
    · have hnumber := childAt?_numbered (Term.toTraces ts) i 0
      rw [Nat.zero_add, Term.getElem?_toTraces, List.getElem?_eq_getElem hi] at hnumber
      exact hnumber
    · rintro _ rfl
      refine hC.bind (hC.descend hcalls ts[i] (.index i) hc ho) fun r hr => ?_
      refine hC.bind (hC.rate (hC.sum htotal hr.2)) fun sum hsum => ?_
      refine hC.bind (ih (i + 1) (by omega) hsum) fun q hq => ?_
      exact hC.pure ⟨.cons hr.1 hq.1, congrArg Nat.succ hq.2.1, hq.2.2⟩

omit hcalls in
theorem countParts (kind : Expression.Kind) (ts : List Term) :
    C.Keeps (.countParts (.node kind.word (Expression.numbered 0 (Term.toTraces ts))))
      (· = ts.length) := by
  refine hC.returns (a := (Expression.numbered 0 (Term.toTraces ts)).length) (fun m => rfl) ?_
  rw [length_numbered, Term.length_toTraces]

omit hcalls in
theorem invoke (t : Term) (ts : List Term) (proc : Value) (ho : C.site o) :
    C.Keeps (.invoke (Term.application t ts).toTrace a proc o) fun r => C.site r.2 := by
  obtain ⟨name, hname⟩ := t.procedureKey_toTrace
  refine hC.bind (P := fun _ => True) ?_ fun key _ => ?_
  · refine hC.bind (hC.readPart (u := t.toTrace) fun _ => rfl) ?_
    rintro _ rfl
    refine hC.returns (a := .name name) (fun m => ?_) trivial
    show Run.ofExcept (Evaluator.procedureKey m.store t.toTrace) m = _
    rw [hname]
    rfl
  · refine hC.bind (hC.compose _) fun _ _ => ?_
    refine hC.bind (hC.inside [key] (hC.noted .invoked)) fun _ _ => ?_
    exact hC.bind (hC.below (a ++ [key]) ho) fun below hbelow => hC.pure hbelow

theorem walkApplication (t : Term) (ts : List Term) (hc : C.Sees c) (ho : C.site o) :
    C.Keeps (.walkApplication calls (Term.application t ts).toTrace c a o) C.Gives := by
  refine hC.bind (hC.countParts .application (t :: ts)) ?_
  rintro _ rfl
  refine hC.bind (hC.walkParts hcalls .application (t :: ts) hc ho _ 0 (by omega) hC.zero) ?_
  rintro ⟨vs, total⟩ ⟨hvs, hlength, htotal⟩
  refine hC.bind (hC.invoke t ts _ ho) fun r hr => ?_
  cases hvs with
  | nil => cases hlength
  | cons hv hvs =>
    refine hC.bind (hC.inside [r.1] (hcalls.apply hv (.ofList hvs) hr)) fun q hq => ?_
    exact hC.bind (hC.addScore htotal hq.2) fun sum hsum => hC.pure ⟨hq.1, hsum⟩

theorem walkConditional (p y n : Term) (hc : C.Sees c) (ho : C.site o) :
    C.Keeps (.walkConditional calls (Term.conditional p y n).toTrace c a o) C.Gives := by
  refine hC.bind (hC.readPart (u := p.toTrace) fun _ => rfl) ?_
  rintro _ rfl
  refine hC.bind (hC.descend hcalls p _ hc ho) fun r hr => ?_
  have hbranch : ∃ branch : Term, ∀ s : Store, s.child? (Term.conditional p y n).toTrace
      (.name (if r.1.isTruthy then "then" else "else")) = some branch.toTrace := by
    cases r.1.isTruthy with
    | true => exact ⟨y, fun _ => rfl⟩
    | false => exact ⟨n, fun _ => rfl⟩
  obtain ⟨branch, hbranch⟩ := hbranch
  refine hC.bind (hC.compose _) fun _ _ => ?_
  refine hC.bind (hC.readPart hbranch) ?_
  rintro _ rfl
  refine hC.bind (hC.descend hcalls branch _ hc ho) fun q hq => ?_
  exact hC.bind (hC.rate (hC.sum hr.2 hq.2)) fun sum hsum => hC.pure ⟨hq.1, hsum⟩

theorem walkBlock (ts : List Term) (hc : C.Sees c) (ho : C.site o) :
    C.Keeps (.walkBlock calls (Term.block ts).toTrace c a o) C.Gives := by
  refine hC.bind (hC.openFrame _ hc) fun frame hframe => ?_
  refine hC.bind (hC.countParts .block ts) ?_
  rintro _ rfl
  refine hC.bind (hC.walkParts hcalls .block ts hframe ho _ 0 (by omega) hC.zero) fun r hr => ?_
  exact hC.pure ⟨hr.1.getLast?_getD (.trace (hC.data rfl)), hr.2.2⟩

theorem walkDefinition (p : Shape) (t : Term) (h : p.key ≠ .name "pattern") (hc : C.Sees c)
    (ho : C.site o) :
    C.Keeps (.walkDefinition ctx calls (Term.definition p t h).toTrace c a o) C.Gives := by
  refine hC.bind (hC.readDefinition h) ?_
  rintro _ rfl
  refine hC.bind (hC.descend hcalls t p.key hc ho) fun r hr => ?_
  refine hC.bind (P := fun _ => True) (hC.inside [p.key] ?_) fun _ _ => hC.pure hr
  refine hC.bind (hC.bindPattern p hc hr.1) fun _ _ => hC.bind (hC.noted (.defined r.1)) fun _ _ => ?_
  exact hC.recordDefinition ho hr.1

omit hcalls in
/-- The overlays of a tag are overlays that are met. -/
theorem resolveTag (hv : C.Admits v) : C.Keeps (.watch (Run.edit v.resolveTag)) C.site := by
  cases hquasi : v.quasiAddress with
  | ok r =>
    obtain ⟨⟨i, j, htag⟩, -⟩ := hv.quasiAddress_agree.self_ok hquasi
    rw [Value.resolveTag_ok hquasi]
    exact hC.below r.2 htag.2.2
  | error f =>
    rw [Value.edit_resolveTag_error hquasi]
    exact hC.raise (v.quasiAddress_unstuck f hquasi)

theorem walkWithAddress (t u : Term) (hc : C.Sees c) (ho : C.site o) :
    C.Keeps (.walkWithAddress calls (Term.withAddress t u).toTrace c a o) C.Gives := by
  refine hC.bind (hC.readPart (u := t.toTrace) fun _ => rfl) ?_
  rintro _ rfl
  refine hC.bind (hC.descend hcalls t _ hc ho) fun r hr => ?_
  refine hC.bind (P := fun q => C.site q.1 ∧ q.2 = u.toTrace) ?_ ?_
  · refine hC.bind (hC.noted .relocated) fun _ _ => ?_
    refine hC.bind (hC.resolveTag hr.1) fun resolved hresolved => ?_
    refine hC.bind (hC.readPart (u := u.toTrace) fun _ => rfl) ?_
    rintro _ rfl
    exact hC.pure ⟨hresolved, rfl⟩
  · rintro ⟨resolved, _⟩ ⟨hresolved, rfl⟩
    refine hC.bind (hC.evalFrom hcalls u hc hresolved) fun q hq => ?_
    exact hC.bind (hC.rate (hC.sum hr.2 hq.2)) fun sum hsum => hC.pure ⟨hq.1, hsum⟩

omit hcalls in
include htop in
theorem walkReference (name : String) (hc : C.Sees c) :
    C.Keeps (.watch (Evaluator.walkReference ctx (Term.reference name).toTrace c)) C.Gives := by
  refine Keeps.withStore fun s _ => hC.bindRun (P := (· = .text name)) ?_ ?_
  · exact hC.pureRun rfl
  · rintro _ rfl
    exact hC.bindRun (hC.lookup htop hc name) fun v hv => hC.pureRun ⟨hv, hC.zero⟩

omit hcalls in
theorem walkGen (p : Shape) (t : Term) (name : Option String) (hc : C.Sees c) :
    C.Keeps (.watch (Evaluator.walkGen (Term.gen p t name).toTrace c)) C.Gives := by
  refine Keeps.withStore fun s _ => hC.bindRun (hC.compose _) fun _ _ => ?_
  refine hC.bindRun (P := fun _ => True) ?_ fun i _ => ?_
  · exact hC.quiet (.of_ok fun _ => ⟨_, _, rfl⟩) fun _ hok => by
      cases hok
      exact ⟨⟨rfl, rfl⟩, trivial⟩
  · exact hC.pureRun ⟨.closure ⟨rfl, ⟨⟨p, t, name, rfl⟩, trivial⟩, hc⟩, hC.zero⟩

omit hcalls in
theorem walkThis (ho : C.site o) : C.Keeps (.watch (Evaluator.walkThis o)) C.Gives := by
  refine hC.quiet (.of_ok fun _ => ⟨_, _, rfl⟩) fun _ hok => ?_
  cases hok
  exact ⟨⟨rfl, rfl⟩, .tag ⟨rfl, rfl, ho⟩, hC.zero⟩

include htop

theorem walkKind (e : Term) (hc : C.Sees c) (ho : C.site o) :
    C.Keeps (.walkKind ctx calls e.kind e.toTrace c a o) C.Gives := by
  cases e with
  | literal v hv => exact hC.returns (fun _ => rfl) ⟨hC.isData hv, hC.zero⟩
  | reference name => exact hC.walkReference htop name hc
  | application t ts => exact hC.walkApplication hcalls t ts hc ho
  | gen p t name => exact hC.walkGen p t name hc
  | conditional p y n => exact hC.walkConditional hcalls p y n hc ho
  | block ts => exact hC.walkBlock hcalls ts hc ho
  | definition p t h => exact hC.walkDefinition hcalls p t h hc ho
  | this => exact hC.walkThis ho
  | withAddress t u => exact hC.walkWithAddress hcalls t u hc ho

theorem walkWith (e : Term) (hc : C.Sees c) (ho : C.site o) :
    C.Keeps (.walkWith ctx calls e.toTrace c a o) C.Gives := by
  refine hC.bind (P := (· = some e.kind)) (hC.returns (fun m => ?_) rfl) ?_
  · show EStateM.Result.ok (Watched.kindOf m.store e.toTrace) m = _
    rw [Term.kindOf_toTrace]
  · rintro _ rfl
    refine hC.bind (hC.walkKind htop hcalls e hc ho) fun r hr => ?_
    refine hC.bind (P := C.Admits) (Keeps.withStore fun s hs => ?_) fun v hv => hC.pure ⟨hv, hr.2⟩
    cases hv : o.intervene.bind (s.valueAt? · a) with
    | none => exact hC.pureRun hr.1
    | some v => exact hC.pureRun (hC.forced hs ho hv)

end Recursion

/-! ## Whole runs -/

section Runs

variable {ctx : Context} (htop : ctx.topLevel = .standard)
include htop

theorem keepsCalls (depth : Nat) : C.KeepsCalls (Watched.callsAt ctx depth) := by
  have htooDeep {α : Type} {P : α → Prop} : C.Keeps (.watch (throw .tooDeep)) P :=
    fun _ _ => trivial
  induction depth with
  | zero =>
    constructor
    · intro e c a o _ _
      simp only [Watched.callsAt, Watched.walkAt]
      exact htooDeep
    · intro f v o _ _ _
      simp only [Watched.callsAt, Watched.applyAt]
      exact htooDeep
  | succ depth ih =>
    constructor
    · intro e c a o hc ho
      simp only [Watched.callsAt, Watched.walkAt]
      exact hC.walkWith htop ih e hc ho
    · intro f v o hf hv ho
      simp only [Watched.callsAt, Watched.applyAt]
      exact hC.applyWith ih hf hv ho

variable {intervene target : Option Trace} {output : Value}
variable (ho : C.Keeps (.overlays intervene target output) C.site)
include ho

/-- An evaluation from the start respects the contract. -/
theorem eval (e : Term) {c : Scope} (hc : C.Sees c) :
    C.Keeps (.eval ctx (.trace e.toTrace) c intervene target output) C.Gives :=
  hC.bind ho fun _ ho => (hC.keepsCalls htop Evaluator.depthLimit).walk hc ho

/-- A call from the start respects the contract. -/
theorem apply {f v : Value} (hf : C.Admits f) (hv : C.Admits v) :
    C.Keeps (.apply ctx f v intervene target output) C.Returns := by
  refine hC.bind (P := fun _ => True) (hC.ofExcept ?_ fun _ _ => trivial) fun _ _ => ?_
  · unfold Evaluator.checkInputs
    split
    · exact .ok _
    · exact .error rfl
  · exact hC.bind ho fun _ ho =>
      (hC.keepsCalls htop Evaluator.depthLimit).apply hf hv ho

end Runs

end Lawful
end Contract
end ProbTrace
