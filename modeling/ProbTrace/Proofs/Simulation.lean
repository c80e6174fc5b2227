import ProbTrace.Proofs.Operation
import ProbTrace.Proofs.Watched

/-!
# Simulation of one evaluation by another

Two evaluations of the same expression run side by side, each on a machine of its own.
A simulation says when the two machines are related, how values, overlays and the code
under evaluation correspond, and what the events of the first run tell about the step
from one pair of machines to a later one.

The laws of a simulation are about the points where an evaluation meets its machine:
reading code, looking up and binding names, opening frames, reaching into the output
and recording values.  From the laws it follows that the two runs stay related to their
ends, by induction on the depth of calls with one lemma for each form
(`Lawful.handles`).  A property of a single run is a simulation of the
run by itself.
-/

namespace ProbTrace

/-- Two machines side by side. -/
structure Pair where
  first : Machine
  second : Machine

/-- How two evaluations of one expression correspond. -/
structure Simulation where
  /-- Which values correspond. -/
  like : Likeness
  /-- Which machines correspond. -/
  related : Pair → Prop
  /-- What is known of later machines from the events of the first run. -/
  advance : Pair → List Event → Pair → Prop
  /-- Which overlays correspond, for an evaluation whose root has an address. -/
  site : Pair → Address → Overlays Trace → Overlays Trace → Prop
  /-- Which code may be walked at an address, in which two scopes. -/
  code : Address → Trace → Scope → Scope → Prop
  /-- The same of an expression whose numbered parts are walked. -/
  parts : Address → Trace → Scope → Scope → Prop
  /-- Which sources of closures are entered by a call at an address. -/
  entered : Address → Trace → Scope → Scope → Prop
  /-- Which patterns may be bound: by a call at its address, by a definition at the
  address of its right-hand side. -/
  binding : Address → Trace → Scope → Scope → Prop
  /-- What walks at an address may give. -/
  walked : Address → Value → Value → Prop
  /-- Which events of the first run are taken for granted. -/
  assumed : Event → Prop
  /-- Whether nothing is said of a first run that fails. -/
  lenient : Prop
  /-- How runs that fail correspond, with the events of the first one. -/
  halted : Pair → List Event → Pair → Halt → Halt → Prop

namespace Simulation

variable (S : Simulation) {α β γ δ : Type}

/-- Values that correspond. -/
abbrev Alike : Value → Value → Prop :=
  Value.Alike S.like

/-- The ends of two runs correspond: both return and are related, or both fail. -/
def Ends (w : Pair) (events : List Event) (post : Pair → α → β → Prop) :
    EStateM.Result Halt Machine α → EStateM.Result Halt Machine β → Prop
  | .ok a m, .ok b n => S.advance w events ⟨m, n⟩ ∧ S.related ⟨m, n⟩ ∧ post ⟨m, n⟩ a b
  | .error h m, .error k n => S.lenient ∨ S.halted w events ⟨m, n⟩ h k
  | .error _ _, .ok _ _ => S.lenient
  | .ok _ _, .error _ _ => False

/-- Two computations at an address run alike from a pair of machines. -/
def Runs (A : Address) (w : Pair) (x : Watched α) (y : Watched β)
    (post : Pair → α → β → Prop) : Prop :=
  S.related w → (∀ e ∈ x.events w.first, S.assumed (e.below A)) →
    S.Ends w ((x.events w.first).map (Event.below A)) post (x.run w.first) (y.run w.second)

/-- Later machines of the same two runs. -/
def Later (w w' : Pair) : Prop :=
  ∃ events, S.advance w events w'

/-- The laws about sequences of steps, about failing and about texts: values that correspond
have texts on both sides or on none. -/
structure Basic : Prop where
  advance_refl : ∀ {w}, S.related w → S.advance w [] w
  advance_append : ∀ {w w' w'' es fs},
    S.advance w es w' → S.advance w' fs w'' → S.advance w (es ++ fs) w''
  site_later : ∀ {w w' es A o p}, S.advance w es w' → S.site w A o p → S.site w' A o p
  halted_append : ∀ {w w' w'' es fs h k},
    S.advance w es w' → S.halted w' fs w'' h k → S.halted w (es ++ fs) w'' h k
  fault : ∀ {w f g}, S.related w → Fault.Alike S.like f g → S.halted w [] w (.fault f) (.fault g)
  tooDeep : ∀ {w}, S.related w → S.halted w [] w .tooDeep .tooDeep
  text : ∀ {w v v'}, S.related w → S.Alike v v' →
    w.first.store.hasText v = w.second.store.hasText v'

variable {S} {A : Address} {w : Pair}

namespace Runs

variable {x : Watched α} {y : Watched β} {P : Pair → α → β → Prop}

theorem imp {Q : Pair → α → β → Prop} (h : S.Runs A w x y P)
    (hPQ : ∀ w' a b, S.Later w w' → S.related w' → P w' a b → Q w' a b) : S.Runs A w x y Q := by
  intro hw he
  have hends := h hw he
  revert hends
  cases x.run w.first <;> cases y.run w.second <;> intro hends
  · exact ⟨hends.1, hends.2.1, hPQ _ _ _ ⟨_, hends.1⟩ hends.2.1 hends.2.2⟩
  · exact hends
  · exact hends
  · exact hends

theorem mono {Q : Pair → α → β → Prop} (h : S.Runs A w x y P)
    (hPQ : ∀ w' a b, S.related w' → P w' a b → Q w' a b) : S.Runs A w x y Q :=
  h.imp fun w' a b _ => hPQ w' a b

/-- If nothing is said of a first run that fails, then its result and its log can be used. -/
theorem foreseeing (hlenient : S.lenient)
    (h : ∀ a m, x.run w.first = .ok a m → (∀ e ∈ x.events w.first, S.assumed (e.below A)) →
      S.Runs A w x y P) : S.Runs A w x y P := by
  intro hw he
  cases hx : x.run w.first with
  | ok a m => exact hx ▸ h a m hx he hw he
  | error f m =>
    cases y.run w.second with
    | ok b n => exact hlenient
    | error g n => exact .inl hlenient

/-- A shared prefix of the address is the address of the place below. -/
theorem within {a : Address} (h : S.Runs (A ++ a) w x y P) :
    S.Runs A w (.within a x) (.within a y) P := by
  intro hw he
  have he' : ∀ e ∈ x.events w.first, S.assumed (e.below (A ++ a)) := fun e hmem => by
    rw [← Event.below_below]
    exact he _ (List.mem_map_of_mem hmem)
  have hends := h hw he'
  have hevents : ((Watched.within a x).events w.first).map (Event.below A) =
      (x.events w.first).map (Event.below (A ++ a)) := by
    simp [Watched.within, Function.comp_def]
  rw [hevents]
  exact hends

/-- Computations that start by reading the stores. -/
theorem withStore {f : Store → Run α} {g : Store → Run β}
    (h : S.related w → S.Runs A w (.watch (f w.first.store)) (.watch (g w.second.store)) P) :
    S.Runs A w (.watch (Run.store >>= f)) (.watch (Run.store >>= g)) P :=
  fun hw => h hw hw

/-- Computations that start by reading the machines. -/
theorem withMachine {f : Machine → Run α} {g : Machine → Run β}
    (h : S.related w → S.Runs A w (.watch (f w.first)) (.watch (g w.second)) P) :
    S.Runs A w (.watch (get >>= f)) (.watch (get >>= g)) P :=
  fun hw => h hw hw

/-- An entry of the log that is taken for granted. -/
theorem note {d e : Deed} (h : S.related w → S.assumed ⟨A, d⟩ → S.advance w [⟨A, d⟩] w) :
    S.Runs A w (.note d) (.note e) fun _ _ _ => S.assumed ⟨A, d⟩ := by
  intro hw he
  have hassumed : S.assumed ⟨A, d⟩ := by
    simpa [Event.below] using he ⟨[], d⟩ (by simp [Watched.note])
  refine ⟨?_, hw, hassumed⟩
  simpa [Watched.note, Event.below] using h hw hassumed

end Runs

namespace Basic

variable (hS : S.Basic)
include hS

theorem later_trans {w' w'' : Pair} (h : S.Later w w') (h' : S.Later w' w'') :
    S.Later w w'' := by
  obtain ⟨es, hes⟩ := h
  obtain ⟨fs, hfs⟩ := h'
  exact ⟨es ++ fs, hS.advance_append hes hfs⟩

theorem site_of_later {w' : Pair} {o p : Overlays Trace} (h : S.Later w w')
    (hs : S.site w A o p) : S.site w' A o p := by
  obtain ⟨es, hes⟩ := h
  exact hS.site_later hes hs

theorem pure {a : α} {b : β} {P : Pair → α → β → Prop} (h : P w a b) :
    S.Runs A w (pure a) (pure b) P :=
  fun hw _ => ⟨hS.advance_refl hw, hw, h⟩

/-- Two steps one after the other, the second from whatever the first leads to. -/
theorem bind {x : Watched α} {y : Watched β} {f : α → Watched γ} {g : β → Watched δ}
    {P : Pair → α → β → Prop} {Q : Pair → γ → δ → Prop}
    (h : S.Runs A w x y P)
    (hf : ∀ w' a b, S.Later w w' → P w' a b → S.Runs A w' (f a) (g b) Q) :
    S.Runs A w (x >>= f) (y >>= g) Q := by
  intro hw he
  rw [Watched.events_bind] at he ⊢
  rw [Watched.run_bind_apply, Watched.run_bind_apply]
  have hends := h hw fun e hmem => he e (List.mem_append_left _ hmem)
  revert hends he
  cases x.run w.first with
  | error h m =>
    intro he hends
    cases hy : y.run w.second with
    | error k n =>
      rw [hy] at hends
      rw [List.append_nil]
      exact hends
    | ok b n =>
      rw [hy] at hends
      -- The first run has failed, so that the second may go on and end in any way.
      have hlenient : S.lenient := hends
      dsimp only
      cases (g b).run n with
      | ok _ _ => exact hlenient
      | error _ _ => exact Or.inl hlenient
  | ok a m =>
    intro he hends
    cases hy : y.run w.second with
    | error k n =>
      rw [hy] at hends
      exact hends.elim
    | ok b n =>
      rw [hy] at hends
      obtain ⟨hadv, hrel, hP⟩ := hends
      have hnext := hf ⟨m, n⟩ a b ⟨_, hadv⟩ hP hrel
        fun e hmem => he e (List.mem_append_right _ hmem)
      simp only [List.map_append]
      revert hnext
      dsimp only
      cases (f a).run m <;> cases (g b).run n <;> intro hnext
      · exact ⟨hS.advance_append hadv hnext.1, hnext.2⟩
      · exact hnext
      · exact hnext
      · exact hnext.imp_right (hS.halted_append hadv)

/-- The same for steps that make no entries in the log. -/
theorem bindRun {x : Run α} {y : Run β} {f : α → Run γ} {g : β → Run δ}
    {P : Pair → α → β → Prop} {Q : Pair → γ → δ → Prop}
    (h : S.Runs A w (.watch x) (.watch y) P)
    (hf : ∀ w' a b, S.Later w w' → P w' a b → S.Runs A w' (.watch (f a)) (.watch (g b)) Q) :
    S.Runs A w (.watch (x >>= f)) (.watch (y >>= g)) Q := by
  rw [Watched.watch_bind, Watched.watch_bind]
  exact hS.bind h hf

theorem pureRun {a : α} {b : β} {P : Pair → α → β → Prop} (h : P w a b) :
    S.Runs A w (.watch (Pure.pure a)) (.watch (Pure.pure b)) P :=
  fun hw _ => ⟨hS.advance_refl hw, hw, h⟩

theorem raise {f g : Fault} {P : Pair → α → β → Prop} (h : Fault.Alike S.like f g) :
    S.Runs A w (.watch (Run.raise f)) (.watch (Run.raise g)) P :=
  fun hw _ => .inr (hS.fault hw (h.raised (hS.text hw)))

/-- Texts that can be composed on both sides or on none. -/
theorem composeTexts {vs vs' : List Value}
    (h : S.related w → vs.all w.first.store.hasText = vs'.all w.second.store.hasText) :
    S.Runs A w (.watch (Run.compose vs)) (.watch (Run.compose vs')) fun _ _ _ => True := by
  intro hw _
  simp only [Watched.run_watch, Run.compose]
  rw [h hw]
  split
  · exact ⟨hS.advance_refl hw, hw, trivial⟩
  · exact .inr (hS.fault hw (.plain rfl))

/-- Texts that show values which correspond. -/
theorem compose {vs vs' : List Value} (h : ItemsAlike S.like vs vs') :
    S.Runs A w (.watch (Run.compose vs)) (.watch (Run.compose vs')) fun _ _ _ => True :=
  hS.composeTexts fun hw => all_hasText_eq (hS.text hw) h

/-- Computations on values that agree. -/
theorem ofExcept {x : Except Fault α} {y : Except Fault β} {R : α → β → Prop}
    (h : Agree S.like R x y) :
    S.Runs A w (.watch (Run.ofExcept x)) (.watch (Run.ofExcept y)) fun _ => R := by
  intro hw _
  cases h with
  | ok hab => exact ⟨hS.advance_refl hw, hw, hab⟩
  | error hf => exact hS.raise (A := A) hf hw fun _ _ => by contradiction

/-- Computations on what is read from the two stores. -/
theorem ofStore {f : Store → Except Fault α} {g : Store → Except Fault β} {R : α → β → Prop}
    (h : S.related w → Agree S.like R (f w.first.store) (g w.second.store)) :
    S.Runs A w (.watch do Run.ofExcept (f (← Run.store)))
      (.watch do Run.ofExcept (g (← Run.store))) fun _ => R :=
  fun hw => hS.ofExcept (A := A) (h hw) hw

theorem readStore {f : Store → α} {g : Store → β} {R : α → β → Prop}
    (h : S.related w → R (f w.first.store) (g w.second.store)) :
    S.Runs A w (.watch do return f (← Run.store)) (.watch do return g (← Run.store))
      fun _ => R :=
  fun hw _ => ⟨hS.advance_refl hw, hw, h hw⟩

/-- Tags that are alike denote overlays that correspond, if those below tags do. -/
theorem resolveTag {v v' : Value} {P : Pair → Overlays Trace → Overlays Trace → Prop}
    (hbelow : ∀ {i o j p} (a : Address), S.like.tag i o j p →
      S.Runs A w (.watch (Run.edit (o.below a))) (.watch (Run.edit (p.below a))) P)
    (hv : S.Alike v v') :
    S.Runs A w (.watch (Run.edit v.resolveTag)) (.watch (Run.edit v'.resolveTag)) P := by
  unfold Value.resolveTag
  have hagree := hv.quasiAddress_agree
  revert hagree
  generalize v.quasiAddress = x
  generalize v'.quasiAddress = y
  intro hagree
  cases hagree with
  | error hfault => exact hS.raise hfault
  | @ok r q hr =>
    obtain ⟨o, a⟩ := r
    obtain ⟨p, b⟩ := q
    obtain ⟨⟨i, j, htag⟩, rfl⟩ : (∃ i j, S.like.tag i o j p) ∧ a = b := hr
    exact hbelow a htag

end Basic

/-- An expression was of a kind in some store. -/
def HasKind (e : Trace) (kind : Expression.Kind) : Prop :=
  ∃ s, Watched.kindOf s e = some kind

end Simulation

/-- Remarks: that a call is made, that overlays disagree, and what a score is. -/
def Deed.isRemark : Deed → Bool
  | .called => true
  | .clashed => true
  | .rated _ => true
  | _ => false

/-- The keys of the parts that are walked in the scope of the form itself, other than
numbered parts and right-hand sides. -/
def Expression.Kind.walkedKeys : Expression.Kind → List Key
  | .conditional => [.name "predicate", .name "then", .name "else"]
  | .withAddress => [.name "tag"]
  | _ => []

namespace Simulation

/-- The laws about code: how forms read their parts, open frames, look up and bind
names.  Both runs are in one context. -/
structure Coded (S : Simulation) (ctx : Context) : Prop where
  trace : ∀ {A e c d}, S.code A e c d → S.like.trace e
  kind : ∀ {w A e c d}, S.related w → S.code A e c d →
    Watched.kindOf w.first.store e = Watched.kindOf w.second.store e
  application : ∀ {A e c d}, S.code A e c d → HasKind e .application → S.parts A e c d
  count : ∀ {w A e c d}, S.related w → S.parts A e c d →
    (w.first.store.children e).length = (w.second.store.children e).length
  part : ∀ {w A e c d} (i : Nat), S.parts A e c d →
    S.Runs A w (.part e (.index i)) (.part e (.index i)) fun _ u v =>
      u = v ∧ S.code (A ++ [.index i]) u c d
  walkedPart : ∀ {w A e c d kind key}, S.code A e c d → HasKind e kind →
    key ∈ kind.walkedKeys → S.Runs A w (.part e key) (.part e key) fun _ u v =>
      u = v ∧ S.code (A ++ [key]) u c d
  reference : ∀ {w A e c d}, S.code A e c d → HasKind e .reference →
    S.Runs A w (.watch (Evaluator.walkReference ctx e c))
      (.watch (Evaluator.walkReference ctx e d)) fun _ r q => S.Alike r.1 q.1 ∧ r.2 = q.2
  literal : ∀ {w A e c d}, S.code A e c d → HasKind e .literal →
    S.Runs A w (.watch (Evaluator.walkLiteral e)) (.watch (Evaluator.walkLiteral e))
      fun _ r q => S.Alike r.1 q.1 ∧ r.2 = q.2
  gen : ∀ {w A e c d}, S.code A e c d → HasKind e .gen →
    S.Runs A w (.watch (Evaluator.walkGen e c)) (.watch (Evaluator.walkGen e d))
      fun _ r q => S.Alike r.1 q.1 ∧ r.2 = q.2
  emptyTrace : S.like.trace .empty
  openBlock : ∀ {w A e c d}, S.code A e c d → HasKind e .block →
    S.Runs A w (.openFrame e c) (.openFrame e d) fun _ c' d' => S.parts A e c' d'
  openClosure : ∀ {w A source name i c j d}, S.like.closure source name i c j d →
    S.Runs A w (.openFrame source c) (.openFrame source d) fun _ c' d' =>
      S.entered A source c' d'
  parameters : ∀ {w A source c d}, S.entered A source c d →
    S.Runs A w (.part source (.name "pattern")) (.part source (.name "pattern")) fun _ u v =>
      u = v ∧ S.binding A u c d
  body : ∀ {w A source c d}, S.entered A source c d →
    S.Runs A w (.part source (.name "body")) (.part source (.name "body")) fun _ u v =>
      u = v ∧ S.code A u c d
  openDefinition : ∀ {w A e c d}, S.code A e c d → HasKind e .definition →
    S.Runs A w (.openDefinition e) (.openDefinition e) fun _ r q =>
      r = q ∧ S.code (A ++ [r.2.1]) r.2.2 c d ∧ S.binding (A ++ [r.2.1]) r.1 c d
  bindPattern : ∀ {w A pattern c d v v'}, S.binding A pattern c d → S.Alike v v' →
    S.Runs A w (.bindPattern ctx c pattern v) (.bindPattern ctx d pattern v') fun _ _ _ => True
  callKey : ∀ {w A e c d}, S.code A e c d → HasKind e .application →
    S.Runs A w (.callKey e) (.callKey e) fun _ k k' =>
      k = k' ∧ ∀ w', S.related w' → S.advance w' [⟨A ++ [k], .invoked⟩] w'
  relocate : ∀ {w A e c d t t'}, S.code A e c d → HasKind e .withAddress → S.Alike t t' →
    S.Runs A w (.relocate e t) (.relocate e t') fun w' r q =>
      r.2 = q.2 ∧ S.code A r.2 c d ∧ S.site w' A r.1 q.1 ∧
        ∀ v v', S.walked A v v' → S.Alike v v'

/-- The laws about overlays: how values are forced, observed, captured and recorded, and
what the procedures other than closures do. -/
structure Overlaid (S : Simulation) (ctx : Context) : Prop where
  remark : ∀ {w A d}, d.isRemark = true → S.related w → S.advance w [⟨A, d⟩] w
  rejectExpression : ∀ {w A v} (a : Address), S.Alike v v →
    S.Runs A w (.watch (Evaluator.rejectExpression a v))
      (.watch (Evaluator.rejectExpression a v)) fun _ r q => S.walked A r.1 q.1 ∧ r.2 = q.2
  capture : ∀ {w A B o p}, S.site w B o p →
    S.Runs A w (.watch (Evaluator.walkThis o)) (.watch (Evaluator.walkThis p))
      fun _ r q => S.Alike r.1 q.1 ∧ r.2 = q.2
  force : ∀ {w A B a o p v v'}, A = B ++ a → S.site w B o p → S.Alike v v' →
    S.Runs A w (.force a o v) (.force a p v') fun _ => S.walked A
  gave : ∀ {w A v v'}, S.walked A v v' →
    S.Runs A w (.note (.gave v)) (.note (.gave v')) fun _ _ _ => S.Alike v v'
  checkOutput : ∀ {w A o p}, S.site w A o p →
    S.Runs A w (.checkOutput o) (.checkOutput p) fun _ _ _ => True
  settle : ∀ {w A f f' vs vs' o p v v'} (score : Float), f ≠ .special .apply →
    S.assumed ⟨A, .called⟩ → S.Alike f f' → ItemsAlike S.like vs vs' → S.site w A o p →
    S.walked A v v' → S.Runs A w (.settle ctx f vs o v score) (.settle ctx f' vs' p v' score)
      fun _ r q => S.Alike r.1 q.1 ∧ r.2 = q.2
  applyBuiltin : ∀ {w A b vs vs' o p}, S.assumed ⟨A, .called⟩ → ItemsAlike S.like vs vs' →
    S.site w A o p →
    S.Runs A w (.applyBuiltin ctx b vs o) (.applyBuiltin ctx b vs' p)
      fun _ r q => S.Alike r.1 q.1 ∧ r.2 = q.2
  applyRandom : ∀ {w A dist vs vs' o p}, S.assumed ⟨A, .called⟩ →
    S.like.special (.random dist) → ItemsAlike S.like vs vs' → S.site w A o p →
    S.Runs A w (.applyRandom ctx dist vs o) (.applyRandom ctx dist vs' p)
      fun _ r q => S.Alike r.1 q.1 ∧ r.2 = q.2
  below : ∀ {w A B o p} (a : Address), S.site w B o p →
    S.Runs A w (.watch (Run.edit (o.below a))) (.watch (Run.edit (p.below a)))
      fun w' q r => S.site w' (B ++ a) q r
  recordMap : ∀ {w A vs vs' o p v v'}, S.like.special .map → ItemsAlike S.like vs vs' →
    S.site w A o p → S.Alike v v' →
    S.Runs A w (.recordCall (.special .map) vs o v) (.recordCall (.special .map) vs' p v')
      fun _ _ _ => True
  defined : ∀ {w A} (v : Value), S.related w → S.advance w [⟨A, .defined v⟩] w
  recordDefinition : ∀ {w A B a o p v v'}, A = B ++ a → S.site w B o p → S.Alike v v' →
    S.Runs A w (.recordDefinition a o v) (.recordDefinition a p v') fun _ _ _ => True
  returned : ∀ {w A s} (vs : List Value) (v : Value), s = .apply ∨ s = .scored → S.related w →
    S.like.special s → S.advance w [⟨A, .returned (.special s) vs v⟩] w
  rejectProcedure : ∀ {w A v v'}, S.Alike v v' →
    S.Runs A w (.rejectProcedure v) (.rejectProcedure v') fun _ r q =>
      S.Alike r.1 q.1 ∧ S.Alike r.2 q.2

/-- The laws of a simulation. -/
structure Lawful (S : Simulation) (ctx : Context) : Prop
    extends S.Basic, S.Coded ctx, S.Overlaid ctx

/-- Recursive calls under which two evaluations run alike. -/
structure Handles (S : Simulation) (calls : Watched.Calls) : Prop where
  walk : ∀ {w A B a e c d o p}, A = B ++ a → S.code A e c d → S.site w B o p →
    S.Runs A w (calls.walk e c a o) (calls.walk e d a p) fun _ r q =>
      S.walked A r.1 q.1 ∧ r.2 = q.2
  apply : ∀ {w A f f' v v' o p}, S.Alike f f' → S.Alike v v' → S.site w A o p →
    S.Runs A w (calls.apply f v o) (calls.apply f' v' p) fun _ r q =>
      S.Alike r.1 q.1 ∧ S.Alike r.2 q.2

namespace Lawful

variable {S : Simulation} {ctx : Context} {calls : Watched.Calls}
variable {A B : Address} {w : Pair} {a : Address} {e : Trace} {c d : Scope} {o p : Overlays Trace}
variable (hS : S.Lawful ctx) (hcalls : S.Handles calls)
include hS

/-! ## Steps of forms and calls -/

/-- A remark says nothing. -/
theorem noteRemark {d e : Deed} (h : d.isRemark = true) :
    S.Runs A w (.note d) (.note e) fun _ _ _ => S.assumed ⟨A, d⟩ :=
  Runs.note fun hw _ => hS.remark h hw

theorem rate (score : Float) : S.Runs A w (.rate score) (.rate score) fun _ => Eq := by
  refine hS.bind (hS.noteRemark rfl) ?_
  rintro w₁ - - - -
  exact hS.pure rfl

theorem addScore {v v' : Value} (total : Float) (h : S.Alike v v') :
    S.Runs A w (.addScore total v) (.addScore total v') fun _ => Eq := by
  have heq : Evaluator.addScore total v = Evaluator.addScore total v' := by
    unfold Evaluator.addScore
    rw [h.toFloat_eq]
  unfold Watched.addScore
  rw [heq]
  refine hS.bind (P := fun _ => Eq)
    (hS.ofExcept (.self (Evaluator.addScore_plain _ _) fun _ _ => rfl)) ?_
  rintro w₁ sum _ - rfl
  exact hS.rate sum

theorem checkInputs {v v' : Value} (h : S.Alike v v') :
    S.Runs A w (.watch (Run.ofExcept (Evaluator.checkInputs v)))
      (.watch (Run.ofExcept (Evaluator.checkInputs v'))) fun _ => ItemsAlike S.like := by
  refine hS.ofExcept ?_
  unfold Evaluator.checkInputs
  rcases h.items?_cases with ⟨hn, hn'⟩ | ⟨us, us', hu, hu', hus⟩
  · rw [hn, hn']
    exact .error (.invalidInputs _ h)
  · rw [hu, hu']
    exact .ok hus

theorem countParts (hparts : S.parts A e c d) :
    S.Runs A w (.countParts e) (.countParts e) fun _ => Eq :=
  hS.readStore fun hw => hS.count hw hparts

theorem enterClosure {source : Trace} {name v v' : Value} {i j : Nat}
    (hclosure : S.like.closure source name i c j d) (hv : S.Alike v v') :
    S.Runs A w (.openClosure ctx source c v) (.openClosure ctx source d v')
      fun _ r q => r.2 = q.2 ∧ S.code A r.2 r.1 q.1 := by
  refine hS.bind (hS.openClosure hclosure) ?_
  rintro w₁ frame frame' - hentered
  refine hS.bind (hS.parameters hentered) ?_
  rintro w₂ pattern _ - ⟨rfl, hbinding⟩
  refine hS.bind (hS.bindPattern hbinding hv) ?_
  rintro w₃ - - - -
  refine hS.bind (hS.body hentered) ?_
  rintro w₄ body _ - ⟨rfl, hcode⟩
  exact hS.pure ⟨rfl, hcode⟩

theorem invoke {f f' : Value} (hA : A = B ++ a) (hcode : S.code A e c d)
    (hkind : HasKind e .application) (hf : S.Alike f f') (hsite : S.site w B o p) :
    S.Runs A w (.invoke e a f o) (.invoke e a f' p) fun w' r q =>
      r.1 = q.1 ∧ S.site w' (A ++ [r.1]) r.2 q.2 := by
  refine hS.bind (hS.callKey hcode hkind) ?_
  rintro w₁ key _ hl₁ ⟨rfl, hinvoked⟩
  refine hS.bind (hS.compose (.cons (.ofAddress _) (.cons hf (.cons (.ofAddress _) .nil)))) ?_
  rintro w₂ - - hl₂ -
  refine hS.bind (Runs.within (Runs.note fun hw _ => hinvoked w₂ hw)) ?_
  rintro w₃ - - hl₃ -
  have hl := hS.later_trans (hS.later_trans hl₁ hl₂) hl₃
  refine hS.bind (hS.below (a ++ [key]) (hS.site_of_later hl hsite)) ?_
  rintro w₄ below below' - hbelow
  rw [← List.append_assoc, ← hA] at hbelow
  exact hS.pure ⟨rfl, hbelow⟩

theorem define {key : Key} {pattern : Trace} {v v' : Value} (hA : A = B ++ a)
    (hbinding : S.binding (A ++ [key]) pattern c d) (hsite : S.site w B o p)
    (hv : S.Alike v v') :
    S.Runs A w (.define ctx c a key o pattern v) (.define ctx d a key p pattern v')
      fun _ _ _ => True := by
  refine Runs.within ?_
  refine hS.bind (hS.bindPattern hbinding hv) ?_
  rintro w₁ - - hl₁ -
  refine hS.bind (Runs.note fun hw _ => hS.defined v hw) ?_
  rintro w₂ - - hl₂ -
  exact hS.recordDefinition (by rw [hA, List.append_assoc])
    (hS.site_of_later (hS.later_trans hl₁ hl₂) hsite) hv

include hcalls

theorem mapItems {f f' : Value} (hf : S.Alike f f') {vs vs' : List Value}
    (h : ItemsAlike S.like vs vs') (i : Nat) (total : Float) (hsite : S.site w A o p) :
    S.Runs A w (.mapItems calls f o i total vs) (.mapItems calls f' p i total vs')
      fun _ r q => ItemsAlike S.like r.1 q.1 ∧ r.2 = q.2 := by
  induction h generalizing w i total with
  | nil => exact hS.pure ⟨.nil, rfl⟩
  | cons hv _ ih =>
    refine hS.bind (hS.below [.index i] hsite) ?_
    rintro w₁ below below' hl₁ hbelow
    refine hS.bind (Runs.within (hcalls.apply hf (.ofList (.cons hv .nil)) hbelow)) ?_
    rintro w₂ ⟨u, score⟩ ⟨u', score'⟩ hl₂ ⟨hu, hscore⟩
    refine hS.bind (hS.addScore total hscore) ?_
    rintro w₃ sum _ hl₃ rfl
    have hl := hS.later_trans (hS.later_trans hl₁ hl₂) hl₃
    refine hS.bind (ih (i + 1) sum (hS.site_of_later hl hsite)) ?_
    rintro w₄ ⟨us, rest⟩ ⟨us', _⟩ - ⟨hus, rfl⟩
    exact hS.pure ⟨.cons hu hus, rfl⟩

theorem applySpecial {s : Special} (hcalled : S.assumed ⟨A, .called⟩) (hs : S.like.special s)
    {vs vs' : List Value} (h : ItemsAlike S.like vs vs') (hsite : S.site w A o p) :
    S.Runs A w (.applySpecial ctx calls s vs o) (.applySpecial ctx calls s vs' p)
      fun _ r q => S.Alike r.1 q.1 ∧ S.Alike r.2 q.2 := by
  cases s with
  | apply =>
    match h with
    | .nil => exact hS.raise (.misfit (.text _) (.tooFewInputs _ .nil))
    | .cons hf .nil => exact hS.raise (.misfit (.text _) (.tooFewInputs _ (.cons hf .nil)))
    | .cons hf (.cons hv .nil) =>
      refine hS.bind (hcalls.apply hf hv hsite) ?_
      rintro w₁ r q - hr
      refine hS.bind (Runs.note fun hw _ => hS.returned _ _ (.inl rfl) hw hs) ?_
      rintro w₂ - - - -
      exact hS.pure hr
    | .cons hf (.cons hv (.cons hu h)) =>
      refine hS.raise ?_
      simp only [Evaluator.needsTwo, List.length_cons]
      rw [if_neg (by omega), if_neg (by omega)]
      exact .misfit (.text _) (.tooManyInputs _ (.cons hf (.cons hv (.cons hu h))))
  | map =>
    match h with
    | .nil => exact hS.raise (.misfit (.text _) (.tooFewInputs _ .nil))
    | .cons hf .nil => exact hS.raise (.misfit (.text _) (.tooFewInputs _ (.cons hf .nil)))
    | .cons hf (.cons hv .nil) =>
      simp only [Watched.applySpecial]
      rcases hv.items?_cases with ⟨hn, hn'⟩ | ⟨us, us', hu, hu', hus⟩
      · rw [hn, hn']
        exact hS.raise (.invalidInputs _ hv)
      rw [hu, hu']
      refine hS.bind (hS.mapItems hcalls hf hus 0 0.0 hsite) ?_
      rintro w₁ ⟨ws, total⟩ ⟨ws', total'⟩ hl ⟨hws, rfl⟩
      have hresult := hv.sameKind hws
      refine hS.bind (hS.recordMap hs (.cons hf (.cons hv .nil)) (hS.site_of_later hl hsite)
        hresult) ?_
      rintro w₂ - - - -
      exact hS.pure ⟨hresult, .float _⟩
    | .cons hf (.cons hv (.cons hu h)) =>
      refine hS.raise ?_
      simp only [Evaluator.needsTwo, List.length_cons]
      rw [if_neg (by omega), if_neg (by omega)]
      exact .misfit (.text _) (.tooManyInputs _ (.cons hf (.cons hv (.cons hu h))))
  | random dist =>
    refine hS.bind (hS.applyRandom hcalled hs h hsite) ?_
    rintro w₁ ⟨v, score⟩ ⟨v', score'⟩ - ⟨hv, rfl⟩
    exact hS.pure ⟨hv, .float _⟩
  | scored =>
    rcases h with _ | ⟨hv, _ | ⟨hscore, _⟩⟩
    · exact hS.raise (.plain rfl)
    · exact hS.raise (.plain rfl)
    · refine hS.bind (Runs.note fun hw _ => hS.returned _ _ (.inr rfl) hw hs) ?_
      rintro w₁ - - - -
      exact hS.pure ⟨hv, hscore⟩

theorem evalFrom (hcode : S.code A e c d) (hsite : S.site w A o p) :
    S.Runs A w (.evalFrom calls e c o) (.evalFrom calls e d p) fun _ r q =>
      S.walked A r.1 q.1 ∧ r.2 = q.2 := by
  refine hS.bind (hS.checkOutput hsite) ?_
  rintro w₁ - - hl -
  exact hcalls.walk (List.append_nil A).symm hcode (hS.site_of_later hl hsite)

theorem applyClosure {source : Trace} {name v v' : Value} {i j : Nat}
    (hclosure : S.like.closure source name i c j d) (hv : S.Alike v v')
    (hsite : S.site w A o p) :
    S.Runs A w (.applyClosure ctx calls source c v o) (.applyClosure ctx calls source d v' p)
      fun _ r q => S.walked A r.1 q.1 ∧ r.2 = q.2 := by
  refine hS.bind (hS.enterClosure hclosure hv) ?_
  rintro w₁ ⟨frame, body⟩ ⟨frame', body'⟩ hl ⟨rfl, hcode⟩
  exact hS.evalFrom hcalls hcode (hS.site_of_later hl hsite)

theorem applyWith {f f' v v' : Value} (hf : S.Alike f f') (hv : S.Alike v v')
    (hsite : S.site w A o p) :
    S.Runs A w (.applyWith ctx calls f v o) (.applyWith ctx calls f' v' p)
      fun _ r q => S.Alike r.1 q.1 ∧ S.Alike r.2 q.2 := by
  refine hS.bind (hS.noteRemark rfl) ?_
  rintro w₀ - - hl₀ hcalled
  have hsite₀ := hS.site_of_later hl₀ hsite
  refine hS.bind (hS.checkInputs hv) ?_
  rintro w₁ us us' hl₁ hus
  refine hS.bind (hS.checkOutput (hS.site_of_later hl₁ hsite₀)) ?_
  rintro w₂ - - hl₂ -
  have hsite₂ := hS.site_of_later (hS.later_trans hl₁ hl₂) hsite₀
  cases hf with
  | special hs => exact hS.applySpecial hcalls hcalled hs hus hsite₂
  | closure hclosure =>
    refine hS.bind (hS.applyClosure hcalls hclosure hv hsite₂) ?_
    rintro w₃ ⟨u, score⟩ ⟨u', score'⟩ hl₃ ⟨hu, rfl⟩
    refine hS.bind (hS.settle score nofun hcalled (.closure hclosure) hus
      (hS.site_of_later hl₃ hsite₂) hu) ?_
    rintro w₄ ⟨x, total⟩ ⟨x', total'⟩ - ⟨hx, rfl⟩
    exact hS.pure ⟨hx, .float _⟩
  | builtin b =>
    refine hS.bind (hS.applyBuiltin hcalled hus hsite₂) ?_
    rintro w₃ ⟨x, total⟩ ⟨x', total'⟩ - ⟨hx, rfl⟩
    exact hS.pure ⟨hx, .float _⟩
  | null => exact hS.rejectProcedure .null
  | bool b => exact hS.rejectProcedure (.bool b)
  | int i => exact hS.rejectProcedure (.int i)
  | float x => exact hS.rejectProcedure (.float x)
  | undefined h => exact hS.rejectProcedure (.undefined h)
  | text s => exact hS.rejectProcedure (.text s)
  | symbol s => exact hS.rejectProcedure (.symbol s)
  | list size items => exact hS.rejectProcedure (.list size items)
  | tuple size items => exact hS.rejectProcedure (.tuple size items)
  | quoted h => exact hS.rejectProcedure (.quoted h)
  | brackets size items => exact hS.rejectProcedure (.brackets size items)
  | trace h => exact hS.rejectProcedure (.trace h)
  | tag h => exact hS.rejectProcedure (.tag h)

/-! ## Forms -/

theorem descend {key : Key} (hA : A = B ++ a) (hcode : S.code (A ++ [key]) e c d)
    (hsite : S.site w B o p) :
    S.Runs A w (.descend calls e c a key o) (.descend calls e d a key p) fun _ r q =>
      S.Alike r.1 q.1 ∧ r.2 = q.2 := by
  refine Runs.within ?_
  refine hS.bind (hcalls.walk (by rw [hA, List.append_assoc]) hcode hsite) ?_
  rintro w₁ r q - ⟨hv, hscore⟩
  refine hS.bind (hS.gave hv) ?_
  rintro w₂ - - - halike
  exact hS.pure ⟨halike, hscore⟩

theorem walkParts (hA : A = B ++ a) (hparts : S.parts A e c d) (hsite : S.site w B o p)
    (left i : Nat) (total : Float) :
    S.Runs A w (.walkParts calls e c a o left i total) (.walkParts calls e d a p left i total)
      fun _ r q => ItemsAlike S.like r.1 q.1 ∧ r.2 = q.2 := by
  induction left generalizing w i total with
  | zero => exact hS.pure ⟨.nil, rfl⟩
  | succ left ih =>
    refine hS.bind (hS.part i hparts) ?_
    rintro w₁ sub _ hl₁ ⟨rfl, hcode⟩
    refine hS.bind (hS.descend hcalls hA hcode (hS.site_of_later hl₁ hsite)) ?_
    rintro w₂ ⟨v, score⟩ ⟨v', _⟩ hl₂ ⟨hv, rfl⟩
    refine hS.bind (hS.rate (total + score)) ?_
    rintro w₃ total _ hl₃ rfl
    have hl := hS.later_trans (hS.later_trans hl₁ hl₂) hl₃
    refine hS.bind (ih (hS.site_of_later hl hsite) (i + 1) total) ?_
    rintro w₄ ⟨vs, sum⟩ ⟨vs', _⟩ - ⟨hvs, rfl⟩
    exact hS.pure ⟨.cons hv hvs, rfl⟩

theorem walkApplication (hA : A = B ++ a) (hcode : S.code A e c d)
    (hkind : HasKind e .application) (hsite : S.site w B o p) :
    S.Runs A w (.walkApplication calls e c a o) (.walkApplication calls e d a p) fun _ r q =>
      S.Alike r.1 q.1 ∧ r.2 = q.2 := by
  have hparts := hS.application hcode hkind
  refine hS.bind (hS.countParts hparts) ?_
  rintro w₁ count _ hl₁ rfl
  have hsite₁ := hS.site_of_later hl₁ hsite
  refine hS.bind (hS.walkParts hcalls hA hparts hsite₁ count 0 0.0) ?_
  rintro w₂ ⟨vs, total⟩ ⟨vs', _⟩ hl₂ ⟨hvs, rfl⟩
  have hproc : S.Alike (vs.headD .null) (vs'.headD .null) := by
    cases hvs with
    | nil => exact .null
    | cons hv _ => exact hv
  refine hS.bind (hS.invoke hA hcode hkind hproc (hS.site_of_later hl₂ hsite₁)) ?_
  rintro w₃ ⟨key, below⟩ ⟨_, below'⟩ hl₃ ⟨rfl, hbelow⟩
  have hinputs : ItemsAlike S.like vs.tail vs'.tail := by
    cases hvs with
    | nil => exact .nil
    | cons _ hvs => exact hvs
  refine hS.bind (Runs.within (hcalls.apply hproc (.ofList hinputs) hbelow)) ?_
  rintro w₄ ⟨v, score⟩ ⟨v', score'⟩ - ⟨hv, hscore⟩
  refine hS.bind (hS.addScore total hscore) ?_
  rintro w₅ sum _ - rfl
  exact hS.pure ⟨hv, rfl⟩

theorem walkConditional (hA : A = B ++ a) (hcode : S.code A e c d)
    (hkind : HasKind e .conditional) (hsite : S.site w B o p) :
    S.Runs A w (.walkConditional calls e c a o) (.walkConditional calls e d a p) fun _ r q =>
      S.Alike r.1 q.1 ∧ r.2 = q.2 := by
  refine hS.bind (hS.walkedPart hcode hkind (by decide)) ?_
  rintro w₁ predicate _ hl₁ ⟨rfl, hpredicate⟩
  have hsite₁ := hS.site_of_later hl₁ hsite
  refine hS.bind (hS.descend hcalls hA hpredicate hsite₁) ?_
  rintro w₂ ⟨v, first⟩ ⟨v', _⟩ hl₂ ⟨hv, rfl⟩
  dsimp only
  rw [hv.isTruthy_eq]
  have hkey : Key.name (if v'.isTruthy then "then" else "else") ∈
      Expression.Kind.conditional.walkedKeys := by
    cases v'.isTruthy <;> decide
  refine hS.bind (hS.compose (.cons (.ofAddress a) (.cons hv .nil))) ?_
  rintro w₃ - - hl₃ -
  refine hS.bind (hS.walkedPart hcode hkind hkey) ?_
  rintro w₄ branch _ hl₄ ⟨rfl, hbranch⟩
  have hl := hS.later_trans (hS.later_trans hl₂ hl₃) hl₄
  refine hS.bind (hS.descend hcalls hA hbranch (hS.site_of_later hl hsite₁)) ?_
  rintro w₅ ⟨x, second⟩ ⟨x', _⟩ - ⟨hx, rfl⟩
  refine hS.bind (hS.rate (first + second)) ?_
  rintro w₆ total _ - rfl
  exact hS.pure ⟨hx, rfl⟩

theorem walkBlock (hA : A = B ++ a) (hcode : S.code A e c d)
    (hkind : HasKind e .block) (hsite : S.site w B o p) :
    S.Runs A w (.walkBlock calls e c a o) (.walkBlock calls e d a p) fun _ r q =>
      S.Alike r.1 q.1 ∧ r.2 = q.2 := by
  refine hS.bind (hS.openBlock hcode hkind) ?_
  rintro w₁ frame frame' hl₁ hparts
  refine hS.bind (hS.countParts hparts) ?_
  rintro w₂ count _ hl₂ rfl
  have hsite₂ := hS.site_of_later (hS.later_trans hl₁ hl₂) hsite
  refine hS.bind (hS.walkParts hcalls hA hparts hsite₂ count 0 0.0) ?_
  rintro w₃ ⟨vs, total⟩ ⟨vs', _⟩ - ⟨hvs, rfl⟩
  exact hS.pure ⟨hvs.getLast?_getD (.trace hS.emptyTrace), rfl⟩

theorem walkDefinition (hA : A = B ++ a) (hcode : S.code A e c d)
    (hkind : HasKind e .definition) (hsite : S.site w B o p) :
    S.Runs A w (.walkDefinition ctx calls e c a o) (.walkDefinition ctx calls e d a p)
      fun _ r q => S.Alike r.1 q.1 ∧ r.2 = q.2 := by
  refine hS.bind (hS.openDefinition hcode hkind) ?_
  rintro w₁ ⟨pattern, key, rhs⟩ _ hl₁ ⟨rfl, hrhs, hbinding⟩
  have hsite₁ := hS.site_of_later hl₁ hsite
  refine hS.bind (hS.descend hcalls hA hrhs hsite₁) ?_
  rintro w₂ ⟨v, score⟩ ⟨v', _⟩ hl₂ ⟨hv, rfl⟩
  refine hS.bind (hS.define hA hbinding (hS.site_of_later hl₂ hsite₁) hv) ?_
  rintro w₃ - - - -
  exact hS.pure ⟨hv, rfl⟩

theorem walkWithAddress (hA : A = B ++ a) (hcode : S.code A e c d)
    (hkind : HasKind e .withAddress) (hsite : S.site w B o p) :
    S.Runs A w (.walkWithAddress calls e c a o) (.walkWithAddress calls e d a p) fun _ r q =>
      S.Alike r.1 q.1 ∧ r.2 = q.2 := by
  refine hS.bind (hS.walkedPart hcode hkind (by decide)) ?_
  rintro w₁ tag _ hl₁ ⟨rfl, htag⟩
  refine hS.bind (hS.descend hcalls hA htag (hS.site_of_later hl₁ hsite)) ?_
  rintro w₂ ⟨t, first⟩ ⟨t', _⟩ hl₂ ⟨ht, rfl⟩
  refine hS.bind (hS.relocate hcode hkind ht) ?_
  rintro w₃ ⟨resolved, body⟩ ⟨resolved', _⟩ hl₃ ⟨rfl, hbody, hresolved, hwalked⟩
  refine hS.bind (hS.evalFrom hcalls hbody hresolved) ?_
  rintro w₄ ⟨v, second⟩ ⟨v', _⟩ - ⟨hv, rfl⟩
  refine hS.bind (hS.rate (first + second)) ?_
  rintro w₅ total _ - rfl
  exact hS.pure ⟨hwalked _ _ hv, rfl⟩

theorem walkKind {kind : Expression.Kind} (hA : A = B ++ a) (hcode : S.code A e c d)
    (hkind : HasKind e kind) (hsite : S.site w B o p) :
    S.Runs A w (.walkKind ctx calls kind e c a o) (.walkKind ctx calls kind e d a p)
      fun _ r q => S.Alike r.1 q.1 ∧ r.2 = q.2 := by
  cases kind with
  | application => exact hS.walkApplication hcalls hA hcode hkind hsite
  | reference => exact hS.reference hcode hkind
  | literal => exact hS.literal hcode hkind
  | gen => exact hS.gen hcode hkind
  | conditional => exact hS.walkConditional hcalls hA hcode hkind hsite
  | block => exact hS.walkBlock hcalls hA hcode hkind hsite
  | definition => exact hS.walkDefinition hcalls hA hcode hkind hsite
  | this => exact hS.capture hsite
  | withAddress => exact hS.walkWithAddress hcalls hA hcode hkind hsite

theorem walkWith (hA : A = B ++ a) (hcode : S.code A e c d) (hsite : S.site w B o p) :
    S.Runs A w (.walkWith ctx calls e c a o) (.walkWith ctx calls e d a p) fun _ r q =>
      S.walked A r.1 q.1 ∧ r.2 = q.2 := by
  have hread : S.Runs A w (.watch do return Watched.kindOf (← Run.store) e)
      (.watch do return Watched.kindOf (← Run.store) e) fun w' k k' =>
        k = k' ∧ Watched.kindOf w'.first.store e = k :=
    fun hw _ => ⟨hS.advance_refl hw, hw, hS.kind hw hcode, rfl⟩
  refine hS.bind hread ?_
  rintro w₁ kind _ hl₁ ⟨rfl, hkind⟩
  have hsite₁ := hS.site_of_later hl₁ hsite
  cases kind with
  | none => exact hS.rejectExpression a (.trace (hS.trace hcode))
  | some kind =>
    refine hS.bind (hS.walkKind hcalls hA hcode ⟨_, hkind⟩ hsite₁) ?_
    rintro w₂ ⟨v, score⟩ ⟨v', _⟩ hl₂ ⟨hv, rfl⟩
    refine hS.bind (hS.force hA (hS.site_of_later hl₂ hsite₁) hv) ?_
    rintro w₃ u u' - hu
    exact hS.pure ⟨hu, rfl⟩

omit hcalls

/-! ## Runs to any depth -/

/-- The recursive calls to any depth make two evaluations run alike. -/
theorem handles (depth : Nat) : S.Handles (Watched.callsAt ctx depth) := by
  induction depth with
  | zero =>
    have hdeep {α β : Type} {A : Address} {w : Pair} {P : Pair → α → β → Prop} :
        S.Runs A w (.watch (throw .tooDeep)) (.watch (throw .tooDeep)) P :=
      fun hw _ => .inr (hS.tooDeep hw)
    constructor
    · intro w A B a e c d o p _ _ _
      simp only [Watched.callsAt, Watched.walkAt]
      exact hdeep
    · intro w A f f' v v' o p _ _ _
      simp only [Watched.callsAt, Watched.applyAt]
      exact hdeep
  | succ depth ih =>
    constructor
    · intro w A B a e c d o p hA hcode hsite
      simp only [Watched.callsAt, Watched.walkAt]
      exact hS.walkWith ih hA hcode hsite
    · intro w A f f' v v' o p hf hv hsite
      simp only [Watched.callsAt, Watched.applyAt]
      exact hS.applyWith ih hf hv hsite

/-- Evaluations from the start run alike when they start under overlays that
correspond. -/
theorem eval {intervene intervene' target target' : Option Trace} {output output' exp : Value}
    (hexp : S.Alike exp exp) (hcode : ∀ t, exp = .trace t → S.code [] t c d)
    (hsite : S.Runs [] w (.overlays intervene target output) (.overlays intervene' target' output')
      fun w' o p => S.site w' [] o p) :
    S.Runs [] w (.eval ctx exp c intervene target output)
      (.eval ctx exp d intervene' target' output') fun _ r q =>
        S.walked [] r.1 q.1 ∧ r.2 = q.2 := by
  refine hS.bind hsite ?_
  rintro w₁ o p - hsite
  cases exp with
  | trace t => exact (hS.handles Evaluator.depthLimit).walk rfl (hcode t rfl) hsite
  | _ => exact hS.rejectExpression [] hexp

theorem apply {intervene intervene' target target' : Option Trace}
    {output output' f f' v v' : Value} (hf : S.Alike f f') (hv : S.Alike v v')
    (hsite : ∀ w', S.Later w w' → S.Runs [] w' (.overlays intervene target output)
      (.overlays intervene' target' output') fun w' o p => S.site w' [] o p) :
    S.Runs [] w (.apply ctx f v intervene target output)
      (.apply ctx f' v' intervene' target' output') fun _ r q =>
        S.Alike r.1 q.1 ∧ S.Alike r.2 q.2 := by
  refine hS.bind (hS.checkInputs hv) ?_
  rintro w₁ - - hl -
  refine hS.bind (hsite w₁ hl) ?_
  rintro w₂ o p - hsite
  exact (hS.handles Evaluator.depthLimit).apply hf hv hsite

end Lawful
end Simulation
end ProbTrace
