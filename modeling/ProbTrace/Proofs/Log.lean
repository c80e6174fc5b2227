import Mathlib.Data.List.Pairwise
import ProbTrace.Proofs.Cells
import ProbTrace.Proofs.Watched

/-!
# The shape of a log

The log of an evaluation follows the shape of the expression.  Every call and every part of
an expression has its place, and what happens below one place is entered below its address.
So no two values are recorded at one address and no two patterns are bound at one, as long
as the keys of calls are names, which no position in an application is.

When an evaluation that has an output returns, then every value that a call returned and
every value that was defined is recorded, tags apart, and nothing else is.
-/

namespace ProbTrace

/-- Deeds that go together at one address. -/
def Deed.GoesWith : Deed → Deed → Prop
  | .recorded _, .recorded _ => False
  | .bound _ _ _, .bound _ _ _ => False
  | .gave v, .recorded w => v = w
  | .recorded w, .gave v => v = w
  | _, _ => True

/-- The deeds that do not go with all others. -/
def Deed.marks : Deed → Bool
  | .gave _ => true
  | .bound _ _ _ => true
  | .recorded _ => true
  | _ => false

theorem Deed.goesWith_of_marks {d e : Deed} (h : d.marks = true → e.marks = true → d.GoesWith e) :
    d.GoesWith e := by
  cases d <;> cases e <;> first | exact trivial | exact h rfl rfl

/-- Entries that may stand in one log. -/
def Event.Compatible (e f : Event) : Prop :=
  e.address = f.address → e.deed.GoesWith f.deed

instance : Std.Symm Event.Compatible where
  symm e f h := by
    intro heq
    have hgoes := h heq.symm
    revert hgoes
    cases e.deed <;> cases f.deed <;> exact id

/-- The address that an entry says was written to. -/
def Event.written? (e : Event) : Option Address :=
  match e.deed with
  | .recorded _ => some e.address
  | _ => none

/-- The addresses that were written to, one after the other. -/
def writes (es : List Event) : List Address :=
  es.filterMap Event.written?

section Compatible

variable {es : List Event} (h : es.Pairwise Event.Compatible) {A : Address}
include h

/-- No address is written to twice. -/
theorem nodup_writes : (writes es).Nodup := by
  refine List.pairwise_filterMap.mpr (h.imp fun {e f} hef => ?_)
  obtain ⟨B, d⟩ := e
  obtain ⟨C, d'⟩ := f
  intro b hb c hc heq
  cases d <;> cases hb
  cases d' <;> cases hc
  exact hef heq

theorem recorded_unique {v w : Value} (hv : ⟨A, .recorded v⟩ ∈ es) (hw : ⟨A, .recorded w⟩ ∈ es) :
    v = w := by
  by_contra hne
  exact h.forall hv hw (fun heq => hne (by cases heq; rfl)) rfl

theorem gave_eq_recorded {v w : Value} (hv : ⟨A, .gave v⟩ ∈ es) (hw : ⟨A, .recorded w⟩ ∈ es) :
    v = w :=
  h.forall hv hw (fun heq => nomatch heq) rfl

theorem bound_unique {c c' : Scope} {p p' b b' : Trace} (hb : ⟨A, .bound c p b⟩ ∈ es)
    (hb' : ⟨A, .bound c' p' b'⟩ ∈ es) : c = c' ∧ p = p' ∧ b = b' := by
  by_contra hne
  exact h.forall hb hb' (fun heq => hne (by cases heq; exact ⟨rfl, rfl, rfl⟩)) rfl

end Compatible

/-- Entries of an evaluation in which every call has a name for its key and records its
value, and no expression is evaluated under the overlays of a tag. -/
def Event.Regular (e : Event) : Prop :=
  match e.deed with
  | .invoked => ∃ name, e.address.getLast? = some (.name name)
  | .returned proc _ _ => proc ≠ .special .scored
  | .relocated => False
  | _ => True

/-- A call of a procedure with inputs that `apply` has passed on returned a value. -/
def PassedOn (es : List Event) (A : Address) (inputs : List Value) (v : Value) : Prop :=
  ∃ proc args items, inputs = [proc, args] ∧ args.items? = some items ∧
    ⟨A, .returned proc items v⟩ ∈ es

/-- An entry has the entries that belong to it: a value is recorded because a call returned
it or because it was defined and is no tag, and all such values are recorded; a call that was
made returned, and what `apply` returns is what the call returned that it passed on. -/
def Event.Backed (es : List Event) (e : Event) : Prop :=
  match e.deed with
  | .recorded v => (∃ proc inputs, ⟨e.address, .returned proc inputs v⟩ ∈ es) ∨
      ⟨e.address, .defined v⟩ ∈ es ∧ v.isTagAddress = false
  | .returned proc inputs v => ⟨e.address, .recorded v⟩ ∈ es ∧
      (proc = .special .apply → PassedOn es e.address inputs v)
  | .defined v => v.isTagAddress = false → ⟨e.address, .recorded v⟩ ∈ es
  | .called => ∃ proc inputs v, ⟨e.address, .returned proc inputs v⟩ ∈ es
  | _ => True

/-- A log in which every entry has the entries that belong to it. -/
def Balanced (es : List Event) : Prop :=
  ∀ e ∈ es, e.Backed es

/-- A call that starts at the root returned a value. -/
def ReturnedAtRoot (proc inputs v : Value) (es : List Event) : Prop :=
  ∃ items, inputs.items? = some items ∧ ⟨[], .returned proc items v⟩ ∈ es

theorem Event.Backed.mono {es fs : List Event} {e : Event} (hsub : es ⊆ fs) (h : e.Backed es) :
    e.Backed fs := by
  obtain ⟨A, d⟩ := e
  cases d with
  | recorded v =>
    refine Or.imp ?_ ?_ h
    · rintro ⟨proc, inputs, hr⟩
      exact ⟨proc, inputs, hsub hr⟩
    · rintro ⟨hd, htag⟩
      exact ⟨hsub hd, htag⟩
  | returned proc inputs v =>
    refine ⟨hsub h.1, fun happly => ?_⟩
    obtain ⟨f, args, items, hinputs, hitems, hr⟩ := h.2 happly
    exact ⟨f, args, items, hinputs, hitems, hsub hr⟩
  | defined v => exact fun htag => hsub (h htag)
  | called =>
    obtain ⟨proc, inputs, v, hr⟩ := h
    exact ⟨proc, inputs, v, hsub hr⟩
  | _ => exact trivial

theorem Event.Backed.below {es : List Event} {e : Event} (a : Address) (h : e.Backed es) :
    (e.below a).Backed (es.map (Event.below a)) := by
  have hmem {A : Address} {d : Deed} (hA : ⟨A, d⟩ ∈ es) :
      ⟨a ++ A, d⟩ ∈ es.map (Event.below a) :=
    List.mem_map.mpr ⟨_, hA, rfl⟩
  obtain ⟨A, d⟩ := e
  cases d with
  | recorded v =>
    refine Or.imp ?_ ?_ h
    · rintro ⟨proc, inputs, hr⟩
      exact ⟨proc, inputs, hmem hr⟩
    · rintro ⟨hd, htag⟩
      exact ⟨hmem hd, htag⟩
  | returned proc inputs v =>
    refine ⟨hmem h.1, fun happly => ?_⟩
    obtain ⟨f, args, items, hinputs, hitems, hr⟩ := h.2 happly
    exact ⟨f, args, items, hinputs, hitems, hmem hr⟩
  | defined v => exact fun htag => hmem (h htag)
  | called =>
    obtain ⟨proc, inputs, v, hr⟩ := h
    exact ⟨proc, inputs, v, hmem hr⟩
  | _ => exact trivial

namespace Balanced

variable {es fs : List Event} {A : Address} {v : Value}

theorem nil : Balanced [] :=
  fun _ h => nomatch h

theorem append (h : Balanced es) (h' : Balanced fs) : Balanced (es ++ fs) := by
  intro e hmem
  rcases List.mem_append.mp hmem with hmem | hmem
  · exact (h e hmem).mono (List.subset_append_left es fs)
  · exact (h' e hmem).mono (List.subset_append_right es fs)

theorem below (a : Address) (h : Balanced es) : Balanced (es.map (Event.below a)) := by
  intro e hmem
  obtain ⟨f, hf, rfl⟩ := List.mem_map.mp hmem
  exact (h f hf).below a

/-- An entry that needs no other. -/
theorem single {e : Event} (h : e.Backed [e]) : Balanced [e] := by
  intro f hmem
  cases List.mem_singleton.mp hmem
  exact h

/-- The entries of a call that has recorded its value. -/
theorem call {proc : Value} (hproc : proc ≠ .special .apply) (inputs : List Value) :
    Balanced [⟨A, .recorded v⟩, ⟨A, .returned proc inputs v⟩] := by
  intro e hmem
  rcases List.mem_cons.mp hmem with rfl | hmem
  · exact .inl ⟨proc, inputs, List.mem_cons_of_mem _ List.mem_cons_self⟩
  · cases List.mem_singleton.mp hmem
    exact ⟨List.mem_cons_self, fun happly => (hproc happly).elim⟩

/-- A call of `apply` returns what the call that it passed on has returned. -/
theorem passedOn {proc args : Value} (h : Balanced es) (hroot : ReturnedAtRoot proc args v es) :
    Balanced (es ++ [⟨[], .returned (.special .apply) [proc, args] v⟩]) := by
  obtain ⟨items, hitems, hr⟩ := hroot
  intro e hmem
  rcases List.mem_append.mp hmem with hmem | hmem
  · exact (h e hmem).mono (List.subset_append_left es _)
  · cases List.mem_singleton.mp hmem
    exact ⟨List.mem_append_left _ (h _ hr).1,
      fun _ => ⟨proc, args, items, rfl, hitems, List.mem_append_left _ hr⟩⟩

/-- A call that was made and returned. -/
theorem calledFirst {proc : Value} {inputs : List Value} (h : Balanced es)
    (hr : ⟨A, .returned proc inputs v⟩ ∈ es) : Balanced (⟨A, .called⟩ :: es) := by
  intro e hmem
  rcases List.mem_cons.mp hmem with rfl | hmem
  · exact ⟨proc, inputs, v, List.mem_cons_of_mem _ hr⟩
  · exact (h e hmem).mono (List.subset_cons_self _ es)

/-- The entries of a definition. -/
theorem definition {scope : Scope} {pattern bindings : Trace} (h : v.isTagAddress = false) :
    Balanced [⟨A, .bound scope pattern bindings⟩, ⟨A, .defined v⟩, ⟨A, .recorded v⟩] := by
  intro e hmem
  simp only [List.mem_cons, List.not_mem_nil, or_false] at hmem
  rcases hmem with rfl | rfl | rfl
  · exact trivial
  · exact fun _ => by simp
  · exact .inr ⟨by simp, h⟩

/-- The entries of a definition of a tag. -/
theorem tagDefinition {scope : Scope} {pattern bindings : Trace} (h : v.isTagAddress = true) :
    Balanced [⟨A, .bound scope pattern bindings⟩, ⟨A, .defined v⟩] := by
  intro e hmem
  simp only [List.mem_cons, List.not_mem_nil, or_false] at hmem
  rcases hmem with rfl | rfl
  · exact trivial
  · intro hfalse
    rw [h] at hfalse
    cases hfalse

/-- The values recorded at an address are those that a call returned there and those that
were defined there, tags apart. -/
theorem recorded_iff (h : Balanced es) : ⟨A, .recorded v⟩ ∈ es ↔
    (∃ proc inputs, ⟨A, .returned proc inputs v⟩ ∈ es) ∨
      ⟨A, .defined v⟩ ∈ es ∧ v.isTagAddress = false := by
  constructor
  · exact h _
  · rintro (⟨proc, inputs, hr⟩ | ⟨hd, htag⟩)
    · exact (h _ hr).1
    · exact h _ hd htag

end Balanced

namespace Watched

variable {α β : Type} {K : Address → Deed → Prop} {P : α → List Event → Prop}

/-- What a log can be said to be, seen from any place above: its entries go together, those
that leave a mark are of a kind, and if the computation returns, then the result and the log
are as stated. -/
def Logs (K : Address → Deed → Prop) (P : α → List Event → Prop) (x : Watched α) : Prop :=
  ∀ B m, (∀ e ∈ x.events m, (e.below B).Regular) →
    (x.events m).Pairwise Event.Compatible ∧
    (∀ e ∈ x.events m, e.deed.marks = true → K e.address e.deed) ∧
    ∀ a m', x.run m = .ok a m' → P a (x.events m)

theorem Logs.mono {K' : Address → Deed → Prop} {Q : α → List Event → Prop} {x : Watched α}
    (h : Logs K P x) (hK : ∀ {A d}, K A d → K' A d) (hPQ : ∀ {a es}, P a es → Q a es) :
    Logs K' Q x := by
  intro B m hregular
  obtain ⟨hpairs, hmarks, hpost⟩ := h B m hregular
  exact ⟨hpairs, fun e he hmark => hK (hmarks e he hmark), fun a m' hrun => hPQ (hpost a m' hrun)⟩

/-- The kind of the marks can be used of a log that is complete. -/
theorem Logs.withMarks {x : Watched α} (h : Logs K P x) :
    Logs K (fun a es => P a es ∧ ∀ e ∈ es, e.deed.marks = true → K e.address e.deed) x := by
  intro B m hregular
  obtain ⟨hpairs, hmarks, hpost⟩ := h B m hregular
  exact ⟨hpairs, hmarks, fun a m' hrun => ⟨hpost a m' hrun, hmarks⟩⟩

/-- A step that makes no entries. -/
theorem logs_watch {x : Run α} (h : ∀ m a m', x m = .ok a m' → P a []) : Logs K P (watch x) := by
  intro B m _
  exact ⟨.nil, fun _ he => (List.not_mem_nil he).elim, h m⟩

/-- What only composes a text and gives notice never returns. -/
theorem logs_reject {shown : List Value} {notice : Store → Notice} {f : Fault} :
    Logs K P (watch do
      Run.compose shown
      Run.notify (notice (← Run.store))
      Run.raise f) := by
  refine logs_watch fun m a m' h => ?_
  rcases Run.compose_bind_cases shown _ m with hm | hm
  · rw [hm] at h
    cases h
  · rw [hm] at h
    cases h

theorem logs_pure {a : α} (h : P a []) : Logs K P (pure a) := by
  intro B m _
  refine ⟨.nil, fun _ he => (List.not_mem_nil he).elim, fun b m' hrun => ?_⟩
  cases hrun
  exact h

theorem logs_note {d : Deed} (h : d.marks = true → K [] d) :
    Logs K (fun _ es => es = [⟨[], d⟩]) (note d) := by
  intro B m _
  refine ⟨List.pairwise_singleton _ _, fun e he => ?_, fun _ _ _ => rfl⟩
  cases List.mem_singleton.mp he
  exact h

/-- An entry that a regular log does not have. -/
theorem logs_irregular {Q : Unit → List Event → Prop} {d : Deed}
    (h : ∀ A, ¬ (⟨A, d⟩ : Event).Regular) : Logs K Q (note d) := by
  intro B m hregular
  exact (h _ (hregular ⟨[], d⟩ List.mem_cons_self)).elim

theorem Logs.within {x : Watched α} (a : Address) (h : Logs K P x) :
    Logs (fun A d => ∃ b, A = a ++ b ∧ K b d)
      (fun r es => ∃ fs, es = fs.map (Event.below a) ∧ P r fs) (within a x) := by
  intro B m hregular
  have hregular' : ∀ e ∈ x.events m, (e.below (B ++ a)).Regular := fun e he => by
    rw [← Event.below_below]
    exact hregular _ (List.mem_map_of_mem he)
  obtain ⟨hpairs, hmarks, hpost⟩ := h (B ++ a) m hregular'
  refine ⟨?_, ?_, fun r m' hrun => ⟨_, rfl, hpost r m' hrun⟩⟩
  · refine List.pairwise_map.mpr (hpairs.imp fun h heq => h ?_)
    exact List.append_cancel_left heq
  · intro e he hmark
    obtain ⟨f, hf, rfl⟩ := List.mem_map.mp he
    exact ⟨f.address, rfl, hmarks f hf hmark⟩

/-- Two steps one after the other, whose entries go together. -/
theorem Logs.bind {M : α → Address → Deed → Prop} {Q : α → β → List Event → Prop}
    {R : β → List Event → Prop} {x : Watched α} {f : α → Watched β} (hx : Logs K P x)
    (hf : ∀ a es, P a es → Logs (M a) (Q a) (f a))
    (hcross : ∀ {a es A d d'}, P a es → ⟨A, d⟩ ∈ es → K A d → M a A d' → d.GoesWith d')
    (hR : ∀ {a es b fs}, P a es → Q a b fs → R b (es ++ fs)) :
    Logs (fun A d => K A d ∨ ∃ a, M a A d) R (x >>= f) := by
  intro B m hregular
  rw [events_bind] at hregular ⊢
  obtain ⟨hpairs, hmarks, hpost⟩ := hx B m fun e he => hregular e (List.mem_append_left _ he)
  rw [run_bind_apply]
  cases hrun : x.run m with
  | error h m' =>
    rw [List.append_nil]
    exact ⟨hpairs, fun e he hmark => .inl (hmarks e he hmark), fun b m'' hb => nomatch hb⟩
  | ok a m' =>
    rw [hrun] at hregular
    have hP := hpost a m' hrun
    obtain ⟨hpairs', hmarks', hpost'⟩ :=
      hf a _ hP B m' fun e he => hregular e (List.mem_append_right _ he)
    refine ⟨List.pairwise_append.mpr ⟨hpairs, hpairs', ?_⟩, ?_,
      fun b m'' hb => hR hP (hpost' b m'' hb)⟩
    -- Of two marks at one address the first may be of `x` and the second of what follows it.
    · intro e he f hf heq
      refine Deed.goesWith_of_marks fun hmark hmark' => ?_
      exact hcross hP he (hmarks e he hmark) (heq ▸ hmarks' f hf hmark')
    · intro e he hmark
      rcases List.mem_append.mp he with he | he
      · exact .inl (hmarks e he hmark)
      · exact .inr ⟨a, hmarks' e he hmark⟩

/-- Two steps, the second of which leaves no mark. -/
theorem Logs.andThen {Q : α → β → List Event → Prop} {R : β → List Event → Prop} {x : Watched α}
    {f : α → Watched β} (hx : Logs K P x)
    (hf : ∀ a es, P a es → Logs (fun _ _ => False) (Q a) (f a))
    (hR : ∀ {a es b fs}, P a es → Q a b fs → R b (es ++ fs)) : Logs K R (x >>= f) := by
  refine (hx.bind (M := fun _ _ _ => False) hf (fun _ _ _ h => h.elim) hR).mono ?_ id
  rintro A d (h | ⟨-, h⟩)
  · exact h
  · exact h.elim

/-- A step and a result. -/
theorem Logs.andReturn {R : β → List Event → Prop} {x : Watched α} {g : α → β}
    (hx : Logs K P x) (hR : ∀ {a es}, P a es → R (g a) es) :
    Logs K R (x >>= fun a => pure (g a)) := by
  refine hx.andThen (Q := fun a b es => b = g a ∧ es = [])
    (fun a _ _ => logs_pure ⟨rfl, rfl⟩) ?_
  rintro a es _ _ ha ⟨rfl, rfl⟩
  rw [List.append_nil]
  exact hR ha

/-- A step that makes no entries, and another one. -/
theorem logs_bind {Q : β → List Event → Prop} {x : Run α} {f : α → Watched β}
    (h : ∀ m a m', x m = .ok a m' → Logs K Q (f a)) : Logs K Q (watch x >>= f) := by
  intro B m hregular
  rw [events_bind] at hregular ⊢
  rw [run_bind_apply]
  cases hrun : x m with
  | error h m' =>
    simp only [run_watch, hrun, List.append_nil]
    exact ⟨.nil, fun _ he => (List.not_mem_nil he).elim, fun b m'' hb => nomatch hb⟩
  | ok a m' =>
    simp only [run_watch, hrun] at hregular ⊢
    exact h m a m' hrun B m' hregular

/-- A step that leaves no mark, and another one that can follow any. -/
theorem Logs.silently {Q : β → List Event → Prop} {x : Watched α} {f : α → Watched β}
    (hx : Logs (fun _ _ => False) (fun _ => Balanced) x) (hf : ∀ a, Logs K Q (f a))
    (hQ : ∀ {b es fs}, Balanced es → Q b fs → Q b (es ++ fs)) : Logs K Q (x >>= f) := by
  refine (hx.bind (M := fun _ => K) (Q := fun _ => Q) (fun a _ _ => hf a)
    (fun _ _ h => h.elim) hQ).mono ?_ id
  rintro A d (h | ⟨-, h⟩)
  · exact h.elim
  · exact h

/-- An entry that leaves no mark and needs no other. -/
theorem logs_remark (d : Deed) (hmarks : d.marks = false) (h : (⟨[], d⟩ : Event).Backed [⟨[], d⟩]) :
    Logs K (fun _ => Balanced) (note d) := by
  refine (logs_note fun hd => ?_).mono id ?_
  · rw [hmarks] at hd
    cases hd
  · rintro _ _ rfl
    exact .single h

/-! ## Calls -/

/-- Entries at the root that record a value. -/
def RecordsRoot (A : Address) (d : Deed) : Prop :=
  A = [] ∧ ∃ v, d = .recorded v

/-- Entries at the root that bind a pattern. -/
def BindsRoot (A : Address) (d : Deed) : Prop :=
  A = [] ∧ ∃ scope pattern bindings, d = .bound scope pattern bindings

/-- The addresses below numbered parts, from a number on. -/
def FromIndex (i : Nat) (A : Address) : Prop :=
  ∃ (j : Nat) (b : Address), i ≤ j ∧ A = .index j :: b

/-- Recursive calls whose logs are as they should be: a walk leaves no mark at its own
address, and a call records there the value that it returns. -/
structure LogsCalls (calls : Calls) : Prop where
  walk : ∀ {e c a o}, o.output.isSome = true →
    Logs (fun A _ => A ≠ []) (fun _ => Balanced) (calls.walk e c a o)
  apply : ∀ {f v o}, o.output.isSome = true →
    Logs (fun _ _ => True) (fun r es => Balanced es ∧ ReturnedAtRoot f v r.1 es)
      (calls.apply f v o)

variable {ctx : Context} {calls : Calls} {o : Overlays Trace} {proc v : Value} {a : Address}
variable {e : Trace} {c : Scope}

theorem logs_recordCall (inputs : List Value) (ho : o.output.isSome = true) :
    Logs RecordsRoot (fun _ es => es = [⟨[], .recorded v⟩, ⟨[], .returned proc inputs v⟩])
      (recordCall proc inputs o v) := by
  refine logs_bind fun _ _ _ _ => ?_
  rw [conclude, if_pos ho]
  refine (logs_note fun _ => ⟨rfl, v, rfl⟩).andThen (Q := fun _ _ es => es = [_])
    (fun _ _ _ => logs_note Bool.noConfusion) ?_
  rintro _ _ _ _ rfl rfl
  rfl

/-- The log of a call of a procedure with inputs. -/
def CallLog (proc : Value) (inputs : List Value) (v : Value) (es : List Event) : Prop :=
  Balanced es ∧ ⟨[], .returned proc inputs v⟩ ∈ es

theorem CallLog.prepend {inputs : List Value} {es fs : List Event} (h : Balanced es)
    (h' : CallLog proc inputs v fs) : CallLog proc inputs v (es ++ fs) :=
  ⟨h.append h'.1, List.mem_append_right _ h'.2⟩

/-- Recording the value of a call and returning it. -/
theorem logs_conclusion (proc : Value) {r : Value × β} (hproc : proc ≠ .special .apply)
    (inputs : List Value) (ho : o.output.isSome = true) :
    Logs RecordsRoot (fun q => CallLog proc inputs q.1)
      (recordCall proc inputs o r.1 >>= fun _ => pure r) := by
  refine (logs_recordCall inputs ho).andReturn ?_
  rintro _ _ rfl
  exact ⟨.call hproc _, by simp⟩

theorem logs_noteClash : Logs (fun _ _ => False) (fun _ => Balanced) (noteClash o) := by
  refine logs_bind fun _ clash _ _ => ?_
  cases clash with
  | false => exact logs_pure .nil
  | true => exact logs_remark .clashed rfl trivial

theorem logs_rate (score : Float) :
    Logs (fun _ _ => False) (fun _ => Balanced) (rate score) :=
  (logs_remark (.rated score) rfl trivial).andReturn id

theorem logs_addScore (total : Float) (score : Value) :
    Logs (fun _ _ => False) (fun _ => Balanced) (addScore total score) :=
  logs_bind fun _ sum _ _ => logs_rate sum

theorem logs_settle (proc : Value) {value : Value} (hproc : proc ≠ .special .apply)
    (inputs : List Value) (score : Float) (ho : o.output.isSome = true) :
    Logs RecordsRoot (fun r => CallLog proc inputs r.1)
      (settle ctx proc inputs o value score) :=
  logs_noteClash.silently (fun _ => logs_bind fun _ _ _ _ => logs_conclusion proc hproc inputs ho)
    CallLog.prepend

theorem logs_applyRandom (d : Distribution) (inputs : List Value) (ho : o.output.isSome = true) :
    Logs RecordsRoot (fun r => CallLog (.special (.random d)) inputs r.1)
      (applyRandom ctx d inputs o) :=
  logs_noteClash.silently (fun _ => logs_bind fun _ r _ _ =>
    (logs_remark (.rated r.2) rfl trivial).silently
      (fun _ => logs_conclusion (.special (.random d)) nofun inputs ho) CallLog.prepend)
    CallLog.prepend

/-- Going below overlays with an output gives overlays with an output. -/
theorem below_isSome {m m' : Machine} {p : Overlays Trace} (ho : o.output.isSome = true)
    (h : Run.edit (o.below a) m = .ok p m') : p.output.isSome = true := by
  obtain ⟨t, ht⟩ := Option.isSome_iff_exists.mp ho
  cases hreach : t.reach a m.store with
  | ok u s =>
    rw [Run.edit_ok (Overlays.below_reach ht hreach)] at h
    cases h
    rfl
  | error f s =>
    rw [Run.edit_error (Overlays.below_fails ht hreach)] at h
    cases h

theorem logs_bindPattern (pattern : Trace) :
    Logs BindsRoot (fun _ es => ∃ bindings, es = [⟨[], .bound c pattern bindings⟩])
      (bindPattern ctx c pattern v) := by
  refine logs_bind fun _ _ _ _ => logs_bind fun _ m _ _ =>
    (logs_note fun _ => ⟨rfl, _, _, _, rfl⟩).mono id ?_
  rintro _ _ rfl
  exact ⟨_, rfl⟩

theorem logs_openFrame (source : Trace) :
    Logs (fun _ _ => False) (fun _ => Balanced) (openFrame source c) := by
  exact logs_bind fun _ frame _ _ => (logs_remark (.opened frame source) rfl trivial).andReturn id

theorem logs_openClosure (source : Trace) :
    Logs BindsRoot (fun _ => Balanced) (openClosure ctx source c v) := by
  refine ((logs_openFrame source).bind (M := fun _ => BindsRoot) (Q := fun _ _ => Balanced) ?_
    (fun _ _ h => h.elim) fun h h' => h.append h').mono ?_ id
  · intro frame _ _
    refine logs_bind fun _ pattern _ _ => ?_
    refine (logs_bindPattern pattern).andThen (Q := fun _ _ => Balanced) (fun _ _ _ => ?_) ?_
    · exact logs_bind fun _ body _ _ => logs_pure .nil
    · rintro _ _ _ _ ⟨bindings, rfl⟩ h
      exact Balanced.append (.single trivial) h
  · rintro A d (h | ⟨-, h⟩)
    · exact h.elim
    · exact h

theorem not_fromIndex_succ {i : Nat} (b : Address) : ¬ FromIndex (i + 1) ([.index i] ++ b) := by
  rintro ⟨j, b', hj, heq⟩
  have hij : (i : Int) = j := Key.index.inj (List.cons.inj heq).1
  omega

section Calls

variable (hcalls : LogsCalls calls)
include hcalls

theorem logs_mapItems (ho : o.output.isSome = true) (i : Nat) (total : Float) (vs : List Value) :
    Logs (fun A _ => FromIndex i A) (fun _ => Balanced) (mapItems calls proc o i total vs) := by
  induction vs generalizing i total with
  | nil => exact logs_pure .nil
  | cons v vs ih =>
    refine logs_bind fun _ below _ hbelow => ?_
    refine (((hcalls.apply (below_isSome ho hbelow)).within [.index i]).bind
      (M := fun _ A _ => FromIndex (i + 1) A) (Q := fun _ _ => Balanced) (fun r _ _ => ?_) ?_
      ?_).mono ?_ id
    · exact (logs_addScore total r.2).silently (fun sum => (ih (i + 1) sum).andReturn id)
        Balanced.append
    · rintro _ _ _ _ _ - - ⟨b, rfl, -⟩ h
      exact (not_fromIndex_succ b h).elim
    · rintro _ _ _ _ ⟨fs, rfl, h, -⟩ h'
      exact (h.below _).append h'
    · rintro A d (⟨b, rfl, -⟩ | ⟨-, j, b, hj, rfl⟩)
      · exact ⟨i, b, Nat.le_refl i, rfl⟩
      · exact ⟨j, b, Nat.le_of_succ_le hj, rfl⟩

theorem logs_applySpecial (s : Special) (inputs : List Value) (ho : o.output.isSome = true) :
    Logs (fun _ _ => True) (fun r => CallLog (.special s) inputs r.1)
      (applySpecial ctx calls s inputs o) := by
  have hraise {f : Fault} : Logs (fun _ _ => True) (fun (r : Value × Value) =>
      CallLog (.special s) inputs r.1) (watch (Run.raise f)) :=
    logs_watch fun _ _ _ h => nomatch h
  cases s with
  | apply =>
    match inputs with
    | [proc, args] =>
      refine (hcalls.apply ho).andThen (Q := fun r q es => q = r ∧
        es = [⟨[], .returned (.special .apply) [proc, args] r.1⟩]) (fun r _ _ => ?_) ?_
      · refine (logs_note Bool.noConfusion).andReturn ?_
        rintro _ _ rfl
        exact ⟨rfl, rfl⟩
      · rintro r es _ _ ⟨hbalanced, hroot⟩ ⟨rfl, rfl⟩
        exact ⟨hbalanced.passedOn hroot, by simp⟩
    | [] | [_] | _ :: _ :: _ :: _ => exact hraise
  | map =>
    match inputs with
    | [proc, sequence] =>
      cases hitems : sequence.items? with
      | none =>
        simp only [applySpecial, hitems]
        exact hraise
      | some items =>
        simp only [applySpecial, hitems]
        refine ((logs_mapItems hcalls ho 0 0.0 items).bind (M := fun _ => RecordsRoot)
          (Q := fun _ r => CallLog (.special .map) [proc, sequence] r.1) (fun r _ _ => ?_) ?_
          CallLog.prepend).mono (fun _ => trivial) id
        · exact logs_conclusion (.special .map) (r := (_, Value.float r.2)) (by rintro ⟨⟩)
            [proc, sequence] ho
        · rintro _ _ _ _ _ - - ⟨j, b, -, rfl⟩ ⟨h, -⟩
          cases h
    | [] | [_] | _ :: _ :: _ :: _ => exact hraise
  | random d =>
    refine Logs.mono (K := RecordsRoot) ?_ (fun _ => trivial) id
    exact (logs_applyRandom d inputs ho).andReturn id
  | scored =>
    rcases inputs with _ | ⟨v, _ | ⟨score, _⟩⟩
    · exact hraise
    · exact hraise
    -- A score that is given from outside is irregular, and nothing is said of such a run.
    · refine (logs_irregular (Q := fun _ _ => False) (K := fun _ _ => True) ?_).andThen
        (Q := fun _ _ _ => False) (fun _ _ h => h.elim) (fun h => h.elim)
      exact fun A h => h rfl

theorem logs_evalFrom (ho : o.output.isSome = true) :
    Logs (fun A _ => A ≠ []) (fun _ => Balanced) (evalFrom calls e c o) :=
  logs_bind fun _ _ _ _ => hcalls.walk ho

/-- A closure binds its pattern at the root, and its body leaves marks below it only. -/
theorem logs_applyClosure (source : Trace) (ho : o.output.isSome = true) :
    Logs (fun A d => A = [] → ∃ scope pattern bindings, d = .bound scope pattern bindings)
      (fun _ => Balanced) (applyClosure ctx calls source c v o) := by
  refine ((logs_openClosure source).bind (M := fun _ A _ => A ≠ []) (Q := fun _ _ => Balanced)
    (fun _ _ _ => logs_evalFrom hcalls ho) ?_ fun h h' => h.append h').mono ?_ id
  · rintro _ _ _ _ _ - - ⟨rfl, -⟩ h
    exact (h rfl).elim
  · rintro A d (⟨-, h⟩ | ⟨-, h⟩) hA
    · exact h
    · exact (h hA).elim

/-- What procedures do with inputs that were checked. -/
theorem logs_dispatch (items : List Value) (ho : o.output.isSome = true) :
    Logs (fun _ _ => True) (fun r => CallLog proc items r.1)
      (match proc with
      | .special s => applySpecial ctx calls s items o
      | .closure _ source scope _ => do
        let (v, score) ← applyClosure ctx calls source scope v o
        let (v, score) ← settle ctx proc items o v score
        return (v, .float score)
      | .builtin b => do
        let (v, score) ← applyBuiltin ctx b items o
        return (v, .float score)
      | _ => rejectProcedure proc) := by
  have hreject : Logs (fun _ _ => True) (fun r => CallLog proc items r.1)
      (rejectProcedure proc) := logs_reject
  cases proc with
  | special s => exact logs_applySpecial hcalls s items ho
  | closure serial source scope name =>
    refine ((logs_applyClosure hcalls source ho).bind (M := fun _ => RecordsRoot)
      (Q := fun _ r => CallLog (.closure serial source scope name) items r.1)
      (fun r _ _ => (logs_settle (.closure serial source scope name) nofun items r.2 ho).andReturn id) ?_
      CallLog.prepend).mono (fun _ => trivial) id
    -- At its root a body only binds its inputs, which goes with any record.
    rintro _ _ _ _ _ - - hbound ⟨rfl, v, rfl⟩
    obtain ⟨scope, pattern, bindings, rfl⟩ := hbound rfl
    exact trivial
  | builtin b =>
    refine Logs.mono (K := RecordsRoot) ?_ (fun _ => trivial) id
    exact (logs_bind fun _ _ _ _ => logs_settle (.builtin b) nofun items 0.0 ho).andReturn id
  | _ => exact hreject

theorem logs_applyWith (ho : o.output.isSome = true) :
    Logs (fun _ _ => True) (fun r es => Balanced es ∧ ReturnedAtRoot proc v r.1 es)
      (applyWith ctx calls proc v o) := by
  refine ((logs_note (K := fun _ _ => False) (d := .called) Bool.noConfusion).bind
    (M := fun _ _ _ => True) (Q := fun _ r es => Balanced es ∧ ReturnedAtRoot proc v r.1 es)
    (fun _ _ _ => ?_) (fun _ _ h => h.elim) ?_).mono (fun _ => trivial) id
  · refine logs_bind fun m items _ hcheck => logs_bind fun _ _ _ _ => ?_
    have hitems : v.items? = some items := by
      unfold Evaluator.checkInputs at hcheck
      cases h : v.items? with
      | none =>
        rw [h] at hcheck
        cases hcheck
      | some _ =>
        rw [h] at hcheck
        cases hcheck
        rfl
    exact (logs_dispatch hcalls items ho).mono id fun h => ⟨h.1, items, hitems, h.2⟩
  · rintro _ _ r fs rfl ⟨hbalanced, items, hitems, hr⟩
    exact ⟨hbalanced.calledFirst hr, items, hitems, List.mem_cons_of_mem _ hr⟩

/-! ## Forms -/

/-- The marks of a part: below its key, and at its key only the value that it gave. -/
theorem logs_descend (key : Key) (ho : o.output.isSome = true) :
    Logs (fun A d => ∃ b, A = key :: b ∧ (b = [] → ∃ v, d = .gave v))
      (fun r es => Balanced es ∧ ∀ v, ⟨[key], .gave v⟩ ∈ es → v = r.1)
      (descend calls e c a key o) := by
  have hgave (r : Value × Float) : Logs (fun A d => A = [] ∧ d = .gave r.1)
      (fun q es => q = r ∧ es = [⟨[], .gave r.1⟩]) (note (.gave r.1) >>= fun _ => pure r) := by
    refine (logs_note fun _ => ⟨rfl, rfl⟩).andReturn ?_
    rintro _ _ rfl
    exact ⟨rfl, rfl⟩
  have hinner := (hcalls.walk (e := e) (c := c) (a := a ++ [key]) ho).withMarks.bind
    (fun r _ _ => hgave r) (R := fun r es => Balanced es ∧ ∀ v, ⟨[], .gave v⟩ ∈ es → v = r.1)
    (by
      -- A walk leaves no mark at its root, so the only value given there is its own.
      rintro _ _ _ _ _ - - hne ⟨rfl, -⟩
      exact (hne rfl).elim)
    (by
      rintro r es _ _ ⟨hbalanced, hmarks⟩ ⟨rfl, rfl⟩
      refine ⟨hbalanced.append (.single trivial), fun v hmem => ?_⟩
      rcases List.mem_append.mp hmem with hmem | hmem
      · exact (hmarks _ hmem rfl rfl).elim
      · cases List.mem_singleton.mp hmem
        rfl)
  refine (hinner.within [key]).mono ?_ ?_
  · rintro A d ⟨b, rfl, h⟩
    refine ⟨b, rfl, ?_⟩
    rintro rfl
    rcases h with h | ⟨r, -, rfl⟩
    · exact (h rfl).elim
    · exact ⟨_, rfl⟩
  · rintro r es ⟨fs, rfl, hbalanced, hgave⟩
    refine ⟨hbalanced.below _, fun v hmem => ?_⟩
    obtain ⟨⟨B, d⟩, hB, heq⟩ := List.mem_map.mp hmem
    simp only [Event.below, Event.mk.injEq, List.cons_append, List.nil_append, List.cons.injEq,
      true_and] at heq
    obtain ⟨rfl, rfl⟩ := heq
    exact hgave v hB

theorem logs_walkParts (ho : o.output.isSome = true) (left i : Nat) (total : Float) :
    Logs (fun A _ => FromIndex i A) (fun _ => Balanced)
      (walkParts calls e c a o left i total) := by
  induction left generalizing i total with
  | zero => exact logs_pure .nil
  | succ left ih =>
    refine logs_bind fun _ sub _ _ => ?_
    refine ((logs_descend hcalls (.index i) ho).bind (M := fun _ A _ => FromIndex (i + 1) A)
      (Q := fun _ _ => Balanced) (fun r _ _ => (logs_rate _).silently
        (fun sum => (ih (i + 1) sum).andReturn id) Balanced.append) ?_
      fun h h' => h.1.append h').mono ?_ id
    · rintro _ _ _ _ _ - - ⟨b, rfl, -⟩ h
      exact (not_fromIndex_succ b h).elim
    · rintro A d (⟨b, rfl, -⟩ | ⟨-, j, b, hj, rfl⟩)
      · exact ⟨i, b, Nat.le_refl i, rfl⟩
      · exact ⟨j, b, Nat.le_of_succ_le hj, rfl⟩

omit hcalls in
/-- The key of a call in a regular log is a name. -/
theorem logs_invoked (key : Key) : Logs (fun _ _ => False)
    (fun _ es => es = [⟨[key], .invoked⟩] ∧ ∃ name, key = .name name)
    (within [key] (note .invoked)) := by
  intro B m hregular
  refine ⟨List.pairwise_singleton _ _, fun e he hmark => ?_, fun _ _ _ => ⟨rfl, ?_⟩⟩
  · cases List.mem_singleton.mp he
    cases hmark
  · obtain ⟨name, hname⟩ := hregular ⟨[key], .invoked⟩ List.mem_cons_self
    refine ⟨name, ?_⟩
    simpa [Event.below] using hname

omit hcalls in
theorem logs_invoke (ho : o.output.isSome = true) :
    Logs (fun _ _ => False) (fun r es => es = [⟨[r.1], .invoked⟩] ∧ (∃ name, r.1 = .name name) ∧
      r.2.output.isSome = true) (invoke e a proc o) := by
  rw [invoke, callKey, part, bind_assoc]
  refine logs_bind fun _ operator _ _ => logs_bind fun _ key _ _ => logs_bind fun _ _ _ _ => ?_
  refine (logs_invoked key).andThen (Q := fun _ r es => r.1 = key ∧ r.2.output.isSome = true ∧ es = [])
    (fun _ _ _ => logs_bind fun _ below _ hbelow => logs_pure ⟨rfl, below_isSome ho hbelow, rfl⟩) ?_
  rintro _ _ ⟨key, below⟩ _ ⟨rfl, hname⟩ ⟨rfl, hbelow, rfl⟩
  exact ⟨rfl, hname, hbelow⟩

/-- The entries of a call, at an address that starts with a name. -/
theorem logs_call (ho : o.output.isSome = true) (total : Float) (vs : List Value) :
    Logs (fun A _ => ∃ name b, A = .name name :: b) (fun _ => Balanced) (do
      let (key, below) ← invoke e a (vs.headD .null) o
      let (v, score) ← within [key] (calls.apply (vs.headD .null) (.list vs.tail) below)
      let total ← addScore total score
      return (v, total)) := by
  refine ((logs_invoke ho).bind (M := fun _ A _ => ∃ name b, A = .name name :: b)
    (Q := fun _ _ => Balanced) ?_ (fun _ _ h => h.elim) ?_).mono ?_ id
  · rintro ⟨key, below⟩ _ ⟨-, ⟨name, rfl⟩, hbelow⟩
    refine (((hcalls.apply hbelow).within [.name name]).andThen (Q := fun _ _ => Balanced)
      (fun r _ _ => (logs_addScore total r.2).andReturn id) ?_).mono ?_ id
    · rintro r es _ _ ⟨fs, rfl, hbalanced, -⟩ h
      exact (hbalanced.below _).append h
    · rintro A d ⟨b, rfl, -⟩
      exact ⟨name, b, rfl⟩
  · rintro ⟨key, below⟩ _ _ fs ⟨rfl, -, -⟩ hbalanced
    exact Balanced.append (.single trivial) hbalanced
  · rintro A d (h | ⟨-, h⟩)
    · exact h.elim
    · exact h

theorem logs_walkApplication (ho : o.output.isSome = true) :
    Logs (fun A _ => A ≠ []) (fun _ => Balanced) (walkApplication calls e c a o) := by
  refine logs_bind fun _ count _ _ => ?_
  refine ((logs_walkParts hcalls ho count 0 0.0).bind
    (M := fun _ A _ => ∃ name b, A = .name name :: b) (Q := fun _ _ => Balanced)
    (fun r _ _ => logs_call hcalls ho r.2 r.1) ?_ fun h h' => h.append h').mono ?_ id
  · rintro _ _ _ _ _ - - ⟨j, b, -, rfl⟩ ⟨name, b', heq⟩
    cases heq
  · rintro A d (⟨j, b, -, rfl⟩ | ⟨-, name, b, rfl⟩)
    · exact List.cons_ne_nil _ _
    · exact List.cons_ne_nil _ _

theorem logs_walkConditional (ho : o.output.isSome = true) :
    Logs (fun A _ => A ≠ []) (fun _ => Balanced) (walkConditional calls e c a o) := by
  refine logs_bind fun _ predicate _ _ => ?_
  refine ((logs_descend hcalls (.name "predicate") ho).bind
    (M := fun r A _ => ∃ b, A = .name (if r.1.isTruthy then "then" else "else") :: b)
    (Q := fun _ _ => Balanced) (fun r _ _ => ?_) ?_ fun h h' => h.1.append h').mono ?_ id
  · refine logs_bind fun _ _ _ _ => logs_bind fun _ branch _ _ =>
      ((logs_descend hcalls _ ho).andThen (Q := fun _ _ => Balanced)
        (fun _ _ _ => (logs_rate _).andReturn id) fun h h' => h.1.append h').mono ?_ id
    rintro A d ⟨b, rfl, -⟩
    exact ⟨b, rfl⟩
  · rintro r _ _ _ _ - - ⟨b, rfl, -⟩ ⟨b', heq⟩
    cases hp : r.1.isTruthy <;> simp [hp] at heq
  · rintro A d (⟨b, rfl, -⟩ | ⟨-, b, rfl⟩)
    · exact List.cons_ne_nil _ _
    · exact List.cons_ne_nil _ _

theorem logs_walkBlock (ho : o.output.isSome = true) :
    Logs (fun A _ => A ≠ []) (fun _ => Balanced) (walkBlock calls e c a o) := by
  refine ((logs_openFrame e).bind (M := fun _ A _ => FromIndex 0 A) (Q := fun _ _ => Balanced)
    (fun frame _ _ => ?_) (fun _ _ h => h.elim) fun h h' => h.append h').mono ?_ id
  · exact logs_bind fun _ count _ _ => (logs_walkParts hcalls ho count 0 0.0).andReturn id
  · rintro A d (h | ⟨-, j, b, -, rfl⟩)
    · exact h.elim
    · exact List.cons_ne_nil _ _

omit hcalls in
/-- The marks of a definition: its pattern is bound and its value is recorded at its key. -/
theorem logs_define (key : Key) (pattern : Trace) (ho : o.output.isSome = true) :
    Logs (fun A d => A = [key] ∧ (d = .recorded v ∨
        ∃ scope pattern bindings, d = .bound scope pattern bindings))
      (fun _ => Balanced) (define ctx c a key o pattern v) := by
  have hrecord : Logs (fun A d => A = [] ∧ d = .recorded v)
      (fun _ es => if v.isTagAddress then es = [] else es = [⟨[], .recorded v⟩])
      (recordDefinition (a ++ [key]) o v) := by
    obtain ⟨t, ht⟩ := Option.isSome_iff_exists.mp ho
    rw [recordDefinition, ht]
    dsimp only
    split
    · exact logs_pure rfl
    · exact logs_bind fun _ _ _ _ => logs_note fun _ => ⟨rfl, rfl⟩
  have hinner := (logs_bindPattern pattern : Logs BindsRoot _ (bindPattern ctx c pattern v)).bind
    (Q := fun _ _ es => ∃ fs, es = ⟨[], .defined v⟩ :: fs ∧
      if v.isTagAddress then fs = [] else fs = [⟨[], .recorded v⟩])
    (R := fun _ => Balanced)
    (fun _ _ _ => (logs_note (d := .defined v) (K := fun _ _ => False) Bool.noConfusion).bind
      (M := fun _ A d => A = [] ∧ d = .recorded v) (fun _ _ _ => hrecord) (fun _ _ h => h.elim)
      (by
        rintro _ _ _ fs rfl h
        exact ⟨fs, rfl, h⟩))
    (by
      rintro _ _ _ _ _ - - ⟨-, scope, pattern, bindings, rfl⟩ h
      rcases h with h | ⟨-, -, rfl⟩
      · exact h.elim
      · exact trivial)
    (by
      rintro _ _ _ _ ⟨bindings, rfl⟩ ⟨fs, rfl, hfs⟩
      cases htag : v.isTagAddress with
      | true =>
        rw [htag, if_pos rfl] at hfs
        rw [hfs]
        exact .tagDefinition htag
      | false =>
        rw [htag, if_neg Bool.false_ne_true] at hfs
        rw [hfs]
        exact .definition htag)
  refine (hinner.within [key]).mono ?_ ?_
  · rintro A d ⟨b, rfl, ⟨rfl, h⟩ | ⟨-, h | ⟨-, rfl, rfl⟩⟩⟩
    · exact ⟨rfl, .inr h⟩
    · exact h.elim
    · exact ⟨rfl, .inl rfl⟩
  · rintro _ _ ⟨fs, rfl, h⟩
    exact h.below _

theorem logs_walkDefinition (ho : o.output.isSome = true) :
    Logs (fun A _ => A ≠ []) (fun _ => Balanced) (walkDefinition ctx calls e c a o) := by
  have hopen : Logs (fun _ _ => False) (fun _ es => es = []) (openDefinition e) :=
    logs_bind fun _ _ _ _ => logs_bind fun _ _ _ _ => logs_bind fun _ _ _ _ => logs_pure rfl
  refine (hopen.bind (M := fun _ A _ => A ≠ []) (Q := fun _ _ => Balanced) ?_
    (fun _ _ h => h.elim) ?_).mono ?_ id
  · rintro ⟨pattern, key, rhs⟩ _ _
    refine ((logs_descend hcalls key ho).bind (M := fun r A d => A = [key] ∧ (d = .recorded r.1 ∨
      ∃ scope pattern bindings, d = .bound scope pattern bindings)) (Q := fun _ _ => Balanced)
      (fun r _ _ => (logs_define key pattern ho).andReturn id) ?_ fun h h' => h.1.append h').mono ?_ id
    · rintro r es _ d d' ⟨-, hgave⟩ hmem ⟨b, rfl, hb⟩ ⟨heq, hd'⟩
      obtain ⟨v, rfl⟩ := hb (List.cons.inj heq).2
      rcases hd' with rfl | ⟨scope, pattern, bindings, rfl⟩
      · rw [heq] at hmem
        exact hgave v hmem
      · exact trivial
    · rintro A d (⟨b, rfl, -⟩ | ⟨-, rfl, -⟩)
      · exact List.cons_ne_nil _ _
      · exact List.cons_ne_nil _ _
  · rintro _ _ _ _ rfl h
    exact h
  · rintro A d (h | ⟨-, h⟩)
    · exact h.elim
    · exact h

theorem logs_walkWithAddress (ho : o.output.isSome = true) :
    Logs (fun A _ => A ≠ []) (fun _ => Balanced) (walkWithAddress calls e c a o) := by
  refine logs_bind fun _ tag _ _ => ?_
  refine ((logs_descend hcalls (.name "tag") ho).andThen (Q := fun _ _ => Balanced)
    (fun r _ _ => ?_) fun h h' => h.1.append h').mono ?_ id
  · -- Going on under other overlays is not regular, so nothing follows.
    have hrelocate : Logs (fun _ _ => False) (fun _ _ => False) (relocate e r.1) :=
      (logs_irregular (d := .relocated) (Q := fun _ _ => False) fun A h => h).andThen
        (Q := fun _ _ _ => False) (fun _ _ h => h.elim) (fun h => h.elim)
    exact hrelocate.andThen (Q := fun _ _ => Balanced) (fun _ _ h => h.elim) (fun h => h.elim)
  · rintro A d ⟨b, rfl, -⟩
    exact List.cons_ne_nil _ _

theorem logs_walkWith (ho : o.output.isSome = true) :
    Logs (fun A _ => A ≠ []) (fun _ => Balanced) (walkWith ctx calls e c a o) := by
  refine logs_bind fun _ kind _ _ => ?_
  cases kind with
  | none => exact logs_reject
  | some kind =>
    have hkind : Logs (fun A _ => A ≠ []) (fun _ => Balanced)
        (walkKind ctx calls kind e c a o) := by
      have hsilent {x : Run (Value × Float)} : Logs (fun A _ => A ≠ []) (fun _ => Balanced)
          (watch x) :=
        logs_watch fun _ _ _ _ => .nil
      cases kind with
      | application => exact logs_walkApplication hcalls ho
      | conditional => exact logs_walkConditional hcalls ho
      | block => exact logs_walkBlock hcalls ho
      | definition => exact logs_walkDefinition hcalls ho
      | withAddress => exact logs_walkWithAddress hcalls ho
      | reference | literal | gen | this => exact hsilent
    refine hkind.andThen (Q := fun _ _ es => es = [])
      (fun _ _ _ => logs_bind fun _ _ _ _ => logs_pure rfl) ?_
    rintro _ _ _ _ h rfl
    rw [List.append_nil]
    exact h

end Calls

/-- The recursive calls to any depth have logs as they should be. -/
theorem logsCalls (ctx : Context) (depth : Nat) : LogsCalls (callsAt ctx depth) := by
  induction depth with
  | zero =>
    have hdeep {α : Type} {K : Address → Deed → Prop} {P : α → List Event → Prop} :
        Logs K P (watch (throw .tooDeep)) :=
      logs_watch fun _ _ _ h => nomatch h
    constructor
    · intro e c a o _
      simp only [callsAt, walkAt]
      exact hdeep
    · intro f v o _
      simp only [callsAt, applyAt]
      exact hdeep
  | succ depth ih =>
    constructor
    · intro e c a o ho
      simp only [callsAt, walkAt]
      exact logs_walkWith ih ho
    · intro f v o ho
      simp only [callsAt, applyAt]
      exact logs_applyWith ih ho

/-! ## Logs from the start -/

theorem run_overlays {intervene target : Option Trace} {t : Trace} {m : Machine}
    (h : m.store.isWritable t = true) : (overlays intervene target (.trace t)).run m =
      .ok { intervene, target, output := some t } m := by
  show Run.ofExcept (Evaluator.withOutput m.store intervene target _) m = _
  simp only [Evaluator.withOutput, Evaluator.checkOutput, h, if_true]
  rfl

theorem overlays_isSome {intervene target : Option Trace} {t : Trace} {m m' : Machine}
    (h : (overlays intervene target (.trace t)).run m = .ok o m') : o.output.isSome = true := by
  have hrun : Run.ofExcept (Evaluator.withOutput m.store intervene target (.trace t)) m =
      .ok o m' := h
  simp only [Evaluator.withOutput] at hrun
  cases hcheck : Evaluator.checkOutput m.store (some t) with
  | error f =>
    rw [hcheck] at hrun
    cases hrun
  | ok _ =>
    rw [hcheck] at hrun
    cases hrun
    rfl

theorem logs_eval (ctx : Context) (exp : Value) (scope : Scope) (intervene target : Option Trace)
    (t : Trace) : Logs (fun A _ => A ≠ []) (fun _ => Balanced)
      (eval ctx exp scope intervene target (.trace t)) := by
  refine logs_bind fun m o m' ho => ?_
  cases exp with
  | trace exp => exact (logsCalls ctx Evaluator.depthLimit).walk (overlays_isSome ho)
  | _ => exact logs_reject

theorem logs_apply (ctx : Context) (proc inputs : Value) (intervene target : Option Trace)
    (t : Trace) : Logs (fun _ _ => True) (fun r es => Balanced es ∧ ReturnedAtRoot proc inputs r.1 es)
      (apply ctx proc inputs intervene target (.trace t)) := by
  refine logs_bind fun _ _ _ _ => logs_bind fun m o m' ho => ?_
  exact (logsCalls ctx Evaluator.depthLimit).apply (overlays_isSome ho)

end Watched
end ProbTrace
