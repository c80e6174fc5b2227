import Mathlib.Data.List.Forall2
import ProbTrace.Proofs.Failure

/-!
# Likeness of values

Two runs of one program often give values that are the same but for the identity of
closures and captured tags, and a property of all the values of one run relates each
value to itself.  Both are likenesses: values with the same structure, whose closures
and tags are related as the likeness says, and whose traces and special procedures are
among those it admits.

No procedure looks into a closure, a tag or a trace.  Everything else that a program
can ask of a value has the same answer for values that are alike.
-/

namespace ProbTrace

/-- Two optional values that are related are both missing or both there. -/
theorem rel_cases {α β : Type} {R : α → β → Prop} {x : Option α} {y : Option β} (h : Option.Rel R x y) :
    (x = none ∧ y = none) ∨ ∃ a b, x = some a ∧ y = some b ∧ R a b := by
  cases h with
  | none => exact .inl ⟨rfl, rfl⟩
  | some hab => exact .inr ⟨_, _, rfl, rfl, hab⟩

/-- How the closures and tags of two runs correspond, and which traces and special
procedures may occur.  Corresponding closures have one source and one name.  Results that
are not numbers have the same serial numbers, unless it is said how those correspond. -/
structure Likeness where
  trace : Trace → Prop
  tag : Nat → Overlays Trace → Nat → Overlays Trace → Prop
  closure : Trace → Value → Nat → Scope → Nat → Scope → Prop
  special : Special → Prop
  undefined : Nat → Nat → Prop := Eq

/-- The same, without tags. -/
def Likeness.untagged (L : Likeness) : Likeness :=
  { L with tag := fun _ _ _ _ => False }

/-- The same, without closures and tags. -/
def Likeness.inert (L : Likeness) : Likeness :=
  { L.untagged with closure := fun _ _ _ _ _ _ => False }

namespace Value

/-- Values with the same structure, up to corresponding closures and tags. -/
inductive Alike (L : Likeness) : Value → Value → Prop
  | null : Alike L null null
  | bool (b : Bool) : Alike L (bool b) (bool b)
  | int (i : Int) : Alike L (int i) (int i)
  | float (x : Float) : Alike L (float x) (float x)
  | undefined {i j : Nat} : L.undefined i j → Alike L (undefined i) (undefined j)
  | text (s : String) : Alike L (text s) (text s)
  | symbol (s : String) : Alike L (symbol s) (symbol s)
  | list {vs ws : List Value} (size : vs.length = ws.length)
      (items : ∀ {v w}, (v, w) ∈ vs.zip ws → Alike L v w) : Alike L (list vs) (list ws)
  | tuple {vs ws : List Value} (size : vs.length = ws.length)
      (items : ∀ {v w}, (v, w) ∈ vs.zip ws → Alike L v w) : Alike L (tuple vs) (tuple ws)
  | quoted {v w : Value} : Alike L v w → Alike L (quoted v) (quoted w)
  | brackets {vs ws : List Value} (size : vs.length = ws.length)
      (items : ∀ {v w}, (v, w) ∈ vs.zip ws → Alike L v w) : Alike L (brackets vs) (brackets ws)
  | trace {t : Trace} : L.trace t → Alike L (trace t) (trace t)
  | tag {i : Nat} {o : Overlays Trace} {j : Nat} {p : Overlays Trace} :
      L.tag i o j p → Alike L (tag i o) (tag j p)
  | closure {source : Trace} {name : Value} {i : Nat} {c : Scope} {j : Nat} {d : Scope} :
      L.closure source name i c j d → Alike L (closure i source c name) (closure j source d name)
  | builtin (b : Builtin) : Alike L (builtin b) (builtin b)
  | special {s : Special} : L.special s → Alike L (special s) (special s)

end Value

/-- Sequences that are alike item by item. -/
abbrev ItemsAlike (L : Likeness) : List Value → List Value → Prop :=
  List.Forall₂ (Value.Alike L)

namespace Value
namespace Alike

variable {L : Likeness} {v w : Value} {vs ws : List Value}

theorem ofList (h : ItemsAlike L vs ws) : Alike L (.list vs) (.list ws) :=
  .list h.length_eq (List.forall₂_iff_zip.mp h).2

theorem ofTuple (h : ItemsAlike L vs ws) : Alike L (.tuple vs) (.tuple ws) :=
  .tuple h.length_eq (List.forall₂_iff_zip.mp h).2

theorem ofKey (k : Key) : Alike L k.toValue k.toValue := by
  cases k with
  | index i => exact .int i
  | name s => exact .text s
  | symbol s => exact .symbol s

theorem ofKeys (ks : List Key) : ItemsAlike L (ks.map Key.toValue) (ks.map Key.toValue) := by
  refine List.forall₂_same.mpr fun v hv => ?_
  obtain ⟨k, -, rfl⟩ := List.mem_map.mp hv
  exact .ofKey k

theorem ofAddress (a : Address) : Alike L a.toValue a.toValue :=
  ofTuple (ofKeys a)

/-- A likeness that relates only what another one relates is finer. -/
theorem mono {M : Likeness}
    (htrace : ∀ t, L.trace t → M.trace t)
    (htag : ∀ i o j p, L.tag i o j p → M.tag i o j p)
    (hclosure : ∀ source name i c j d,
      L.closure source name i c j d → M.closure source name i c j d)
    (hspecial : ∀ s, L.special s → M.special s)
    (hundefined : ∀ i j, L.undefined i j → M.undefined i j)
    (h : Alike L v w) : Alike M v w := by
  induction h with
  | null => exact .null
  | bool b => exact .bool b
  | int i => exact .int i
  | float x => exact .float x
  | undefined h => exact .undefined (hundefined _ _ h)
  | text s => exact .text s
  | symbol s => exact .symbol s
  | list size _ ih => exact .list size ih
  | tuple size _ ih => exact .tuple size ih
  | quoted _ ih => exact .quoted ih
  | brackets size _ ih => exact .brackets size ih
  | trace h => exact .trace (htrace _ h)
  | tag h => exact .tag (htag _ _ _ _ h)
  | closure h => exact .closure (hclosure _ _ _ _ _ _ h)
  | builtin b => exact .builtin b
  | special h => exact .special (hspecial _ h)

theorem ofUntagged (h : Alike L.untagged v w) : Alike L v w :=
  mono (L := L.untagged) (fun _ h => h) (fun _ _ _ _ => False.elim) (fun _ _ _ _ _ _ h => h)
    (fun _ h => h) (fun _ _ h => h) h

/-- A value that is alike to another one is alike to itself, if its closures and tags are. -/
theorem left
    (htag : ∀ {i o j p}, L.tag i o j p → L.tag i o i o)
    (hclosure : ∀ {source name i c j d},
      L.closure source name i c j d → L.closure source name i c i c)
    (hundefined : ∀ {i j}, L.undefined i j → L.undefined i i)
    (h : Alike L v w) : Alike L v v := by
  have hitems {vs ws : List Value} (size : vs.length = ws.length)
      (ih : ∀ {v w}, (v, w) ∈ vs.zip ws → Alike L v v) : ItemsAlike L vs vs := by
    have hall : List.Forall₂ (fun v _ => Alike L v v) vs ws := List.forall₂_iff_zip.mpr ⟨size, ih⟩
    clear size ih
    induction hall with
    | nil => exact .nil
    | cons hv _ ih => exact .cons hv ih
  induction h with
  | null => exact .null
  | bool b => exact .bool b
  | int i => exact .int i
  | float x => exact .float x
  | undefined h => exact .undefined (hundefined h)
  | text s => exact .text s
  | symbol s => exact .symbol s
  | list size _ ih => exact .ofList (hitems size ih)
  | tuple size _ ih => exact .ofTuple (hitems size ih)
  | quoted _ ih => exact .quoted ih
  | brackets size _ ih => exact .brackets rfl (List.forall₂_iff_zip.mp (hitems size ih)).2
  | trace h => exact .trace h
  | tag h => exact .tag (htag h)
  | closure h => exact .closure (hclosure h)
  | builtin b => exact .builtin b
  | special h => exact .special h

/-- A likeness by which closures and tags correspond to themselves only relates each
value to itself only. -/
theorem eq
    (htag : ∀ {i o j p}, L.tag i o j p → i = j ∧ o = p)
    (hclosure : ∀ {source name i c j d}, L.closure source name i c j d → i = j ∧ c = d)
    (hundefined : ∀ {i j}, L.undefined i j → i = j)
    (h : Alike L v w) : v = w := by
  have hitems {vs ws : List Value} (size : vs.length = ws.length)
      (items : ∀ {v w}, (v, w) ∈ vs.zip ws → v = w) : vs = ws :=
    List.forall₂_eq_eq_eq (α := Value) ▸ List.forall₂_iff_zip.mpr ⟨size, items⟩
  induction h with
  | list size _ ih => rw [hitems size ih]
  | tuple size _ ih => rw [hitems size ih]
  | quoted _ ih => rw [ih]
  | brackets size _ ih => rw [hitems size ih]
  | tag h => rw [(htag h).1, (htag h).2]
  | closure h => rw [(hclosure h).1, (hclosure h).2]
  | undefined h => rw [hundefined h]
  | _ => rfl

/-! ## What a program can ask of a value -/

theorem key?_eq (h : Alike L v w) : v.key? = w.key? := by
  cases h <;> rfl

theorem isTuple_eq (h : Alike L v w) : v.isTuple = w.isTuple := by
  cases h <;> rfl

theorem isTruthy_eq (h : Alike L v w) : v.isTruthy = w.isTruthy := by
  cases h <;> rfl

theorem numeric?_eq (h : Alike L v w) : v.numeric? = w.numeric? := by
  cases h <;> rfl

theorem characters?_eq (h : Alike L v w) : v.characters? = w.characters? := by
  cases h <;> rfl

/-- Both values are sequences with items that are alike, or none is a sequence. -/
theorem items?_cases (h : Alike L v w) :
    (v.items? = none ∧ w.items? = none) ∨
      ∃ vs ws, v.items? = some vs ∧ w.items? = some ws ∧ ItemsAlike L vs ws := by
  cases h with
  | list size items =>
    exact .inr ⟨_, _, rfl, rfl, List.forall₂_iff_zip.mpr ⟨size, items⟩⟩
  | tuple size items =>
    exact .inr ⟨_, _, rfl, rfl, List.forall₂_iff_zip.mpr ⟨size, items⟩⟩
  | quoted h => exact .inr ⟨_, _, rfl, rfl, .cons h .nil⟩
  | brackets size items => exact .inr ⟨_, _, rfl, rfl, .cons (.list size items) .nil⟩
  | _ => exact .inl ⟨rfl, rfl⟩

theorem sameKind (h : Alike L v w) (hs : ItemsAlike L vs ws) :
    Alike L (v.sameKind vs) (w.sameKind ws) := by
  unfold Value.sameKind
  rw [h.isTuple_eq]
  split
  · exact ofTuple hs
  · exact ofList hs

theorem ofChars (cs : List Char) : ItemsAlike L (cs.map ofChar) (cs.map ofChar) :=
  List.forall₂_same.mpr fun v hv => by
    obtain ⟨c, -, rfl⟩ := List.mem_map.mp hv
    exact .text _

theorem elements?_cases (h : Alike L v w) :
    (v.elements? = none ∧ w.elements? = none) ∨
      ∃ vs ws, v.elements? = some vs ∧ w.elements? = some ws ∧ ItemsAlike L vs ws := by
  unfold Value.elements?
  rw [← h.characters?_eq]
  rcases h.items?_cases with ⟨hv, hw⟩ | ⟨vs, ws, hv, hw, hs⟩
  · rw [hv, hw]
    cases v.characters? with
    | none => exact .inl ⟨rfl, rfl⟩
    | some s => exact .inr ⟨_, _, rfl, rfl, ofChars s.toList⟩
  · rw [hv, hw]
    exact .inr ⟨vs, ws, rfl, rfl, hs⟩

theorem addressItems (h : Alike L v w) : ItemsAlike L v.addressItems w.addressItems := by
  unfold Value.addressItems
  rcases h.items?_cases with ⟨hv, hw⟩ | ⟨vs, ws, hv, hw, hs⟩
  · rw [hv, hw]
    exact .cons h .nil
  · rw [hv, hw]
    exact hs

/-- Whether a value starts with a tag depends on its first item only. -/
theorem isTagAddress_eq (h : Alike L v w) : v.isTagAddress = w.isTagAddress := by
  have first {vs ws : List Value} (size : vs.length = ws.length)
      (items : ∀ {v w}, (v, w) ∈ vs.zip ws → Alike L v w) :
      (Value.list vs).isTagAddress = (Value.list ws).isTagAddress := by
    cases List.forall₂_iff_zip.mpr ⟨size, items⟩ with
    | nil => rfl
    | cons h _ => cases h <;> rfl
  cases h with
  | list size items => exact first size items
  | tuple size items => exact first size items
  | quoted h => cases h <;> rfl
  | _ => rfl

end Alike
end Value

mutual

/-- Whether no closure and no tag is part of a value, other than inside of traces. -/
def Value.isInert : Value → Bool
  | .list vs => allInert vs
  | .tuple vs => allInert vs
  | .quoted v => v.isInert
  | .brackets vs => allInert vs
  | .tag _ _ => false
  | .closure _ _ _ _ => false
  | _ => true

/-- Whether no closure and no tag is part of any of several values. -/
def allInert : List Value → Bool
  | [] => true
  | v :: vs => v.isInert && allInert vs

end

theorem isInert_of_mem {v : Value} {vs : List Value} (h : allInert vs = true) (hv : v ∈ vs) :
    v.isInert = true := by
  induction vs with
  | nil => cases hv
  | cons u vs ih =>
    rw [allInert, Bool.and_eq_true] at h
    rcases List.mem_cons.mp hv with rfl | hv
    · exact h.1
    · exact ih h.2 hv

/-- What has neither closures nor tags is alike without them. -/
theorem Value.Alike.ofInert {L : Likeness} {v w : Value} (h : Value.Alike L v w)
    (hv : v.isInert = true) : Value.Alike L.inert v w := by
  induction h with
  | null => exact .null
  | bool b => exact .bool b
  | int i => exact .int i
  | float x => exact .float x
  | undefined h => exact .undefined h
  | text s => exact .text s
  | symbol s => exact .symbol s
  | list size _ ih =>
    exact .list size fun hmem => ih hmem (isInert_of_mem hv (List.of_mem_zip hmem).1)
  | tuple size _ ih =>
    exact .tuple size fun hmem => ih hmem (isInert_of_mem hv (List.of_mem_zip hmem).1)
  | quoted _ ih => exact .quoted (ih hv)
  | brackets size _ ih =>
    exact .brackets size fun hmem => ih hmem (isInert_of_mem hv (List.of_mem_zip hmem).1)
  | trace h => exact .trace h
  | tag h => cases hv
  | closure h => cases hv
  | builtin b => exact .builtin b
  | special h => exact .special h

theorem ItemsAlike.getLast?_getD {L : Likeness} {vs ws : List Value} (h : ItemsAlike L vs ws)
    {v w : Value} (hv : Value.Alike L v w) :
    Value.Alike L (vs.getLast?.getD v) (ws.getLast?.getD w) := by
  induction h generalizing v w with
  | nil => exact hv
  | cons hx _ ih =>
    rw [List.getLast?_cons, List.getLast?_cons]
    exact ih hx

theorem Address.ofValues_alike {L : Likeness} {vs ws : List Value} (h : ItemsAlike L vs ws) :
    (Address.ofValues vs).1 = (Address.ofValues ws).1 ∧
      Option.Rel (Value.Alike L) (Address.ofValues vs).2 (Address.ofValues ws).2 := by
  induction h with
  | nil => exact ⟨rfl, .none⟩
  | @cons v w _ _ hv _ ih =>
    simp only [Address.ofValues, ← hv.key?_eq]
    cases v.key? with
    | none => exact ⟨rfl, .some hv⟩
    | some k => exact ⟨congrArg (k :: ·) ih.1, ih.2⟩

/-! ## Faults -/

/-- Faults of one cause, about one pattern and inputs that are alike. -/
inductive Fault.Misfit (L : Likeness) (pattern : Value) : Fault → Fault → Prop
  | tooFewInputs {vs ws : List Value} (expected : Nat) : ItemsAlike L vs ws →
      Fault.Misfit L pattern (.tooFewInputs vs expected pattern) (.tooFewInputs ws expected pattern)
  | tooManyInputs {vs ws : List Value} (expected : Nat) : ItemsAlike L vs ws →
      Fault.Misfit L pattern (.tooManyInputs vs expected pattern)
        (.tooManyInputs ws expected pattern)
  | unknownPattern {v w : Value} : Value.Alike L v w →
      Fault.Misfit L pattern (.unknownPattern pattern v) (.unknownPattern pattern w)
  | misplacedRest {v w : Value} : Value.Alike L v w →
      Fault.Misfit L pattern (.misplacedRest pattern v) (.misplacedRest pattern w)
  | notASequence {v w : Value} : Value.Alike L v w →
      Fault.Misfit L pattern (.notASequence pattern v) (.notASequence pattern w)

/-- Faults of one cause, about values that are alike. -/
inductive Fault.Alike (L : Likeness) : Fault → Fault → Prop
  | same {f : Fault} : ItemsAlike L f.shown f.shown → Fault.Alike L f f
  | misfit {pattern : Value} {f g : Fault} :
      Value.Alike L pattern pattern → Fault.Misfit L pattern f g → Fault.Alike L f g
  | notAProcedure {v w : Value} :
      Value.Alike L v w → Fault.Alike L (.notAProcedure v) (.notAProcedure w)
  | invalidInputs {v w : Value} (rule : InputRule) :
      Value.Alike L v w → Fault.Alike L (.invalidInputs rule v) (.invalidInputs rule w)
  | invalidKey {v w x y : Value} (use : KeyUse) :
      Value.Alike L v w → Value.Alike L x y →
      Fault.Alike L (.invalidKey use v x) (.invalidKey use w y)
  | emptyQuasiAddress {v w : Value} :
      Value.Alike L v w → Fault.Alike L (.emptyQuasiAddress v) (.emptyQuasiAddress w)
  | noCapturedTag {v w : Value} :
      Value.Alike L v w → Fault.Alike L (.noCapturedTag v) (.noCapturedTag w)

theorem Fault.Alike.plain {L : Likeness} {f : Fault} (h : f.isPlain = true) :
    Fault.Alike L f f := by
  refine .same ?_
  rw [Fault.shown_of_isPlain h]
  exact .nil

/-- The messages of faults that are alike show values that are alike. -/
theorem Fault.Alike.shown {L : Likeness} {f g : Fault} (h : Fault.Alike L f g) :
    ItemsAlike L f.shown g.shown := by
  cases h with
  | same h => exact h
  | misfit hp h =>
    cases h with
    | tooFewInputs _ hs => exact .cons hp hs
    | tooManyInputs _ hs => exact .cons hp hs
    | unknownPattern hv => exact .cons hp (.cons hv .nil)
    | misplacedRest hv => exact .cons hp (.cons hv .nil)
    | notASequence hv => exact .cons hp (.cons hv .nil)
  | notAProcedure hv => exact .cons hv .nil
  | invalidInputs _ hv => exact .cons hv .nil
  | invalidKey _ hv hx => exact .cons hv (.cons hx .nil)
  | emptyQuasiAddress hv => exact .cons hv .nil
  | noCapturedTag hv => exact .cons hv .nil

/-- Faults about values that are alike to themselves only are the same. -/
theorem Fault.Misfit.eq {L : Likeness} (heq : ∀ {v w}, Value.Alike L v w → v = w) {pattern : Value}
    {f g : Fault} (h : Fault.Misfit L pattern f g) : f = g := by
  have hitems {vs ws : List Value} (hs : ItemsAlike L vs ws) : vs = ws :=
    List.forall₂_eq_eq_eq (α := Value) ▸ hs.imp fun _ _ => heq
  cases h with
  | tooFewInputs _ hs => rw [hitems hs]
  | tooManyInputs _ hs => rw [hitems hs]
  | unknownPattern hv => rw [heq hv]
  | misplacedRest hv => rw [heq hv]
  | notASequence hv => rw [heq hv]

theorem Fault.Alike.eq {L : Likeness} (heq : ∀ {v w}, Value.Alike L v w → v = w) {f g : Fault}
    (h : Fault.Alike L f g) : f = g := by
  cases h with
  | same _ => rfl
  | misfit _ h => exact h.eq heq
  | notAProcedure hv => rw [heq hv]
  | invalidInputs _ hv => rw [heq hv]
  | invalidKey _ hv hx => rw [heq hv, heq hx]
  | emptyQuasiAddress hv => rw [heq hv]
  | noCapturedTag hv => rw [heq hv]

theorem Fault.Alike.mono {L M : Likeness} (hLM : ∀ {v w}, Value.Alike L v w → Value.Alike M v w)
    {f g : Fault} (h : Fault.Alike L f g) : Fault.Alike M f g := by
  cases h with
  | same h => exact .same (h.imp fun _ _ => hLM)
  | misfit hp h =>
    refine .misfit (hLM hp) ?_
    cases h with
    | tooFewInputs _ h => exact .tooFewInputs _ (h.imp fun _ _ => hLM)
    | tooManyInputs _ h => exact .tooManyInputs _ (h.imp fun _ _ => hLM)
    | unknownPattern h => exact .unknownPattern (hLM h)
    | misplacedRest h => exact .misplacedRest (hLM h)
    | notASequence h => exact .notASequence (hLM h)
  | notAProcedure h => exact .notAProcedure (hLM h)
  | invalidInputs rule h => exact .invalidInputs rule (hLM h)
  | invalidKey use h h' => exact .invalidKey use (hLM h) (hLM h')
  | emptyQuasiAddress h => exact .emptyQuasiAddress (hLM h)
  | noCapturedTag h => exact .noCapturedTag (hLM h)

section Raised

variable {L : Likeness} {s s' : Store}
variable (htext : ∀ {v v'}, Value.Alike L v v' → s.hasText v = s'.hasText v')
include htext

theorem all_hasText_eq {vs vs' : List Value} (h : ItemsAlike L vs vs') :
    vs.all s.hasText = vs'.all s'.hasText := by
  induction h with
  | nil => rfl
  | cons hv _ ih => rw [List.all_cons, List.all_cons, htext hv, ih]

/-- Faults that are alike are raised, or none of their messages can be composed. -/
theorem Fault.Alike.raised {f g : Fault} (h : Fault.Alike L f g) :
    Fault.Alike L (s.raised f) (s'.raised g) := by
  unfold Store.raised
  rw [all_hasText_eq htext h.shown]
  split
  · exact h
  · exact .plain rfl

end Raised

/-- Runs that fail in the same way. -/
inductive HaltsAlike (L : Likeness) : Halt → Halt → Prop
  | fault {f g : Fault} : Fault.Alike L f g → HaltsAlike L (.fault f) (.fault g)
  | tooDeep : HaltsAlike L .tooDeep .tooDeep

theorem HaltsAlike.eq {L : Likeness} (heq : ∀ {v w}, Value.Alike L v w → v = w) {h k : Halt}
    (hk : HaltsAlike L h k) : h = k := by
  cases hk with
  | fault hf => rw [hf.eq heq]
  | tooDeep => rfl

theorem HaltsAlike.mono {L M : Likeness} (hLM : ∀ {v w}, Value.Alike L v w → Value.Alike M v w)
    {h k : Halt} (hk : HaltsAlike L h k) : HaltsAlike M h k := by
  cases hk with
  | tooDeep => exact .tooDeep
  | fault hf => exact .fault (hf.mono hLM)

/-- Two computations on values that both succeed, with related results, or both fail
with faults that are alike. -/
inductive Agree (L : Likeness) {α β : Type} (R : α → β → Prop) :
    Except Fault α → Except Fault β → Prop
  | ok {a : α} {b : β} : R a b → Agree L R (.ok a) (.ok b)
  | error {f g : Fault} : Fault.Alike L f g → Agree L R (.error f) (.error g)

namespace Agree

variable {L : Likeness} {α β γ δ : Type} {R : α → β → Prop} {S : γ → δ → Prop}

/-- Two failures of one operation, without a message. -/
theorem plain {f : Fault} (h : f.isPlain = true) : Agree L R (.error f) (.error f) :=
  .error (.plain h)

theorem bind {x : Except Fault α} {y : Except Fault β}
    {f : α → Except Fault γ} {g : β → Except Fault δ}
    (h : Agree L R x y) (hf : ∀ a b, R a b → Agree L S (f a) (g b)) :
    Agree L S (x >>= f) (y >>= g) := by
  cases h with
  | ok hab => exact hf _ _ hab
  | error hfault => exact .error hfault

theorem mono {T : α → β → Prop} {x : Except Fault α} {y : Except Fault β}
    (h : Agree L R x y) (hRT : ∀ a b, R a b → T a b) : Agree L T x y := by
  cases h with
  | ok hab => exact .ok (hRT _ _ hab)
  | error hfault => exact .error hfault

/-- A computation that fails plainly agrees with itself when each of its results is related to
itself. -/
theorem self {T : α → α → Prop} {x : Except Fault α} (hx : FailsPlainly x)
    (h : ∀ a, x = .ok a → T a a) : Agree L T x x := by
  cases x with
  | ok a => exact .ok (h a rfl)
  | error f => exact .plain (hx f rfl)

/-- The result of a computation that agrees with itself is related to itself. -/
theorem self_ok {T : α → α → Prop} {x : Except Fault α} {a : α} (h : Agree L T x x)
    (hx : x = .ok a) : T a a := by
  rw [hx] at h
  cases h with
  | ok h => exact h

/-- A step that both sides take alike, followed by steps that agree. -/
theorem shared_bind {x : Except Fault α} (hx : FailsPlainly x) {f : α → Except Fault γ}
    {g : α → Except Fault δ} (h : ∀ a, x = .ok a → Agree L S (f a) (g a)) :
    Agree L S (x >>= f) (x >>= g) := by
  cases x with
  | ok a => exact h a rfl
  | error e => exact .plain (hx e rfl)

end Agree

end ProbTrace
