import ProbTrace.Proofs.Faults
import ProbTrace.Proofs.ReadOnly

/-!
# Definitions are local

A definition binds the names of its pattern in the innermost frame of its scope.  A block and a
call open a frame of their own, so that what they define is bound there.  An evaluation thus
leaves all frames that were there before as they were, the innermost one of its scope apart, and
in that one it binds the names of the definitions that are in no block and no procedure of the
expression.

Nothing is assumed of the procedures that are met on the way: they may be made of any code, and
they may have been made at any time.
-/

namespace ProbTrace

/-! ## Frames that stay -/

/-- A frame before and after a change at some addresses.  Without any, it is the same. -/
structure Trace.ChangedAt (N : Address → Prop) (t u : Trace) : Prop where
  others : ∀ a, ¬ N a → u.valueAt? a = t.valueAt? a
  same : (∀ a, ¬ N a) → u = t

namespace Trace.ChangedAt

variable {N : Address → Prop} {t u v : Trace}

theorem refl (t : Trace) : t.ChangedAt N t :=
  ⟨fun _ _ => rfl, fun _ => rfl⟩

theorem trans (h : t.ChangedAt N u) (h' : u.ChangedAt N v) : t.ChangedAt N v :=
  ⟨fun a ha => (h'.others a ha).trans (h.others a ha), fun hN => (h'.same hN).trans (h.same hN)⟩

theorem update {a : Address} (ha : N a) (f : Option Value → Option Value) (t : Trace) :
    t.ChangedAt N (Trace.update f a t) := by
  constructor
  · intro b hb
    refine Trace.valueAt?_update_of_ne ?_ t
    rintro rfl
    exact hb ha
  · intro hN
    exact absurd ha (hN a)

end Trace.ChangedAt

/-- Machines before and after a computation that changes one of the frames that were there, and
that one only at some addresses. -/
structure Machine.ChangedIn (m : Machine) (own : Option FrameId) (N : Address → Prop)
    (m' : Machine) : Prop where
  grown : m.frames.size ≤ m'.frames.size
  others : ∀ i < m.frames.size, own ≠ some i → m'.bindings i = m.bindings i
  own : ∀ i < m.frames.size, own = some i → (m.bindings i).ChangedAt N (m'.bindings i)

namespace Machine.ChangedIn

variable {m m' m'' : Machine} {own : Option FrameId} {N : Address → Prop}

/-- All frames that were there are the same. -/
theorem ofSame (hgrown : m.frames.size ≤ m'.frames.size)
    (h : ∀ i < m.frames.size, m'.bindings i = m.bindings i) : m.ChangedIn own N m' := by
  refine ⟨hgrown, fun i hi _ => h i hi, fun i hi _ => ?_⟩
  rw [h i hi]
  exact .refl _

theorem ofFrames (h : m'.frames = m.frames) : m.ChangedIn own N m' := by
  refine .ofSame (Nat.le_of_eq (congrArg Array.size h.symm)) fun i _ => ?_
  unfold Machine.bindings
  rw [h]

theorem trans (h : m.ChangedIn own N m') (h' : m'.ChangedIn own N m'') :
    m.ChangedIn own N m'' where
  grown := Nat.le_trans h.grown h'.grown
  others i hi hown := (h'.others i (Nat.lt_of_lt_of_le hi h.grown) hown).trans (h.others i hi hown)
  own i hi hown := (h.own i hi hown).trans (h'.own i (Nat.lt_of_lt_of_le hi h.grown) hown)

end Machine.ChangedIn

/-- A computation that changes, however it ends, one of the frames that are there, and that one
only at some addresses. -/
def Run.Local {α : Type} (own : Option FrameId) (N : Address → Prop) (x : Run α) : Prop :=
  ∀ m : Machine, m.ChangedIn own N (x.leaves m)

namespace Run.Local

variable {α β : Type} {own : Option FrameId} {N : Address → Prop}

theorem pure (a : α) : Run.Local own N (Pure.pure a) :=
  fun _ => .ofFrames rfl

theorem bind {x : Run α} {f : α → Run β} (hx : x.Local own N)
    (hf : ∀ {m a m'}, x m = .ok a m' → (f a).Local own N) : Run.Local own N (x >>= f) := by
  intro m
  have hfirst := hx m
  have hbind : (x >>= f) m = EStateM.bind x f m := rfl
  unfold Run.leaves at hfirst ⊢
  rw [hbind, EStateM.bind]
  cases hrun : x m with
  | error h m' =>
    rw [hrun] at hfirst
    exact hfirst
  | ok a m' =>
    rw [hrun] at hfirst
    exact hfirst.trans (hf hrun m')

theorem withStore {g : Store → Run α} (h : ∀ s, (g s).Local own N) :
    Run.Local own N (Run.store >>= g) :=
  fun m => h m.store m

theorem withMachine {g : Machine → Run α} (h : ∀ m, (g m).Local own N) :
    Run.Local own N (get >>= g) :=
  fun m => h m m

theorem raise (f : Fault) : (Run.raise f : Run α).Local own N :=
  fun _ => .ofFrames rfl

theorem ofExcept (x : Except Fault α) : (Run.ofExcept x).Local own N := by
  cases x with
  | ok a => exact .pure a
  | error f => exact .raise f

theorem edit (e : Edit α) : (Run.edit e).Local own N := by
  intro m
  unfold Run.leaves
  cases he : e m.store with
  | ok a s =>
    rw [Run.edit_ok he]
    exact .ofFrames rfl
  | error f s =>
    rw [Run.edit_error he]
    exact .ofFrames rfl

/-- What is done in a new frame is done in none of those that were there. -/
theorem inNewFrame {c : Scope} {f : Scope → Run α}
    (h : ∀ id, (f (.frame id c)).Local (some id) fun _ => True) :
    Run.Local own N (Run.newFrame c >>= f) := by
  intro m
  have hinner := h m.frames.size { m with frames := m.frames.push .empty }
  have hsize : m.frames.size ≤ (m.frames.push Trace.empty).size := by
    rw [Array.size_push]
    exact Nat.le_succ _
  refine .ofSame (Nat.le_trans hsize hinner.grown) fun i hi => ?_
  have hne : some m.frames.size ≠ some i := fun heq => Nat.ne_of_gt hi (Option.some.inj heq)
  exact (hinner.others i (Nat.lt_of_lt_of_le hi hsize) hne).trans (m.bindings_push i)

end Run.Local

/-! ## Steps that leave all frames -/

section Steps

variable {own : Option FrameId} {N : Address → Prop}

theorem enroll_local (v : Value) : (Run.enroll v).Local own N :=
  fun _ => .ofFrames rfl

theorem fresh_local : Run.fresh.Local own N :=
  fun _ => .ofFrames rfl

theorem notify_local (n : Notice) : (Run.notify n).Local own N :=
  fun _ => .ofFrames rfl

theorem compose_local (vs : List Value) : (Run.compose vs).Local own N := by
  intro m
  unfold Run.leaves
  rcases Run.compose_cases vs m with h | h
  · rw [h]
    exact .ofFrames rfl
  · rw [h]
    exact .ofFrames rfl

/-- A text is composed and a notice is given, and then there is a fault. -/
theorem reject_local {α : Type} (vs : List Value) (notice : Store → Notice) (f : Fault) :
    Run.Local own N (do
      Run.compose vs
      Run.notify (notice (← Run.store))
      Run.raise f : Run α) :=
  .bind (compose_local vs) fun _ => .withStore fun _ => .bind (notify_local _) fun _ => .raise f

theorem draw_local (ctx : Context) : (Run.draw ctx).Local own N :=
  fun _ => .ofFrames rfl

theorem deviate_local (ctx : Context) : (Random.deviate ctx).Local own N := by
  have hspare (z : Option Float) :
      (modify fun m => { m with spare := z } : Run Unit).Local own N := fun _ => .ofFrames rfl
  refine .withMachine fun m => .bind (hspare none) fun _ => ?_
  cases m.spare with
  | some z => exact .pure z
  | none =>
    refine .bind (draw_local ctx) fun _ => .bind (draw_local ctx) fun _ => ?_
    exact .bind (.ofExcept _) fun _ => .bind (hspare _) fun _ => .pure _

theorem sample_local (ctx : Context) (d : Distribution) (vs : List Value) :
    (d.sample ctx vs).Local own N := by
  have hcomputed (x : Except Fault Value) : (Run.ofExcept x >>= Run.enroll).Local own N :=
    .bind (.ofExcept x) fun _ => enroll_local _
  cases d with
  | flip =>
    rcases vs with _ | ⟨p, _ | ⟨_, _⟩⟩
    · exact .raise _
    · exact .bind (draw_local ctx) fun _ => .bind (.ofExcept _) fun _ => .pure _
    · exact .raise _
  | uniform =>
    rcases vs with _ | ⟨low, _ | ⟨high, _ | ⟨_, _⟩⟩⟩
    · exact .raise _
    · exact .raise _
    · exact .bind (.ofExcept _) fun _ => .bind (draw_local ctx) fun _ => hcomputed _
    · exact .raise _
  | gaussian =>
    rcases vs with _ | ⟨mean, _ | ⟨deviation, _ | ⟨_, _⟩⟩⟩
    · exact .raise _
    · exact .raise _
    · exact .bind (deviate_local ctx) fun _ => hcomputed _
    · exact .raise _

theorem callBuiltin_local (b : Builtin) (vs : List Value) : (b.call vs).Local own N := by
  by_cases hb : b = .note
  · subst hb
    exact fun _ => .ofFrames rfl
  · rw [Builtin.call_eq hb]
    exact .withStore fun _ => .bind (.ofExcept _) fun _ => enroll_local _

theorem record_local (output : Option Trace) (v : Value) :
    (Evaluator.record output v).Local own N := by
  cases output with
  | none => exact .pure _
  | some t => exact .edit _

theorem warnMismatch_local (ctx : Context) (target intervention proc : Value) (callee : String) :
    (Evaluator.warnMismatch ctx target intervention proc callee).Local own N := by
  unfold Evaluator.warnMismatch
  split
  · exact .bind (compose_local _) fun _ => .withStore fun _ => notify_local _
  · exact .pure _

/-- A value is recorded and given. -/
theorem recorded_local {α : Type} (output : Option Trace) (v : Value) (a : α) :
    Run.Local own N (Evaluator.record output v >>= fun _ => Pure.pure a) :=
  .bind (record_local output v) fun _ => .pure a

theorem settle_local (ctx : Context) (f : Value) (o : Overlays Trace) (v : Value) (score : Float) :
    (Evaluator.settle ctx f o v score).Local own N := by
  refine .withStore fun s => ?_
  cases Evaluator.overlayValue? s o.target with
  | none => exact recorded_local _ _ _
  | some u =>
    cases Evaluator.overlayValue? s o.intervene with
    | none => exact recorded_local _ _ _
    | some x =>
      dsimp only
      split
      · exact .bind (warnMismatch_local ctx _ _ _ _) fun _ => recorded_local _ _ _
      · exact recorded_local _ _ _

theorem applyRandom_local (ctx : Context) (d : Distribution) (vs : List Value)
    (o : Overlays Trace) : (Evaluator.applyRandom ctx d vs o).Local own N := by
  refine .withStore fun s => ?_
  cases Evaluator.overlayValue? s o.target with
  | some u =>
    cases Evaluator.overlayValue? s o.intervene with
    | none => exact .bind (.ofExcept _) fun _ => recorded_local _ _ _
    | some v =>
      dsimp only
      split
      · exact .bind (.ofExcept _) fun _ => recorded_local _ _ _
      · exact .bind (warnMismatch_local ctx _ _ _ _) fun _ => recorded_local _ _ _
  | none =>
    cases Evaluator.overlayValue? s o.intervene with
    | some v => exact recorded_local _ _ _
    | none => exact .bind (sample_local ctx d vs) fun _ => recorded_local _ _ _

theorem part_local (e : Trace) (k : Key) : (Evaluator.part e k).Local own N :=
  .withStore fun _ => .ofExcept _

end Steps

/-! ## Patterns -/

/-- The address at which a frame holds a name. -/
def Value.boundAt (name : Value) : Address :=
  (Address.ofValues name.addressItems).1

section Patterns

variable {ctx : Context} {c : Scope} {N : Address → Prop}

theorem rebind_local {a : Address} (ha : N a) (id : FrameId) (f : Option Value → Option Value) :
    (modify fun m => { m with frames := m.frames.modify id (Trace.update f a) } :
      Run Unit).Local (some id) N := by
  intro m
  have hbindings := m.bindings_modify id (Trace.update f a)
  constructor
  · exact Nat.le_of_eq Array.size_modify.symm
  · intro i _ hi
    exact (hbindings i).trans (if_neg fun h => hi (congrArg some h.1.symm))
  · intro i hsize hi
    cases hi
    exact (hbindings id).trans (if_pos ⟨rfl, hsize⟩) ▸ .update ha f _

theorem bindName_local {name : Value} (hname : N name.boundAt) (v : Value) :
    (Run.bindName ctx c name v).Local c.innermost? N := by
  cases c with
  | top => exact .withMachine fun _ => .raise _
  | absent => exact .withMachine fun _ => .raise _
  | frame id outer =>
    show (Run.defineIn id name v).Local (some id) N
    unfold Run.defineIn
    unfold Value.boundAt at hname
    revert hname
    rcases Address.ofValues name.addressItems with ⟨keys, bad⟩
    intro hname
    cases name.isText reservedName with
    | true => exact .withMachine fun _ => .raise _
    | false =>
      cases bad with
      | none => exact rebind_local hname id _
      | some key => exact .bind (rebind_local hname id _) fun _ => .raise _

theorem bindParts_local {own : Option FrameId} {few many : Fault} {source : Value}
    {parts : List Pattern.Part} (hparts : ∀ p ∈ parts, ∀ v, (p.bind v).Local own N)
    (vs : List Value) : (Pattern.bindParts few many source parts vs).Local own N := by
  induction parts generalizing vs with
  | nil =>
    cases vs with
    | nil => exact .pure _
    | cons v vs => exact .raise _
  | cons p parts ih =>
    obtain ⟨hp, hlater⟩ := List.forall_mem_cons.mp hparts
    simp only [Pattern.bindParts]
    split
    · cases parts with
      | nil => exact .raise _
      | cons last parts => exact hlater last List.mem_cons_self _
    · cases vs with
      | nil => exact .raise _
      | cons v vs => exact .bind (hp v) fun _ => ih hlater vs

mutual

/-- Binding a pattern changes the names in it only. -/
theorem bindPattern_local : ∀ (t : Trace), (∀ name ∈ t.patternNames, N name.boundAt) →
    ∀ v, (t.bindPattern ctx c v).Local c.innermost? N
  | .cell n, _, v => .raise _
  | .tree value cs, hnames, v => by
    rw [Trace.patternNames] at hnames
    have hparts := patternParts_local cs fun name h => hnames name (List.mem_append_right _ h)
    simp only [Trace.bindPattern]
    split
    · split
      · rename_i name heq
        refine bindName_local (hnames name ?_) v
        rw [heq]
        exact List.mem_append_left _ (List.mem_singleton.mpr rfl)
      · exact .raise _
    · split
      · refine .bind (.ofExcept _) fun {m ordered m'} horder => ?_
        split
        · exact .raise _
        · refine bindParts_local (fun p hp => ?_) _
          obtain ⟨k, hk⟩ := Pattern.lookup_of_orderParts (Run.eq_of_ofExcept horder).1 hp
          exact hparts k p hk
      · exact .raise _

theorem patternParts_local : ∀ (cs : List (Key × Trace)),
    (∀ name ∈ childPatternNames cs, N name.boundAt) → ∀ k p,
      (patternParts ctx c cs).lookup k = some p → ∀ v, (p.bind v).Local c.innermost? N
  | [], _, _, _, h => nomatch h
  | (j, t) :: cs, hnames, k, p, h => by
    rw [childPatternNames] at hnames
    rw [patternParts, List.lookup_cons] at h
    cases hk : k == j with
    | true =>
      rw [hk] at h
      cases h
      exact bindPattern_local t fun name h => hnames name (List.mem_append_left _ h)
    | false =>
      rw [hk] at h
      exact patternParts_local cs (fun name h => hnames name (List.mem_append_right _ h)) k p h

end

/-- Binding any pattern changes the innermost frame only. -/
theorem matchBind_local (pattern : Trace) (v : Value) :
    (Run.matchBind ctx c (.trace pattern) v).Local c.innermost? fun _ => True :=
  .withStore fun _ => bindPattern_local _ (fun _ _ => trivial) v

end Patterns

/-! ## Code -/

/-- The child that some store has under a key. -/
def Trace.HasPart (e : Trace) (k : Key) (u : Trace) : Prop :=
  ∃ s : Store, s.getChild e k.toValue = .ok u

theorem hasPart_of_part {e u : Trace} {k : Key} {m m' : Machine}
    (h : Evaluator.part e k m = .ok u m') : e.HasPart k u :=
  ⟨m.store, (Run.eq_of_ofExcept h).1⟩

/-- Code that binds in the innermost frame at some addresses only.  Nothing is said of the parts
of blocks and procedures, which have frames of their own. -/
structure BindsWithin (ctx : Context) (N : Address → Prop) (code : Trace → Prop) : Prop where
  part : ∀ {e kind k u}, code e → Simulation.HasKind e kind → kind ≠ .block → kind ≠ .gen →
    e.HasPart k u → code u
  bound : ∀ {e p}, code e → Simulation.HasKind e .definition → e.HasPart (.name "pattern") p →
    ∀ c v, (Run.matchBind ctx c (.trace p) v).Local c.innermost? N

/-- Any code binds in the innermost frame. -/
theorem bindsWithin_any (ctx : Context) : BindsWithin ctx (fun _ => True) fun _ => True :=
  ⟨fun _ _ _ _ _ => trivial, fun {_ p} _ _ _ _ v => matchBind_local p v⟩

/-- Recursive calls that bind where they may. -/
structure LocalCalls (ctx : Context) (calls : Evaluator.Calls) : Prop where
  walk : ∀ {N code e}, BindsWithin ctx N code → code e →
    ∀ c a o, (calls.walk e c a o).Local c.innermost? N
  apply : ∀ {own N} f v o, (calls.apply f v o).Local own N

section Recursion

variable {ctx : Context} {calls : Evaluator.Calls} (hcalls : LocalCalls ctx calls)
variable {own : Option FrameId} {N : Address → Prop}
include hcalls

/-! ## Procedures -/

theorem mapItems_local (f : Value) (o : Overlays Trace) (vs : List Value) (i : Nat)
    (total : Float) : (Evaluator.mapItems calls f o i total vs).Local own N := by
  induction vs generalizing i total with
  | nil => exact .pure _
  | cons v vs ih =>
    refine .bind (.edit _) fun _ => .bind (hcalls.apply _ _ _) fun _ => ?_
    exact .bind (.ofExcept _) fun _ => .bind (ih _ _) fun _ => .pure _

theorem applySpecial_local (s : Special) (vs : List Value) (o : Overlays Trace) :
    (Evaluator.applySpecial ctx calls s vs o).Local own N := by
  cases s with
  | apply =>
    rcases vs with _ | ⟨f, _ | ⟨v, _ | ⟨_, _⟩⟩⟩
    · exact .raise _
    · exact .raise _
    · exact hcalls.apply f v o
    · exact .raise _
  | map =>
    rcases vs with _ | ⟨f, _ | ⟨v, _ | ⟨_, _⟩⟩⟩
    · exact .raise _
    · exact .raise _
    · simp only [Evaluator.applySpecial]
      cases v.items? with
      | none => exact .raise _
      | some items =>
        exact .bind (mapItems_local hcalls f o items 0 0.0) fun _ => recorded_local _ _ _
    · exact .raise _
  | random d => exact .bind (applyRandom_local ctx d vs o) fun _ => .pure _
  | scored =>
    rcases vs with _ | ⟨v, _ | ⟨_, _⟩⟩
    · exact .raise _
    · exact .raise _
    · exact .pure _

theorem evalFrom_local {code : Trace → Prop} (hcode : BindsWithin ctx N code) {e : Trace}
    (he : code e) (c : Scope) (o : Overlays Trace) :
    (Evaluator.evalFrom calls e c o).Local c.innermost? N :=
  .withStore fun _ => .bind (.ofExcept _) fun _ => hcalls.walk hcode he c [] o

theorem applyClosure_local (source : Trace) (c : Scope) (v : Value) (o : Overlays Trace) :
    (Evaluator.applyClosure ctx calls source c v o).Local own N := by
  refine .inNewFrame fun id => ?_
  refine .bind (part_local _ _) fun {_ pattern _} _ => ?_
  refine .bind (matchBind_local (c := .frame id c) pattern v) fun _ => ?_
  refine .bind (part_local _ _) fun _ => ?_
  exact evalFrom_local hcalls (bindsWithin_any ctx) trivial (.frame id c) o

theorem applyWith_local (f v : Value) (o : Overlays Trace) :
    (Evaluator.applyWith ctx calls f v o).Local own N := by
  refine .bind (.ofExcept _) fun _ => .withStore fun _ => .bind (.ofExcept _) fun _ => ?_
  cases f with
  | special s => exact applySpecial_local hcalls s _ o
  | closure serial source c name =>
    refine .bind (applyClosure_local hcalls source c v o) fun _ => ?_
    exact .bind (settle_local ctx _ o _ _) fun _ => .pure _
  | builtin b =>
    refine .bind (callBuiltin_local b _) fun _ => ?_
    exact .bind (settle_local ctx _ o _ _) fun _ => .pure _
  | _ => exact reject_local _ _ _

/-! ## Forms -/

theorem walkParts_local {code : Trace → Prop} (hcode : BindsWithin ctx N code) {e : Trace}
    (hparts : ∀ {i u}, e.HasPart (.index i) u → code u) (c : Scope) (a : Address)
    (o : Overlays Trace) (left i : Nat) (total : Float) :
    (Evaluator.walkParts calls e c a o left i total).Local c.innermost? N := by
  induction left generalizing i total with
  | zero => exact .pure _
  | succ left ih =>
    refine .bind (part_local _ _) fun hpart => ?_
    refine .bind (hcalls.walk hcode (hparts (hasPart_of_part hpart)) c _ o) fun _ => ?_
    exact .bind (ih _ _) fun _ => .pure _

theorem walkBlock_local (e : Trace) (c : Scope) (a : Address) (o : Overlays Trace) :
    (Evaluator.walkBlock calls e c a o).Local own N := by
  refine .inNewFrame fun id => .withStore fun _ => ?_
  refine .bind (walkParts_local hcalls (bindsWithin_any ctx) (fun _ => trivial) (.frame id c) a o _ 0
    0.0) fun _ => ?_
  exact .pure _

variable {code : Trace → Prop} (hcode : BindsWithin ctx N code) {e : Trace} (he : code e)
include hcode he

theorem walkApplication_local (hkind : Simulation.HasKind e .application) (c : Scope)
    (a : Address) (o : Overlays Trace) :
    (Evaluator.walkApplication calls e c a o).Local c.innermost? N := by
  have hparts {i u} (hu : e.HasPart (.index i) u) : code u :=
    hcode.part he hkind nofun nofun hu
  refine .withStore fun _ => .bind (walkParts_local hcalls hcode hparts c a o _ 0 0.0) fun _ => ?_
  refine .bind (part_local _ _) fun _ => .withStore fun _ => .bind (.ofExcept _) fun _ => ?_
  refine .bind (compose_local _) fun _ => .bind (.edit _) fun _ => ?_
  exact .bind (hcalls.apply _ _ _) fun _ => .bind (.ofExcept _) fun _ => .pure _

theorem walkConditional_local (hkind : Simulation.HasKind e .conditional) (c : Scope)
    (a : Address) (o : Overlays Trace) :
    (Evaluator.walkConditional calls e c a o).Local c.innermost? N := by
  have hwalk {k u} {m m' : Machine} (hu : Evaluator.part e k m = .ok u m') :
      (calls.walk u c (a ++ [k]) o).Local c.innermost? N :=
    hcalls.walk hcode (hcode.part he hkind nofun nofun (hasPart_of_part hu)) c _ o
  refine .bind (part_local _ _) fun hpredicate => .bind (hwalk hpredicate) fun _ => ?_
  refine .bind (compose_local _) fun _ => .bind (part_local _ _) fun hbranch => ?_
  exact .bind (hwalk hbranch) fun _ => .pure _

theorem walkDefinition_local (hkind : Simulation.HasKind e .definition) (c : Scope)
    (a : Address) (o : Overlays Trace) :
    (Evaluator.walkDefinition ctx calls e c a o).Local c.innermost? N := by
  refine .bind (part_local _ _) fun hpattern => .withStore fun _ => ?_
  refine .bind (.ofExcept _) fun _ => .bind (part_local _ _) fun hrhs => ?_
  have hcode' := hcode.part he hkind nofun nofun (hasPart_of_part hrhs)
  refine .bind (hcalls.walk hcode hcode' c _ o) fun _ => ?_
  refine .bind (hcode.bound he hkind (hasPart_of_part hpattern) c _) fun _ => ?_
  cases o.output with
  | none => exact .pure _
  | some t =>
    dsimp only
    split
    · exact .pure _
    · exact .bind (.edit _) fun _ => .pure _

theorem walkWithAddress_local (hkind : Simulation.HasKind e .withAddress) (c : Scope)
    (a : Address) (o : Overlays Trace) :
    (Evaluator.walkWithAddress calls e c a o).Local c.innermost? N := by
  have hpart {k u} {m m' : Machine} (hu : Evaluator.part e k m = .ok u m') : code u :=
    hcode.part he hkind nofun nofun (hasPart_of_part hu)
  refine .bind (part_local _ _) fun htag => .bind (hcalls.walk hcode (hpart htag) c _ o) fun _ => ?_
  refine .bind (.edit _) fun _ => .bind (part_local _ _) fun hbody => ?_
  exact .bind (evalFrom_local hcalls hcode (hpart hbody) c _) fun _ => .pure _

theorem walkKind_local {kind : Expression.Kind} (hkind : Simulation.HasKind e kind) (c : Scope)
    (a : Address) (o : Overlays Trace) :
    (Evaluator.walkKind ctx calls kind e c a o).Local c.innermost? N := by
  cases kind with
  | application => exact walkApplication_local hcalls hcode he hkind c a o
  | reference =>
    exact .withStore fun _ => .bind (.ofExcept _) fun _ =>
      .bind (.withMachine fun _ => .ofExcept _) fun _ => .pure _
  | literal => exact .withStore fun _ => .bind (.ofExcept _) fun _ => .pure _
  | gen =>
    exact .withStore fun _ => .bind (compose_local _) fun _ => .bind fresh_local fun _ => .pure _
  | conditional => exact walkConditional_local hcalls hcode he hkind c a o
  | block => exact walkBlock_local hcalls e c a o
  | definition => exact walkDefinition_local hcalls hcode he hkind c a o
  | this => exact .bind (.bind fresh_local fun _ => .pure _) fun _ => .pure _
  | withAddress => exact walkWithAddress_local hcalls hcode he hkind c a o

theorem walkWith_local (c : Scope) (a : Address) (o : Overlays Trace) :
    (Evaluator.walkWith ctx calls e c a o).Local c.innermost? N := by
  refine .withStore fun s => ?_
  cases hkind : (Value.kind? (s.value? e)).bind Expression.Kind.ofWord? with
  | none => exact reject_local _ _ _
  | some kind =>
    refine .bind (walkKind_local hcalls hcode he ⟨s, hkind⟩ c a o) fun _ => .withStore fun s => ?_
    cases o.intervene.bind (s.valueAt? · a) with
    | none => exact .pure _
    | some v => exact .pure _

end Recursion

/-- Evaluation to any depth binds where it may. -/
theorem callsAt_local (ctx : Context) (depth : Nat) :
    LocalCalls ctx (Evaluator.callsAt ctx depth) := by
  induction depth with
  | zero => exact ⟨fun _ _ _ _ _ _ => .ofFrames rfl, fun _ _ _ _ => .ofFrames rfl⟩
  | succ depth ih =>
    exact ⟨fun hcode he c a o => walkWith_local ih hcode he c a o,
      fun f v o => applyWith_local ih f v o⟩

/-! ## Expressions -/

namespace Trace.Solid

variable {t : Trace}

theorem outline (h : t.Solid) (deref : NodeId → Trace) : t.outline deref = t := by
  induction h with
  | @tree v cs hcs ih =>
    have hchildren : outlineChildren deref cs = cs := by
      clear v hcs
      induction cs with
      | nil => rfl
      | cons c cs ihcs =>
        obtain ⟨hc, hcs⟩ := List.forall_mem_cons.mp ih
        rw [outlineChildren, hc, ihcs hcs]
    rw [Trace.outline, hchildren]

theorem enrollAll (h : t.Solid) (n : Nat) : (t.enrollAll n).1.Solid := by
  induction h generalizing n with
  | @tree v cs hcs ih =>
    have hchildren (n : Nat) : ∀ c ∈ (enrollChildren cs n).1, c.2.Solid := by
      clear v hcs
      induction cs generalizing n with
      | nil => exact List.forall_mem_nil _
      | cons c cs ihcs =>
        obtain ⟨hc, hcs⟩ := List.forall_mem_cons.mp ih
        exact List.forall_mem_cons.mpr ⟨hc n, ihcs hcs _⟩
    cases v with
    | none => exact .tree (hchildren n)
    | some v => exact .tree (hchildren _)

end Trace.Solid

/-- The patterns of the definitions in an expression that are in no block and no procedure of
it. -/
inductive Expression.Defines (p : Trace) : Trace → Prop
  | here {cs : List (Key × Trace)} :
      childAt? cs (.name "pattern") = some p → Defines p (.node Kind.definition.word cs)
  | inside {kind : Kind} {cs : List (Key × Trace)} {k : Key} {u : Trace} :
      kind ≠ .block → kind ≠ .gen → (k, u) ∈ cs → Defines p u → Defines p (.node kind.word cs)

theorem Expression.Kind.eq_word {w : String} {kind : Kind} (h : Kind.ofWord? w = some kind) :
    w = kind.word := by
  have hword := List.find?_some h
  exact (beq_iff_eq.mp hword).symm

/-- The root of an expression and its parts, which are read the same way in every store. -/
theorem Trace.Solid.exists_node {e : Trace} {kind : Expression.Kind} (h : e.Solid)
    (hkind : Simulation.HasKind e kind) : ∃ cs, e = .node kind.word cs ∧
      (∀ c ∈ cs, c.2.Solid) ∧ ∀ {k u}, e.HasPart k u → childAt? cs k = some u := by
  cases h with
  | @tree v cs hcs =>
    obtain ⟨s, hs⟩ := hkind
    obtain ⟨w, hw, hword⟩ := Option.bind_eq_some_iff.mp hs
    have hv : v = some (.text w) := by
      change Value.kind? v = some w at hw
      unfold Value.kind? at hw
      split at hw
      · rw [Option.some.inj hw]
      · cases hw
    refine ⟨cs, by rw [hv, Expression.Kind.eq_word hword]; rfl, hcs, fun {k u} hpart => ?_⟩
    obtain ⟨s', hs'⟩ := hpart
    unfold Store.getChild at hs'
    rw [Value.key?_toValue, Option.bind_some] at hs'
    split at hs'
    · rename_i x hx
      cases hs'
      exact hx
    · cases hs'

/-- An expression binds at the names of its definitions. -/
theorem bindsWithin_defines (ctx : Context) (N : Address → Prop) : BindsWithin ctx N fun e =>
    e.Solid ∧ ∀ p, Expression.Defines p e → ∀ name ∈ p.patternNames, N name.boundAt := by
  constructor
  · rintro e kind k u ⟨hsolid, hnames⟩ hkind hblock hgen hpart
    obtain ⟨cs, rfl, hcs, hchild⟩ := hsolid.exists_node hkind
    have hmem := mem_of_childAt? (hchild hpart)
    exact ⟨hcs _ hmem, fun p hp => hnames p (.inside hblock hgen hmem hp)⟩
  · rintro e p ⟨hsolid, hnames⟩ hkind hpart c v
    obtain ⟨cs, rfl, hcs, hchild⟩ := hsolid.exists_node hkind
    have hpattern := hchild hpart
    refine .withStore fun s => ?_
    rw [Store.outline, (hcs _ (mem_of_childAt? hpattern)).outline]
    exact bindPattern_local p (hnames p (.here hpattern)) v

/-- Definitions are local.  However an evaluation ends, it leaves every frame that was there as
it was, the innermost one of its scope apart.  In that one it changes only the names in the
patterns of those definitions of the expression that are in no block and no procedure of it, and
nothing at all if there is no such definition. -/
theorem walkAt_bindings (ctx : Context) (depth : Nat) {form : Value} {u : Trace}
    (hbuild : Expression.build form = .ok u) (serials : Nat) (c : Scope) (a : Address)
    (o : Overlays Trace) (m : Machine) :
    let e := (u.enrollAll serials).1
    let m' := (Evaluator.walkAt ctx depth e c a o).leaves m
    (∀ i < m.frames.size, c.innermost? ≠ some i → m'.bindings i = m.bindings i) ∧
      ∀ i < m.frames.size, c.innermost? = some i →
        (∀ b, (∀ p name, Expression.Defines p e → name ∈ p.patternNames → b ≠ name.boundAt) →
          (m'.bindings i).valueAt? b = (m.bindings i).valueAt? b) ∧
        ((∀ p, ¬ Expression.Defines p e) → m'.bindings i = m.bindings i) := by
  intro e m'
  let N (b : Address) : Prop :=
    ∃ p name, Expression.Defines p e ∧ name ∈ p.patternNames ∧ b = name.boundAt
  have hsolid : e.Solid := (Expression.tree_of_buildNamed hbuild).solid.enrollAll serials
  have hchanged : m.ChangedIn c.innermost? N m' :=
    (callsAt_local ctx depth).walk (bindsWithin_defines ctx N)
      ⟨hsolid, fun p hp name hname => ⟨p, name, hp, hname, rfl⟩⟩ c a o m
  refine ⟨hchanged.others, fun i hi hown => ⟨fun b hb => ?_, fun hnone => ?_⟩⟩
  · refine (hchanged.own i hi hown).others b ?_
    rintro ⟨p, name, hp, hname, heq⟩
    exact hb p name hp hname heq
  · refine (hchanged.own i hi hown).same ?_
    rintro b ⟨p, name, hp, -, -⟩
    exact hnone p hp

/-- The form of `(if true (define x 1) (block (define y 2)))`. -/
def branchDefinition : Value :=
  .list [.symbol "if", .bool true, .list [.symbol "define", .symbol "x", .int 1],
    .list [.symbol "block", .list [.symbol "define", .symbol "y", .int 2]]]

/-- Two frames, both of which bind `x`. -/
def shadowing : Machine :=
  { frames := #[.tree none [(.name "x", .leaf .null)], .tree none [(.name "x", .leaf .null)]] }

theorem branchDefinition_bindings : ∃ u, Expression.build branchDefinition = .ok u ∧
    let m := (Evaluator.walkAt { topLevel := .standard, stream := fun _ => 0 } 3 (u.enrollAll 0).1
      (.frame 1 (.frame 0 .top)) [] {}).leaves shadowing
    (m.bindings 1).valueAt? [.name "x"] = some (.int 1) ∧
      m.bindings 0 = shadowing.bindings 0 := by
  have hbuild : Expression.build branchDefinition = .ok _ := rfl
  refine ⟨_, hbuild, rfl, ?_⟩
  exact (walkAt_bindings _ 3 hbuild 0 (.frame 1 (.frame 0 .top)) [] {} shadowing).1 0 (by decide)
    nofun

end ProbTrace
