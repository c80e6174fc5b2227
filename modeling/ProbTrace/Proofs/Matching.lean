import ProbTrace.Proofs.Faults

/-!
# Which inputs fit a pattern

A name fits any input, the reserved name apart.  A tuple fits a sequence whose items fit its
parts one by one; if its second-to-last part is the rest marker, the items in front fit the
parts in front of the marker, and the sequence of the items that remain fits the last part.
Nothing else fits.

Binding a pattern succeeds exactly on the inputs that fit.  It then has bound the names of the
pattern from left to right in the innermost frame, and has changed nothing else.
-/

namespace ProbTrace

open Expression (numbered)

/-- Names with the values they are bound to, the first to be bound in front. -/
abbrev Bindings := List (String × Value)

mutual

/-- The inputs that fit a pattern, with the bindings they give. -/
inductive Shape.Matches : Shape → Value → Bindings → Prop
  | name {x : String} {v : Value} : x ≠ reservedName → Matches (.name x) v [(x, v)]
  | tuple {ps : List Shape} {v : Value} {vs : List Value} {bs : Bindings} :
      v.elements? = some vs → Shape.PartsMatch ps vs bs → Matches (.tuple ps) v bs
  | gathering {ps : List Shape} {last : Shape} {v : Value} {vs ws : List Value}
      {bs cs : Bindings} :
      v.elements? = some (vs ++ ws) → Shape.PartsMatch ps vs bs →
      Matches last (v.sameKind ws) cs → Matches (.tuple (ps ++ [.rest, last])) v (bs ++ cs)

/-- Items that fit patterns one by one, with the bindings they give. -/
inductive Shape.PartsMatch : List Shape → List Value → Bindings → Prop
  | nil : PartsMatch [] [] []
  | cons {p : Shape} {ps : List Shape} {v : Value} {vs : List Value} {bs cs : Bindings} :
      Shape.Matches p v bs → PartsMatch ps vs cs → PartsMatch (p :: ps) (v :: vs) (bs ++ cs)

end

/-! ## Frames after bindings -/

/-- A frame after bindings, made one after the other. -/
def Trace.bindAll (t : Trace) (bs : Bindings) : Trace :=
  bs.foldl (fun t b => Trace.update (fun _ => some b.2) [.name b.1] t) t

/-- A machine after bindings in one frame. -/
def Machine.bindAll (m : Machine) (id : FrameId) (bs : Bindings) : Machine :=
  { m with frames := m.frames.modify id (·.bindAll bs) }

theorem Machine.bindAll_nil (m : Machine) (id : FrameId) : m.bindAll id [] = m := by
  have hframes : m.frames.modify id (·.bindAll []) = m.frames := by
    refine Array.ext_getElem? fun i => ?_
    rw [Array.getElem?_modify]
    split
    · exact Option.map_id'
    · rfl
  simp only [Machine.bindAll, hframes]

theorem Machine.bindAll_append (m : Machine) (id : FrameId) (bs cs : Bindings) :
    (m.bindAll id bs).bindAll id cs = m.bindAll id (bs ++ cs) := by
  have hframes : (m.frames.modify id (·.bindAll bs)).modify id (·.bindAll cs) =
      m.frames.modify id (·.bindAll (bs ++ cs)) := by
    refine Array.ext_getElem? fun i => ?_
    simp only [Array.getElem?_modify]
    by_cases hi : id = i
    · simp only [hi, if_true, Option.map_map]
      congr 1
      funext t
      simp [Trace.bindAll, List.foldl_append]
    · simp only [hi, if_false]
  simp only [Machine.bindAll, hframes]

namespace Run

theorem defineIn_text {x : String} (hx : x ≠ reservedName) (id : FrameId) (v : Value)
    (m : Machine) : defineIn id (.text x) v m = .ok () (m.bindAll id [(x, v)]) := by
  have hname : (Value.text x).isText reservedName = false := beq_false_of_ne hx
  unfold defineIn
  rw [hname]
  rfl

theorem defineIn_reserved (id : FrameId) (v : Value) (m : Machine) :
    defineIn id (.text reservedName) v m =
      raise (.reservedName (m.bindings id).keys) m :=
  rfl

end Run

namespace Trace.Solid

theorem childAt?_getD {cs : List (Key × Trace)} (hcs : ∀ c ∈ cs, c.2.Solid) (k : Key) :
    ((childAt? cs k).getD .empty).Solid := by
  cases hu : childAt? cs k with
  | none => exact .tree (List.forall_mem_nil _)
  | some u => exact hcs _ (mem_of_childAt? hu)

theorem update {t : Trace} (h : t.Solid) (f : Option Value → Option Value) (a : Address) :
    (Trace.update f a t).Solid := by
  induction a generalizing t with
  | nil =>
    cases h with
    | tree hcs => exact .tree hcs
  | cons k a ih =>
    cases h with
    | @tree v cs hcs =>
      refine .tree ?_
      rintro ⟨l, u⟩ hmem
      rcases Store.mem_insertChild hmem with heq | hmem
      · cases heq
        exact ih (childAt?_getD hcs k)
      · exact hcs _ hmem

theorem valueAt?_update {t : Trace} (h : t.Solid) (f : Option Value → Option Value) (a : Address) :
    (Trace.update f a t).valueAt? a = f (t.valueAt? a) := by
  induction a generalizing t with
  | nil =>
    cases h with
    | tree _ => rfl
  | cons k a ih =>
    cases h with
    | @tree v cs hcs =>
      have hchild := ih (childAt?_getD hcs k)
      simp only [Trace.update, Trace.valueAt?, childAt?_insertChild, if_true, hchild]
      cases childAt? cs k with
      | none => exact congrArg f (Trace.valueAt?_empty a)
      | some u => rfl

/-- A name has the last value that was bound to it, and without one the value it had. -/
theorem valueAt?_bindAll {t : Trace} (h : t.Solid) (bs : Bindings) (x : String) :
    (t.bindAll bs).valueAt? [.name x] = (bs.reverse.lookup x).or (t.valueAt? [.name x]) := by
  induction bs generalizing t with
  | nil => rfl
  | cons b bs ih =>
    obtain ⟨y, v⟩ := b
    have hnext : (t.bindAll ((y, v) :: bs)).valueAt? [.name x] =
        (bs.reverse.lookup x).or
          ((Trace.update (fun _ => some v) [.name y] t).valueAt? [.name x]) :=
      ih (h.update _ _)
    rw [hnext, List.reverse_cons, List.lookup_append, Option.or_assoc]
    by_cases hxy : x = y
    · subst hxy
      rw [h.valueAt?_update, List.lookup_cons_self]
      rfl
    · have hne : [Key.name x] ≠ [.name y] := by simpa using hxy
      rw [Trace.valueAt?_update_of_ne hne, List.lookup_cons, beq_false_of_ne hxy]
      rfl

theorem bindAll {t : Trace} (h : t.Solid) (bs : Bindings) : (t.bindAll bs).Solid := by
  induction bs generalizing t with
  | nil => exact h
  | cons b bs ih => exact ih (h.update _ _)

end Trace.Solid

theorem Trace.valueAt?_bindAll_of_ne {bs : Bindings} {a : Address}
    (h : ∀ b ∈ bs, a ≠ [.name b.1]) (t : Trace) : (t.bindAll bs).valueAt? a = t.valueAt? a := by
  induction bs generalizing t with
  | nil => rfl
  | cons b bs ih =>
    have hall := List.forall_mem_cons.mp h
    exact (ih hall.2 _).trans (Trace.valueAt?_update_of_ne hall.1 t)

/-! ## Texts -/

namespace Store

variable {s : Store} {v : Value} {vs : List Value}

/-- The elements of a sequence that has a text have texts. -/
theorem hasText_element {u : Value} (h : s.hasText v = true) (hvs : v.elements? = some vs)
    (hu : u ∈ vs) : s.hasText u = true := by
  have hchars {x : String} (hu : u ∈ x.toList.map Value.ofChar) : s.hasText u = true := by
    obtain ⟨c, -, rfl⟩ := List.mem_map.mp hu
    rfl
  cases v with
  | list us | tuple us =>
    cases hvs
    exact hasText_items.mp h u hu
  | quoted w | brackets us =>
    cases hvs
    cases List.mem_singleton.mp hu
    exact h
  | text x | symbol x =>
    cases hvs
    exact hchars hu
  | _ => cases hvs

theorem hasText_sameKind (source : Value) (h : ∀ v ∈ vs, s.hasText v = true) :
    s.hasText (source.sameKind vs) = true := by
  unfold Value.sameKind
  split <;> exact hasText_items.mpr h

theorem hasText_children {f : NodeId → Trace} {k : Key} {t : Trace} {cs : List (Key × Trace)}
    (h : childrenHaveText (expandChildren f cs) = true) (ht : (k, t) ∈ cs) :
    (t.expand f).hasText = true := by
  induction cs with
  | nil => cases ht
  | cons c cs ih =>
    rw [expandChildren, childrenHaveText, Bool.and_eq_true, Bool.and_eq_true] at h
    rcases List.mem_cons.mp ht with rfl | ht
    · exact h.1.2
    · exact ih h.2 ht

/-- The children of a tree that has a text have texts. -/
theorem hasText_child {value : Option Value} {cs : List (Key × Trace)} {k : Key} {t : Trace}
    (h : s.hasText (.trace (.tree value cs)) = true) (ht : (k, t) ∈ cs) :
    s.hasText (.trace t) = true := by
  cases value with
  | none => exact hasText_children h ht
  | some v => exact hasText_children (Bool.and_eq_true _ _ ▸ h : _ ∧ _).2 ht

end Store

/-- All that a message about a binding may show has a text: the values that it is about, and the
keys of the frame. -/
structure Machine.Legible (m : Machine) (id : FrameId) (vs : List Value) : Prop where
  value : ∀ v ∈ vs, m.store.hasText v = true
  key : ∀ k ∈ (m.bindings id).keys, k.hasText = true

namespace Machine.Legible

variable {m : Machine} {id : FrameId} {us vs : List Value}

theorem keys_update {t : Trace} (ht : ∀ k ∈ t.keys, k.hasText = true) (x : String)
    (f : Option Value → Option Value) :
    ∀ k ∈ (Trace.update f [.name x] t).keys, k.hasText = true := by
  cases t with
  | cell n => exact ht
  | tree v cs =>
    intro k hk
    obtain ⟨⟨j, u⟩, hmem, rfl⟩ := List.mem_map.mp hk
    rcases Store.mem_insertChild hmem with heq | hmem
    · cases heq
      rfl
    · exact ht j (List.mem_map_of_mem hmem)

theorem keys_bindAll {t : Trace} (ht : ∀ k ∈ t.keys, k.hasText = true) (bs : Bindings) :
    ∀ k ∈ (t.bindAll bs).keys, k.hasText = true := by
  induction bs generalizing t with
  | nil => exact ht
  | cons b bs ih => exact ih (keys_update ht b.1 _)

/-- Names have texts, so that bindings leave legible what was so. -/
theorem bindAll (h : m.Legible id vs) (bs : Bindings) : (m.bindAll id bs).Legible id vs where
  value := h.value
  key := by
    have hbindings := m.bindings_modify id (·.bindAll bs) id
    unfold Machine.bindAll
    rw [hbindings]
    split
    · exact keys_bindAll h.key bs
    · exact h.key

theorem reservedName (h : m.Legible id vs) :
    ∀ v ∈ (Fault.reservedName (m.bindings id).keys).shown, m.store.hasText v = true := by
  intro v hv
  obtain ⟨k, hk, rfl⟩ := List.mem_map.mp hv
  exact (m.store.hasText_key k).trans (h.key k hk)

theorem mono (h : m.Legible id vs) (hus : us ⊆ vs) : m.Legible id us :=
  ⟨fun u hu => h.value u (hus hu), h.key⟩

end Machine.Legible

/-! ## Outcomes -/

/-- How binding ends: with bindings as they should be, made in one frame, or, if there are no such
bindings, with a fault of patterns or scopes, whose message may not be legible. -/
def BindingEnds (id : FrameId) (m : Machine) (legible : Prop) (R : Bindings → Prop) :
    EStateM.Result Halt Machine Unit → Prop
  | .ok _ m' => ∃ bs, R bs ∧ m' = m.bindAll id bs
  | .error h _ => (∀ bs, ¬ R bs) ∧
      ((∃ f, h = .fault f ∧ (f.kind = .patternArity ∨ f.kind = .pattern ∨ f.kind = .scope)) ∨
        h = .fault .wrongValue ∧ ¬ legible)

namespace BindingEnds

variable {id : FrameId} {m : Machine} {P Q : Prop} {R S T : Bindings → Prop}

theorem raise {f : Fault} (hR : ∀ bs, ¬ R bs)
    (hf : f.kind = .patternArity ∨ f.kind = .pattern ∨ f.kind = .scope)
    (hshown : P → ∀ v ∈ f.shown, m.store.hasText v = true) :
    BindingEnds id m P R (Run.raise f m) := by
  refine ⟨hR, ?_⟩
  by_cases hP : P
  · exact .inl ⟨f, congrArg Halt.fault (Store.raised_of_hasText (hshown hP)), hf⟩
  · rcases m.store.raised_cases f with heq | heq
    · exact .inl ⟨f, congrArg Halt.fault heq, hf⟩
    · exact .inr ⟨congrArg Halt.fault heq, hP⟩

theorem pure (hR : R []) : BindingEnds id m P R ((Pure.pure () : Run Unit) m) :=
  ⟨[], hR, (m.bindAll_nil id).symm⟩

theorem iff {r : EStateM.Result Halt Machine Unit} (h : BindingEnds id m P R r)
    (hRS : ∀ bs, R bs ↔ S bs) : BindingEnds id m P S r := by
  obtain rfl : R = S := funext fun bs => propext (hRS bs)
  exact h

theorem mono {r : EStateM.Result Halt Machine Unit} (h : BindingEnds id m Q R r) (hPQ : P → Q) :
    BindingEnds id m P R r := by
  cases r with
  | ok _ _ => exact h
  | error _ _ =>
    obtain ⟨hR, hfault⟩ := h
    exact ⟨hR, hfault.imp_right fun ⟨heq, hQ⟩ => ⟨heq, fun hP => hQ (hPQ hP)⟩⟩

theorem seq {x y : Run Unit} (hx : BindingEnds id m P R (x m))
    (hy : ∀ bs, BindingEnds id (m.bindAll id bs) P S (y (m.bindAll id bs)))
    (hT : ∀ bs, T bs ↔ ∃ cs ds, R cs ∧ S ds ∧ bs = cs ++ ds) :
    BindingEnds id m P T ((x >>= fun _ => y) m) := by
  simp only [bind, EStateM.bind]
  revert hx
  generalize x m = r
  cases r with
  | error h m' =>
    rintro ⟨hR, hfault⟩
    refine ⟨fun bs hbs => ?_, hfault⟩
    obtain ⟨cs, -, hcs, -, -⟩ := (hT bs).mp hbs
    exact hR cs hcs
  | ok u m' =>
    rintro ⟨cs, hcs, rfl⟩
    have hends := hy cs
    revert hends
    dsimp only
    generalize y (m.bindAll id cs) = q
    cases q with
    | error h m' =>
      rintro ⟨hS, hfault⟩
      refine ⟨fun bs hbs => ?_, hfault⟩
      obtain ⟨-, ds, -, hds, -⟩ := (hT bs).mp hbs
      exact hS ds hds
    | ok u m' =>
      rintro ⟨ds, hds, rfl⟩
      exact ⟨cs ++ ds, (hT _).mpr ⟨cs, ds, hcs, hds, rfl⟩, m.bindAll_append id cs ds⟩

end BindingEnds

/-! ## Tuples -/

namespace Shape

/-- Whether a pattern is the rest marker. -/
def isRest : Shape → Bool
  | .rest => true
  | _ => false

/-- Whether the rest marker stands at most before the last of several parts. -/
def restPlaced : List Shape → Bool
  | [] => true
  | p :: ps => (!p.isRest || ps.length == 1) && restPlaced ps

theorem hasKind_toTrace (p : Shape) : p.toTrace.hasKind Pattern.restKind = p.isRest := by
  cases p with
  | name x => exact beq_false_of_ne (by simp [Value.kind?, Expression.Kind.word,
      Pattern.variableKind, Pattern.restKind])
  | rest => rfl
  | tuple ps => exact beq_false_of_ne (by simp [Value.kind?, Pattern.tupleKind, Pattern.restKind])

theorem Matches.not_isRest {p : Shape} {v : Value} {bs : Bindings} (h : p.Matches v bs) :
    p.isRest = false := by
  cases h with
  | name _ => rfl
  | tuple _ _ => rfl
  | gathering _ _ _ => rfl

/-- The bindings that items give to the parts of a tuple. -/
def TupleMatches (source : Value) (ps : List Shape) (vs : List Value) (bs : Bindings) : Prop :=
  PartsMatch ps vs bs ∨
    ∃ front last us ws cs ds, ps = front ++ [.rest, last] ∧ vs = us ++ ws ∧
      PartsMatch front us cs ∧ last.Matches (source.sameKind ws) ds ∧ bs = cs ++ ds

theorem matches_tuple {ps : List Shape} {v : Value} {bs : Bindings} :
    (Shape.tuple ps).Matches v bs ↔ ∃ vs, v.elements? = some vs ∧ TupleMatches v ps vs bs := by
  constructor
  · intro h
    cases h with
    | tuple helements hparts => exact ⟨_, helements, .inl hparts⟩
    | gathering helements hparts hlast =>
      exact ⟨_, helements, .inr ⟨_, _, _, _, _, _, rfl, rfl, hparts, hlast, rfl⟩⟩
  · rintro ⟨vs, helements, hparts | ⟨front, last, us, ws, cs, ds, rfl, rfl, hfront, hlast, rfl⟩⟩
    · exact .tuple helements hparts
    · exact .gathering helements hfront hlast

namespace TupleMatches

variable {source v : Value} {p last : Shape} {ps : List Shape} {vs : List Value} {bs : Bindings}

theorem nil_iff : TupleMatches source [] vs bs ↔ vs = [] ∧ bs = [] := by
  constructor
  · rintro (hparts | ⟨front, last, us, ws, cs, ds, hps, -⟩)
    · cases hparts
      exact ⟨rfl, rfl⟩
    · simp at hps
  · rintro ⟨rfl, rfl⟩
    exact .inl .nil

/-- The part after the rest marker receives all items. -/
theorem rest_iff :
    TupleMatches source [.rest, last] vs bs ↔ last.Matches (source.sameKind vs) bs := by
  constructor
  · rintro (hparts | ⟨front, last', us, ws, cs, ds, hps, rfl, hfront, hlast, rfl⟩)
    · cases hparts with
      | cons hrest _ => cases hrest
    · cases front with
      | nil =>
        cases hps
        cases hfront
        exact hlast
      | cons q front =>
        have hlength := congrArg List.length hps
        simp at hlength
  · intro h
    exact .inr ⟨[], last, [], vs, [], bs, rfl, rfl, .nil, h, rfl⟩

theorem cons_iff (hp : p.isRest = false) :
    TupleMatches source (p :: ps) (v :: vs) bs ↔
      ∃ cs ds, p.Matches v cs ∧ TupleMatches source ps vs ds ∧ bs = cs ++ ds := by
  constructor
  · rintro (hparts | ⟨front, last, us, ws, cs, ds, hps, hvs, hfront, hlast, rfl⟩)
    · cases hparts with
      | cons hv hvs => exact ⟨_, _, hv, .inl hvs, rfl⟩
    · cases hfront with
      | nil =>
        cases hps
        cases hp
      | cons hv hfront =>
        cases hps
        cases hvs
        exact ⟨_, _, hv, .inr ⟨_, _, _, _, _, _, rfl, rfl, hfront, hlast, rfl⟩,
          List.append_assoc _ _ _⟩
  · rintro ⟨cs, ds, hv, hparts | ⟨front, last, us, ws, es, fs, rfl, rfl, hfront, hlast, rfl⟩, rfl⟩
    · exact .inl (.cons hv hparts)
    · exact .inr ⟨p :: front, last, v :: us, ws, cs ++ es, fs, rfl, rfl, .cons hv hfront, hlast,
        (List.append_assoc _ _ _).symm⟩

theorem not_cons_nil (hp : p.isRest = false) : ¬ TupleMatches source (p :: ps) [] bs := by
  rintro (hparts | ⟨front, last, us, ws, cs, ds, hps, hvs, hfront, -, -⟩)
  · cases hparts
  · cases hfront with
    | nil =>
      cases hps
      cases hp
    | cons _ _ => cases hvs

end TupleMatches

/-- Nothing fits a tuple in which a rest marker is out of place. -/
theorem TupleMatches.restPlaced {source : Value} {ps : List Shape} {vs : List Value}
    {bs : Bindings} (h : TupleMatches source ps vs bs) : Shape.restPlaced ps = true := by
  induction ps generalizing vs bs with
  | nil => rfl
  | cons p ps ih =>
    cases hp : p.isRest with
    | false =>
      cases vs with
      | nil => exact absurd h (TupleMatches.not_cons_nil hp)
      | cons v vs =>
        obtain ⟨cs, ds, -, hvs, -⟩ := (TupleMatches.cons_iff hp).mp h
        rw [Shape.restPlaced, hp, ih hvs]
        rfl
    | true =>
      rcases h with hparts | ⟨front, last, us, ws, cs, ds, hps, -, hfront, hlast, -⟩
      · cases hparts with
        | cons hv _ => simp [hv.not_isRest] at hp
      · cases hfront with
        | nil =>
          cases hps
          simp [Shape.restPlaced, hlast.not_isRest]
        | cons hv _ =>
          cases hps
          simp [hv.not_isRest] at hp

end Shape

section Parts

variable {ctx : Context} {c : Scope} {id : FrameId}

/-- A part of a tuple, as it is bound. -/
def Shape.toPart (ctx : Context) (c : Scope) (p : Shape) : Pattern.Part :=
  ⟨p.isRest, p.toTrace.bindPattern ctx c⟩

theorem Shape.toTraces_eq_map (ps : List Shape) : Shape.toTraces ps = ps.map Shape.toTrace := by
  induction ps with
  | nil => rfl
  | cons p ps ih => rw [Shape.toTraces, ih, List.map_cons]

theorem lookup_toTraces (ps : List Shape) (i : Nat) :
    (patternParts ctx c (numbered 0 (Shape.toTraces ps))).lookup (.index (i : Nat)) =
      ps[i]?.map (Shape.toPart ctx c) := by
  have hchild := childAt?_numbered (Shape.toTraces ps) i 0
  rw [Nat.zero_add] at hchild
  rw [lookup_patternParts, hchild, Shape.toTraces_eq_map, List.getElem?_map, Option.map_map]
  congr 1
  funext p
  simp only [Function.comp_apply, Shape.hasKind_toTrace, Shape.toPart]

/-- The parts of a tuple are taken in order, if the rest marker is in place. -/
theorem orderParts_eq {parts : List (Key × Pattern.Part)} {f : Fault} {ps : List Shape}
    {i : Nat} (h : ∀ j, parts.lookup (.index (i + j : Nat)) = ps[j]?.map (Shape.toPart ctx c)) :
    Pattern.orderParts parts f (i + ps.length) ps.length i =
      if Shape.restPlaced ps then .ok (ps.map (Shape.toPart ctx c)) else .error f := by
  induction ps generalizing i with
  | nil => rfl
  | cons p ps ih =>
    have hfirst : parts.lookup (.index i) = some (p.toPart ctx c) := h 0
    have hlater := ih (i := i + 1) fun j => by
      rw [show i + 1 + j = i + (j + 1) by omega, h (j + 1), List.getElem?_cons_succ]
    have hcount : (i + 2 != i + (ps.length + 1)) = !(ps.length == 1) := by
      simp only [bne, Bool.not_eq_eq_eq_not, Bool.not_not]
      by_cases hps : ps.length = 1
      · simp [hps]
      · have hne : i + 2 ≠ i + (ps.length + 1) := by omega
        rw [beq_false_of_ne hps, beq_false_of_ne hne]
    rw [show i + 1 + ps.length = i + (ps.length + 1) by omega] at hlater
    have hflip (a b : Bool) : (!a || b) = !(a && !b) := by
      cases a <;> cases b <;> rfl
    have hpart : (p.toPart ctx c).isRest = p.isRest := rfl
    simp only [List.length_cons, Pattern.orderParts, hfirst, hpart, hcount, hlater,
      Shape.restPlaced, hflip]
    generalize (p.isRest && !(ps.length == 1)) = bad
    cases bad <;> cases Shape.restPlaced ps <;> rfl

theorem bindParts_ends {few many : Fault} (hfew : few.kind = .patternArity)
    (hmany : many.kind = .patternArity) (source : Value) {ps : List Shape}
    (hplaced : Shape.restPlaced ps = true)
    (hps : ∀ p ∈ ps, ∀ v m, BindingEnds id m (m.Legible id [.trace p.toTrace, v]) (p.Matches v)
      (p.toTrace.bindPattern ctx c v m))
    (vs : List Value) (m : Machine) {P : Prop}
    (hP : P → m.Legible id (few.shown ++ many.shown ++ ps.map (.trace ·.toTrace) ++ vs)) :
    BindingEnds id m P (Shape.TupleMatches source ps vs)
      (Pattern.bindParts few many source (ps.map (Shape.toPart ctx c)) vs m) := by
  induction ps generalizing vs m with
  | nil =>
    cases vs with
    | nil => exact .pure (Shape.TupleMatches.nil_iff.mpr ⟨rfl, rfl⟩)
    | cons v vs =>
      refine .raise (fun bs hbs => ?_) (.inl hmany) fun h => ((hP h).mono (by simp)).value
      cases (Shape.TupleMatches.nil_iff.mp hbs).1
  | cons p ps ih =>
    rw [Shape.restPlaced, Bool.and_eq_true] at hplaced
    cases hp : p.isRest with
    | true =>
      -- A rest that is placed well has one pattern after it, for all the values that are left.
      obtain ⟨last, rfl⟩ : ∃ last, ps = [last] := by
        rw [← List.length_eq_one_iff]
        simpa [hp] using hplaced.1
      obtain rfl : p = .rest := by
        cases p with
        | rest => rfl
        | name _ => cases hp
        | tuple _ => cases hp
      have hlast := hps last (List.mem_cons_of_mem _ List.mem_cons_self) (source.sameKind vs) m
      refine (hlast.iff fun bs => Shape.TupleMatches.rest_iff.symm).mono fun h => ?_
      have hvs : m.Legible id vs := (hP h).mono (List.subset_append_right _ vs)
      have hpattern : m.Legible id [.trace last.toTrace] := (hP h).mono (by simp)
      exact ⟨List.forall_mem_cons.mpr ⟨hpattern.value _ List.mem_cons_self,
        List.forall_mem_singleton.mpr (Store.hasText_sameKind source hvs.value)⟩, hvs.key⟩
    | false =>
      have hlater := ih hplaced.2 (fun q hq => hps q (List.mem_cons_of_mem _ hq))
      have hpart : (p.toPart ctx c).isRest = false := hp
      simp only [List.map_cons, Pattern.bindParts, hpart, Bool.false_eq_true, if_false]
      cases vs with
      | nil =>
        exact .raise (fun bs => Shape.TupleMatches.not_cons_nil hp) (.inl hfew)
          fun h => ((hP h).mono (by simp)).value
      | cons v vs =>
        have hfirst := (hps p List.mem_cons_self v m).mono fun h => (hP h).mono (by simp)
        refine hfirst.seq (fun bs => ?_) fun bs => Shape.TupleMatches.cons_iff hp
        exact hlater vs (m.bindAll id bs) fun h => ((hP h).mono (by grind)).bindAll bs

end Parts

theorem bindName_ends (ctx : Context) (id : FrameId) (outer : Scope) (x : String) (v : Value)
    (m : Machine) :
    BindingEnds id m (m.Legible id [.trace (Shape.name x).toTrace, v]) ((Shape.name x).Matches v)
      (Run.bindName ctx (.frame id outer) (.text x) v m) := by
  show BindingEnds id m _ _ (Run.defineIn id (.text x) v m)
  by_cases hx : x = reservedName
  · rw [hx, Run.defineIn_reserved]
    refine .raise (fun bs hbs => ?_) (.inr (.inr rfl)) fun h => h.reservedName
    cases hbs with
    | name hne => exact hne rfl
  · rw [Run.defineIn_text hx]
    exact ⟨[(x, v)], .name hx, rfl⟩

/-- What the parts of a tuple may show is legible if what the tuple may show is. -/
theorem Machine.Legible.parts {m : Machine} {id : FrameId} {ps : List Shape} {v : Value}
    {vs : List Value} (h : m.Legible id [.trace (Shape.tuple ps).toTrace, v])
    (hvs : v.elements? = some vs) :
    m.Legible id ((.trace (Shape.tuple ps).toTrace :: vs) ++
      (.trace (Shape.tuple ps).toTrace :: vs) ++ ps.map (.trace ·.toTrace) ++ vs) := by
  obtain ⟨hpattern, hinputs⟩ := List.forall_mem_cons.mp h.value
  have helement (u : Value) (hu : u ∈ vs) : m.store.hasText u = true :=
    Store.hasText_element (hinputs v List.mem_cons_self) hvs hu
  have hpart (u : Value) (hu : u ∈ ps.map (.trace ·.toTrace)) : m.store.hasText u = true := by
    obtain ⟨p, hp, rfl⟩ := List.mem_map.mp hu
    obtain ⟨i, hi⟩ := List.mem_iff_getElem?.mp hp
    have htrace : (Shape.toTraces ps)[i]? = some p.toTrace := by
      rw [Shape.toTraces_eq_map, List.getElem?_map, hi, Option.map_some]
    exact Store.hasText_child hpattern
      (mem_of_childAt? ((childAt?_numbered (Shape.toTraces ps) i 0).trans htrace))
  refine ⟨?_, h.key⟩
  simp only [List.forall_mem_append, List.forall_mem_cons]
  exact ⟨⟨⟨⟨hpattern, helement⟩, hpattern, helement⟩, hpart⟩, helement⟩

theorem tuple_ends {ctx : Context} {c : Scope} {id : FrameId} {ps : List Shape}
    (hps : ∀ p ∈ ps, ∀ v m, BindingEnds id m (m.Legible id [.trace p.toTrace, v]) (p.Matches v)
      (p.toTrace.bindPattern ctx c v m))
    (v : Value) (m : Machine) :
    BindingEnds id m (m.Legible id [.trace (Shape.tuple ps).toTrace, v])
      ((Shape.tuple ps).Matches v) ((Shape.tuple ps).toTrace.bindPattern ctx c v m) := by
  have hcount : (numbered 0 (Shape.toTraces ps)).length = ps.length := by
    rw [length_numbered, Shape.toTraces_eq_map, List.length_map]
  have horder (f : Fault) : Pattern.orderParts
      (patternParts ctx c (numbered 0 (Shape.toTraces ps))) f ps.length ps.length 0 =
      if Shape.restPlaced ps then .ok (ps.map (Shape.toPart ctx c)) else .error f := by
    have hlookup (j : Nat) : (patternParts ctx c (numbered 0 (Shape.toTraces ps))).lookup
        (.index (0 + j : Nat)) = ps[j]?.map (Shape.toPart ctx c) := by
      rw [Nat.zero_add, lookup_toTraces]
    have heq := orderParts_eq (f := f) hlookup
    rwa [Nat.zero_add] at heq
  simp only [Shape.toTrace, Expression.tuplePattern, Trace.node, Trace.bindPattern]
  rw [if_neg (by decide), if_pos (by decide), hcount, horder]
  by_cases hplaced : Shape.restPlaced ps = true
  · rw [if_pos hplaced]
    cases helements : v.elements? with
    | none =>
      refine .raise (fun bs hbs => ?_) (.inr (.inl rfl)) fun h => h.value
      obtain ⟨vs, hvs, -⟩ := Shape.matches_tuple.mp hbs
      rw [helements] at hvs
      cases hvs
    | some vs =>
      refine (bindParts_ends rfl rfl v hplaced hps vs m fun h => h.parts helements).iff fun bs => ?_
      rw [Shape.matches_tuple, helements]
      constructor
      · intro h
        exact ⟨vs, rfl, h⟩
      · rintro ⟨us, hus, h⟩
        cases hus
        exact h
  -- A rest that is misplaced is refused whatever the value is, and such a pattern matches none.
  · rw [if_neg hplaced]
    refine BindingEnds.raise (fun bs hbs => ?_) (.inr (.inl rfl)) fun h => h.value
    obtain ⟨vs, -, hvs⟩ := Shape.matches_tuple.mp hbs
    exact hplaced hvs.restPlaced

mutual

/-- Binding a pattern ends as the inputs fit it. -/
theorem Shape.bindPattern_ends (ctx : Context) (id : FrameId) (outer : Scope) :
    ∀ (p : Shape) (v : Value) (m : Machine),
      BindingEnds id m (m.Legible id [.trace p.toTrace, v]) (p.Matches v)
        (p.toTrace.bindPattern ctx (.frame id outer) v m)
  | .name x, v, m => bindName_ends ctx id outer x v m
  | .rest, _, _ => .raise (fun _ hbs => nomatch hbs) (.inr (.inl rfl)) fun h => h.value
  | .tuple ps, v, m => tuple_ends (Shape.bindPatterns_ends ctx id outer ps) v m

theorem Shape.bindPatterns_ends (ctx : Context) (id : FrameId) (outer : Scope) :
    ∀ (ps : List Shape), ∀ p ∈ ps, ∀ (v : Value) (m : Machine),
      BindingEnds id m (m.Legible id [.trace p.toTrace, v]) (p.Matches v)
        (p.toTrace.bindPattern ctx (.frame id outer) v m)
  | [] => List.forall_mem_nil _
  | p :: ps => List.forall_mem_cons.mpr
    ⟨p.bindPattern_ends ctx id outer, Shape.bindPatterns_ends ctx id outer ps⟩

end

/-! ## Binding a pattern -/

/-- What bindings in one frame change: each name has the last value that was bound to it, and
everything else is as it was.  The frame is still a tree without cells of the store. -/
structure Machine.Overridden (m : Machine) (id : FrameId) (bs : Bindings) (m' : Machine) :
    Prop where
  named : ∀ x, (m'.bindings id).valueAt? [.name x] =
    (bs.reverse.lookup x).or ((m.bindings id).valueAt? [.name x])
  others : ∀ a, (∀ x, a ≠ [.name x]) → (m'.bindings id).valueAt? a = (m.bindings id).valueAt? a
  solid : (m'.bindings id).Solid
  elsewhere : ∀ i, i ≠ id → m'.bindings i = m.bindings i
  size : m'.frames.size = m.frames.size
  framesOnly : m' = { m with frames := m'.frames }

theorem Machine.overridden_bindAll {m : Machine} {id : FrameId} (hid : id < m.frames.size)
    (hframe : (m.bindings id).Solid) (bs : Bindings) : m.Overridden id bs (m.bindAll id bs) := by
  have hbindings (i : FrameId) : (m.bindAll id bs).bindings i =
      if i = id ∧ id < m.frames.size then (m.bindings id).bindAll bs else m.bindings i :=
    m.bindings_modify id _ i
  have hown : (m.bindAll id bs).bindings id = (m.bindings id).bindAll bs := by
    rw [hbindings, if_pos ⟨rfl, hid⟩]
  constructor
  · intro x
    rw [hown, hframe.valueAt?_bindAll]
  · intro a ha
    rw [hown]
    exact Trace.valueAt?_bindAll_of_ne (fun b _ => ha b.1) _
  · rw [hown]
    exact hframe.bindAll bs
  · intro i hi
    rw [hbindings, if_neg fun h => hi h.1]
  · exact Array.size_modify
  · rfl

/-- Binding a pattern that was built from a form returns exactly on the inputs that fit it.  When
it returns, the frame has the bindings of the pattern over its own, later ones over earlier ones,
and nothing else is changed.  When it does not return, the fault is one of patterns or scopes,
unless its message would show something that has no text.

A frame is a tree without cells of the store: a new one is empty, and bindings keep it so. -/
theorem matchBind_exact {form : Value} {pattern : Trace}
    (hbuild : Expression.buildPattern form = .ok pattern) (ctx : Context) (id : FrameId)
    (outer : Scope) (inputs : Value) {m : Machine} (hid : id < m.frames.size)
    (hframe : (m.bindings id).Solid) :
    ∃ p : Shape, p.toTrace = pattern ∧
      ((∃ m', Run.matchBind ctx (.frame id outer) (.trace pattern) inputs m = .ok () m') ↔
        ∃ bs, p.Matches inputs bs) ∧
      (∀ m', Run.matchBind ctx (.frame id outer) (.trace pattern) inputs m = .ok () m' →
        ∃ bs, p.Matches inputs bs ∧ m.Overridden id bs m') ∧
      ∀ h m', Run.matchBind ctx (.frame id outer) (.trace pattern) inputs m = .error h m' →
        (∃ f, h = .fault f ∧
          (f.kind = .patternArity ∨ f.kind = .pattern ∨ f.kind = .scope)) ∨
        h = .fault .wrongValue ∧ ¬ m.Legible id [.trace pattern, inputs] := by
  obtain ⟨p, rfl⟩ := Shape.exists_of_patternTree (Expression.tree_of_buildPattern hbuild)
  have hends := p.bindPattern_ends ctx id outer inputs m
  rw [← p.matchBind_toTrace] at hends
  refine ⟨p, rfl, ?_⟩
  revert hends
  cases Run.matchBind ctx (.frame id outer) (.trace p.toTrace) inputs m with
  | ok u m' =>
    rintro ⟨bs, hbs, rfl⟩
    refine ⟨⟨fun _ => ⟨bs, hbs⟩, fun _ => ⟨_, rfl⟩⟩, ?_, ?_⟩
    · intro m' hm'
      cases hm'
      exact ⟨bs, hbs, m.overridden_bindAll hid hframe bs⟩
    · intro h m' hm'
      cases hm'
  | error h m' =>
    rintro ⟨hnone, hfault⟩
    refine ⟨⟨?_, ?_⟩, ?_, ?_⟩
    · rintro ⟨m', hm'⟩
      cases hm'
    · rintro ⟨bs, hbs⟩
      exact absurd hbs (hnone bs)
    · intro m' hm'
      cases hm'
    · intro h' m' hm'
      cases hm'
      exact hfault

/-- The form of the pattern `(a & (b & a))`, in which a rest is taken apart once more and a name
stands twice. -/
def nestedRest : Value :=
  .list [.symbol "a", .symbol "&", .list [.symbol "b", .symbol "&", .symbol "a"]]

theorem nestedRest_matches : ∃ (p : Shape) (bs : Bindings),
    p.Matches (.tuple [.int 1, .int 2, .int 3]) bs ∧
      bs.reverse.lookup "a" = some (.tuple [.int 3]) := by
  let ctx : Context := { topLevel := .names [], stream := fun _ => 0 }
  let m : Machine := { frames := #[.empty] }
  have hbuild : Expression.buildPattern nestedRest = .ok _ := rfl
  have hframe : (m.bindings 0).Solid := .tree (List.forall_mem_nil _)
  obtain ⟨p, -, -, hbound, -⟩ := matchBind_exact hbuild ctx 0 .top
    (.tuple [.int 1, .int 2, .int 3]) (m := m) (by decide) hframe
  obtain ⟨bs, hbs, hover⟩ := hbound _ rfl
  have hnamed : some (.tuple [.int 3]) = (bs.reverse.lookup "a").or none := hover.named "a"
  rw [Option.or_none] at hnamed
  exact ⟨p, bs, hbs, hnamed.symm⟩

/-- The pattern without parts takes no input.  If the input has too many digits to be written, the
message that says so cannot be composed, and the fault is not one of patterns or scopes. -/
theorem emptyPattern_longInput :
    let m : Machine := { frames := #[.empty] }
    ∃ pattern f, Expression.buildPattern (.list []) = .ok pattern ∧
      Run.matchBind .halves (.frame 0 .top) (.trace pattern)
        (.list [.int (Int.pow 10 Number.digitLimit)]) m = .error (.fault f) m ∧
      ¬ (f.kind = .patternArity ∨ f.kind = .pattern ∨ f.kind = .scope) := by
  have hlong (expected : Nat) (pattern : Value) : Store.raised {}
      (.tooManyInputs [.int (Int.pow 10 Number.digitLimit)] expected pattern) = .wrongValue :=
    Store.raised_of_not_hasText (List.mem_cons_of_mem _ List.mem_cons_self)
      Number.hasText_pow_digitLimit
  refine ⟨_, .wrongValue, rfl, ?_, by decide⟩
  show EStateM.Result.error (Halt.fault (Store.raised {} _)) _ = _
  rw [hlong]

end ProbTrace
