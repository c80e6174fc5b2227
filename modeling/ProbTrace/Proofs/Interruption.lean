import ProbTrace.Proofs.Editing
import ProbTrace.Proofs.Unfolding

/-!
# Edits that fail part way

Reaching an address adds nodes one after the other, so that it may fail after some were added.  It
does not fail at a node that cannot be written to: those that were added can be, and so such a node
is met before the first one is added, if at all.  What remains is an address with something in it
that is no key.  Then the nodes for the keys in front of it stay, and hold no value.

Nodes may be shared, and a trace may have some that can be written to and some that cannot.
-/

namespace ProbTrace

namespace Trace

/-- Every cell of a trace is there. -/
def Anchored (s : Store) (t : Trace) : Prop :=
  ∀ {a n}, s.find? t a = some (.cell n) → n < s.cells.size

section Anchored

variable {s : Store} {t u : Trace} {n : NodeId} {k : Key} {a : Address}

theorem Anchored.child (h : t.Anchored s) (hu : s.child? t k = some u) : u.Anchored s := by
  intro b i hi
  refine h (a := k :: b) ?_
  rw [Store.find?, hu]
  exact hi

theorem Anchored.grow (h : t.Anchored s) (hn : n < s.cells.size) : t.Anchored (s.grow n k) := by
  intro b i hi
  rw [Store.size_grow]
  rcases Store.find?_grow hn hi with hold | hnew
  · exact Nat.lt_succ_of_lt (h hold)
  · cases hnew
    exact Nat.lt_succ_self _

theorem Writable.anchored (h : t.Writable s) : t.Anchored s := by
  intro a n hn
  obtain ⟨_, ⟨⟩, hlt, -⟩ := h a _ hn
  exact hlt

end Anchored

end Trace

namespace Store

/-- A store after an address was reached from a trace.  What was there stays, but that nodes of the
trace may have new children after the others; and the cells that are new are all on the way to the
address. -/
structure Extended (s : Store) (t : Trace) (a : Address) (s' : Store) : Prop where
  value : ∀ x, s'.value? x = s.value? x
  writable : ∀ x, s'.isWritable x = s.isWritable x
  order : ∀ x, s.children x <+: s'.children x
  elsewhere : ∀ {n}, n < s.cells.size → (∀ c, s.find? t c ≠ some (.cell n)) →
    s'.children (.cell n) = s.children (.cell n)
  kept : s.FoundIn s'
  anchored : ∀ {r : Trace}, r.Anchored s → r.Anchored s'
  new : ∀ {r : Trace} {c x}, r.Anchored s → s'.find? r c = some x →
    s.find? r c = some x ∨ ∃ n, x = .cell n ∧ s.cells.size ≤ n
  onWay : ∀ {n}, s.cells.size ≤ n → n < s'.cells.size →
    ∃ p, p <+: a ∧ s'.find? t p = some (.cell n)

namespace Extended

variable {s s' : Store} {t u : Trace} {n : NodeId} {k : Key} {a : Address}

theorem refl : s.Extended t a s where
  value _ := rfl
  writable _ := rfl
  order _ := List.prefix_refl _
  elsewhere _ _ := rfl
  kept h := h
  anchored h := h
  new _ h := .inl h
  onWay hold hnew := absurd hnew (Nat.not_lt.mpr hold)

theorem child?_eq (h : s.Extended t a s') {x : Trace} (hchild : s.child? x k = some u) :
    s'.child? x k = some u := by
  rw [← find?_singleton] at hchild ⊢
  exact h.kept hchild

/-- What is on the way from a child is on the way from its parent. -/
theorem ofChild (h : s.Extended u a s') (hchild : s.child? t k = some u) :
    s.Extended t (k :: a) s' :=
  { h with
    elsewhere := by
      intro n hn hnot
      refine h.elsewhere hn fun c hc => hnot (k :: c) ?_
      rw [find?, hchild]
      exact hc
    onWay := by
      intro n hold hnew
      obtain ⟨p, hp, hfind⟩ := h.onWay hold hnew
      refine ⟨k :: p, List.cons_prefix_cons.mpr ⟨rfl, hp⟩, ?_⟩
      rw [find?, h.child?_eq hchild]
      exact hfind }

/-- A node is added. -/
theorem grow (hn : n < s.cells.size) (hmissing : s.child? (.cell n) k = none) :
    s.Extended (.cell n) [k] (s.grow n k) where
  value := value?_grow s n k
  writable := isWritable_grow s n k
  order x := by
    by_cases hx : x = .cell n
    · rw [hx, children_grow_self hn hmissing]
      exact List.prefix_append _ _
    · simp only [children_grow_of_ne hx, List.prefix_refl]
  elsewhere _ hnot := children_grow_of_ne fun heq => hnot [] (congrArg some heq.symm)
  kept hx := find?_grow_of_some hmissing hx
  anchored hr := hr.grow hn
  new _ hx := by
    rcases find?_grow hn hx with hold | rfl
    · exact .inl hold
    · exact .inr ⟨_, rfl, Nat.le_refl _⟩
  onWay hold hnew := by
    rw [size_grow] at hnew
    obtain rfl := Nat.le_antisymm hold (Nat.le_of_lt_succ hnew)
    refine ⟨[k], List.prefix_refl _, ?_⟩
    rw [find?_singleton]
    exact child?_grow_self hn

/-- One node was added, and then those below it. -/
theorem ofGrow (hn : n < s.cells.size) (hmissing : s.child? (.cell n) k = none)
    (h : (s.grow n k).Extended (.cell s.cells.size) a s') : s.Extended (.cell n) (k :: a) s' := by
  have hfirst := grow hn hmissing
  have hrest := h.ofChild (child?_grow_self hn)
  constructor
  · intro x
    rw [hrest.value, hfirst.value]
  · intro x
    rw [hrest.writable, hfirst.writable]
  · intro x
    exact (hfirst.order x).trans (hrest.order x)
  · intro i hi hnot
    have hlt : i < (s.grow n k).cells.size := by
      rw [size_grow]
      exact Nat.lt_succ_of_lt hi
    rw [hrest.elsewhere hlt, hfirst.elsewhere hi hnot]
    intro c hc
    rcases find?_grow hn hc with hold | hnew
    · exact hnot c hold
    · cases hnew
      exact Nat.lt_irrefl _ hi
  · intro r c x hx
    exact hrest.kept (hfirst.kept hx)
  · intro r hr
    exact hrest.anchored (hfirst.anchored hr)
  · intro r c x hr hx
    rcases hrest.new (hfirst.anchored hr) hx with hgrown | ⟨i, rfl, hi⟩
    · exact hfirst.new hr hgrown
    · rw [size_grow] at hi
      exact .inr ⟨i, rfl, Nat.le_of_succ_le hi⟩
  -- A cell that is new is the one just added, or was added below it.
  · intro i hold hnew
    by_cases hlater : (s.grow n k).cells.size ≤ i
    · exact hrest.onWay hlater hnew
    · obtain ⟨p, hp, hfind⟩ := hfirst.onWay hold (Nat.lt_of_not_le hlater)
      exact ⟨p, hp.trans (List.prefix_append [k] a), hrest.kept hfind⟩

/-- A trace that has no cell of the other one stays as it is. -/
theorem unchanged (h : s.Extended t a s') {r : Trace} (hr : r.Anchored s)
    (hapart : ∀ {b c n}, s.find? t b = some (.cell n) → s.find? r c ≠ some (.cell n)) :
    r.Unchanged s s' := by
  intro c x hx
  refine ⟨h.value x, ?_, h.writable x⟩
  cases x with
  | tree _ _ => rfl
  | cell n => exact h.elsewhere (hr hx) fun b hb => hapart hb hx

/-- A node that was not there is a new one without a value, and is on the way to the address. -/
theorem added (h : s.Extended t a s') (ht : t.Anchored s) {c : Address} {x : Trace}
    (hx : s'.find? t c = some x) (hnew : s.find? t c = none) :
    s'.value? x = none ∧ ∃ p, p <+: a ∧ s.find? t p = none ∧ s'.find? t p = some x := by
  rcases h.new ht hx with hold | ⟨n, rfl, hn⟩
  · rw [hnew] at hold
    cases hold
  · obtain ⟨p, hp, hfind⟩ := h.onWay hn (h.anchored ht hx)
    refine ⟨?_, p, hp, ?_, hfind⟩
    · rw [h.value, value?, cell_of_size_le hn]
    · cases hold : s.find? t p with
      | none => rfl
      | some y =>
        rw [h.kept hold] at hfind
        cases hfind
        exact absurd (ht hold) (Nat.not_lt.mpr hn)

theorem valueAt?_eq (h : s.Extended t a s') {r : Trace} (hr : r.Anchored s) (c : Address) :
    s'.valueAt? r c = s.valueAt? r c := by
  cases hold : s.find? r c with
  | some x => simp only [valueAt?, hold, h.kept hold, Option.bind_some, h.value]
  | none =>
    cases hx : s'.find? r c with
    | none => simp only [valueAt?, hold, hx, Option.bind_none]
    | some x =>
      rcases h.new hr hx with hthere | ⟨n, rfl, hn⟩
      · rw [hold] at hthere
        cases hthere
      · rw [valueAt?, valueAt?, hold, hx, Option.bind_some, Option.bind_none, h.value, value?,
          cell_of_size_le hn]

end Extended

end Store

namespace Trace

variable {s s' : Store} {t u : Trace} {a : Address} {f : Fault}

/-- Reaching an address adds nodes on the way to it only, and the node is then there. -/
theorem Anchored.reach (h : t.Anchored s) (hreach : t.reach a s = .ok u s') :
    s.Extended t a s' ∧ s'.find? t a = some u := by
  induction a generalizing t s with
  | nil =>
    cases hreach
    exact ⟨.refl, rfl⟩
  | cons k a ih =>
    cases hchild : s.child? t k with
    | some x =>
      rw [reach_found hchild] at hreach
      obtain ⟨hextended, hfind⟩ := ih (h.child hchild) hreach
      refine ⟨hextended.ofChild hchild, ?_⟩
      rw [Store.find?, hextended.child?_eq hchild]
      exact hfind
    | none =>
      rcases isWritable_cases t s with hw | ⟨n, rfl, hw⟩
      · rw [reach_readOnly hchild hw] at hreach
        cases hreach
      · have hn : n < s.cells.size := h (a := []) rfl
        rw [reach_missing hchild hw] at hreach
        obtain ⟨hextended, hfind⟩ := ih writable_grow.anchored hreach
        refine ⟨.ofGrow hn hchild hextended, ?_⟩
        rw [Store.find?, hextended.child?_eq (Store.child?_grow_self hn)]
        exact hfind

/-- The ways in which reaching an address ends: the node was there, or a node that is missing would
be below one that cannot be written to, or nodes were added and the last one can be written to. -/
theorem reach_cases (t : Trace) (a : Address) (s : Store) :
    (∃ u, t.reach a s = .ok u s) ∨ (∃ x, t.reach a s = .error (.readOnly x) s) ∨
      ∃ u s', t.reach a s = .ok u s' ∧ s'.isWritable u = true := by
  induction a generalizing t with
  | nil => exact .inl ⟨t, rfl⟩
  | cons k a ih =>
    cases hchild : s.child? t k with
    | some x =>
      rw [reach_found hchild]
      exact ih x
    | none =>
      rcases isWritable_cases t s with hw | ⟨n, rfl, hw⟩
      · exact .inr (.inl ⟨t, reach_readOnly hchild hw⟩)
      · -- Below a node that was added nothing fails.
        obtain ⟨u, s', hreach, -, hu, -⟩ :=
          exists_reach (a := a) (writable_grow (s := s) (n := n) (k := k))
        exact .inr (.inr ⟨u, s', (reach_missing hchild hw).trans hreach, hu⟩)

/-- Reaching an address fails only before a node was added, at one that cannot be written to. -/
theorem reach_error (h : t.reach a s = .error f s') : s' = s ∧ ∃ x, f = .readOnly x := by
  rcases reach_cases t a s with ⟨u, hu⟩ | ⟨x, hx⟩ | ⟨u, s₁, hu, -⟩
  · cases h.symm.trans hu
  · cases h.symm.trans hx
    exact ⟨rfl, x, rfl⟩
  · cases h.symm.trans hu

/-- A node that is reached was there, or can be written to. -/
theorem reach_ok (h : t.reach a s = .ok u s') : s' = s ∨ s'.isWritable u = true := by
  rcases reach_cases t a s with ⟨x, hx⟩ | ⟨x, hx⟩ | ⟨x, s₁, hx, hw⟩
  · cases h.symm.trans hx
    exact .inl rfl
  · cases h.symm.trans hx
  · cases h.symm.trans hx
    exact .inr hw

/-! ## Failed writes -/

variable {x : Value}

/-- The ways in which an edit at an address given as a value fails: at a node that cannot be written
to, with nothing changed, or at something that is no key, with the nodes in front of it reached. -/
inductive Interrupted (s : Store) (t : Trace) (x : Value) : Fault → Store → Prop
  | readOnly (u : Trace) : Interrupted s t x (.readOnly u) s
  | invalidKey {a : Address} {key : Value} {u : Trace} {s' : Store} :
      Address.ofValues x.addressItems = (a, some key) → t.reach a s = .ok u s' →
      Interrupted s t x (.invalidKey .inTrace key x) s'

/-- An address given as a value is one, or it is reached as far as it is one. -/
theorem reachAt_cases (t : Trace) (x : Value) (s : Store) :
    (∃ a, x.address? = some a ∧ t.reachAt x s = t.reach a s) ∨
      ∃ a key, Address.ofValues x.addressItems = (a, some key) ∧ t.reachAt x s =
        (t.reach a >>= fun _ => throw (.invalidKey .inTrace key x) : Edit Trace) s := by
  cases hkeys : Address.ofValues x.addressItems with
  | mk a bad =>
    cases bad with
    | none =>
      have hx : x.address? = some a := by rw [Value.address?, hkeys]
      exact .inl ⟨a, hx, reachAt_of_address? hx s⟩
    | some key =>
      refine .inr ⟨a, key, rfl, ?_⟩
      rw [reachAt, hkeys]

theorem interrupted_reachAt (h : t.reachAt x s = .error f s') : Interrupted s t x f s' := by
  rcases reachAt_cases t x s with ⟨a, -, hreach⟩ | ⟨a, key, hkeys, hreach⟩
  · rw [hreach] at h
    obtain ⟨rfl, y, rfl⟩ := reach_error h
    exact .readOnly y
  · rw [hreach] at h
    simp only [bind, EStateM.bind] at h
    cases hvalid : t.reach a s with
    | error g r =>
      rw [hvalid] at h
      cases h
      obtain ⟨rfl, y, rfl⟩ := reach_error hvalid
      exact .readOnly y
    | ok u r =>
      rw [hvalid] at h
      cases h
      exact .invalidKey hkeys hvalid

theorem reachAt_ok (h : t.reachAt x s = .ok u s') :
    ∃ a, x.address? = some a ∧ t.reach a s = .ok u s' := by
  rcases reachAt_cases t x s with ⟨a, hx, hreach⟩ | ⟨a, key, -, hreach⟩
  · exact ⟨a, hx, hreach ▸ h⟩
  · rw [hreach] at h
    simp only [bind, EStateM.bind] at h
    cases hvalid : t.reach a s with
    | error g r =>
      rw [hvalid] at h
      cases h
    | ok u r =>
      rw [hvalid] at h
      cases h

theorem interrupted_putAt {v : Value} (h : t.putAt x v s = .error f s') :
    Interrupted s t x f s' := by
  rcases isWritable_cases t s with hw | ⟨n, rfl, hw⟩
  · simp only [putAt, bind, EStateM.bind, writableCell_readOnly hw] at h
    cases h
    exact .readOnly t
  · simp only [putAt, bind, EStateM.bind, writableCell_ok hw] at h
    cases hreached : (Trace.cell n).reachAt x s with
    | error g r =>
      rw [hreached] at h
      cases h
      exact interrupted_reachAt hreached
    | ok u r =>
      obtain ⟨a, -, hreach⟩ := reachAt_ok hreached
      have hput : u.put (some v) r = .error f s' := by
        rw [hreached] at h
        exact h
      rcases put_cases u (some v) r with ⟨_, -, -, hdone⟩ | ⟨hu, hfailed⟩
      · rw [hdone] at hput
        cases hput
      · rw [hfailed] at hput
        cases hput
        rcases reach_ok hreach with rfl | hw'
        · exact .readOnly u
        · rw [hu] at hw'
          cases hw'

/-- What a write that fails leaves behind.  The trace looks as before exactly if it was a node that
could not be written to, or if the nodes for the keys in front of what is no key were all there.  In
every case the nodes that were there stay, with their values and their children in order, and a node
that was not there is one on the way to the address and holds no value. -/
theorem Anchored.failed_write (h : t.Anchored s) {v : Value}
    (hfails : t.putAt x v s = .error f s' ∨ t.reachAt x s = .error f s') :
    ((∀ b, s'.seenAt? t b = s.seenAt? t b) ↔
      f.kind = .readOnly ∨ (s.find? t (Address.ofValues x.addressItems).1).isSome) ∧
    (∀ b, s'.valueAt? t b = s.valueAt? t b) ∧
    (∀ b y, s.find? t b = some y → s'.find? t b = some y ∧ s.children y <+: s'.children y) ∧
    ∀ b y, s'.find? t b = some y → s.find? t b = none → s'.value? y = none ∧
      ∃ p, p <+: (Address.ofValues x.addressItems).1 ∧ s.find? t p = none ∧
        s'.find? t p = some y := by
  have hinterrupted : Interrupted s t x f s' := hfails.elim interrupted_putAt interrupted_reachAt
  cases hinterrupted with
  | readOnly u =>
    refine ⟨⟨fun _ => .inl rfl, fun _ _ => rfl⟩, fun _ => rfl,
      fun _ _ hy => ⟨hy, List.prefix_refl _⟩, ?_⟩
    intro b y hy hnone
    rw [hnone] at hy
    cases hy
  | @invalidKey a key u _ hkeys hreach =>
    obtain ⟨hextended, hfind⟩ := h.reach hreach
    rw [hkeys]
    refine ⟨⟨?_, ?_⟩, hextended.valueAt?_eq h, fun b y hy => ⟨hextended.kept hy, hextended.order y⟩,
      fun b y hy hnone => hextended.added h hy hnone⟩
    -- The node that was reached is there now, so it was there before if nothing looks different.
    · intro hseen
      right
      rw [← Store.isSome_seenAt?, ← hseen, Store.isSome_seenAt?, hfind]
      rfl
    · rintro (hkind | hthere)
      · cases hkind
      · obtain ⟨y, hy⟩ := Option.isSome_iff_exists.mp hthere
        rw [reach_of_find? hy] at hreach
        cases hreach
        exact fun _ => rfl

/-- A write below the child of a trace that fails after a node was added leaves the node behind, and
the value of the child as it was. -/
theorem sprout_failed :
    ∃ f s', (Trace.cell 0).putAt (.tuple [.text "b", .text "c", .bool true]) .null sprout =
        .error f s' ∧
      ¬ (∀ b, s'.seenAt? (.cell 0) b = sprout.seenAt? (.cell 0) b) ∧
      s'.valueAt? (.cell 0) [.name "b"] = some (.int 7) := by
  have hanchored : (Trace.cell 0).Anchored sprout := sprout_editable.writable.anchored
  obtain ⟨f, s', hfails⟩ : ∃ f s', (Trace.cell 0).putAt (.tuple [.text "b", .text "c", .bool true])
      .null sprout = .error f s' ∧ f.kind = .key := ⟨_, _, rfl, rfl⟩
  obtain ⟨hseen, hvalues, -⟩ := hanchored.failed_write (.inl hfails.1)
  refine ⟨f, s', hfails.1, ?_, hvalues _⟩
  rw [hseen, hfails.2]
  decide

/-- A root without a value and without children. -/
def bareRoot : Store where
  cells := #[{}]

/-- A value set at an address that ends in a truth value is refused, and yet the node for the name
in front of it is there afterwards. -/
theorem bareRoot_changed :
    ∃ f s', (Trace.cell 0).putAt (.tuple [.text "a", .bool true]) (.int 1) bareRoot = .error f s' ∧
      f.kind = .key ∧ bareRoot.seenAt? (.cell 0) [.name "a"] = none ∧
      s'.seenAt? (.cell 0) [.name "a"] = some (none, []) :=
  ⟨_, _, rfl, rfl, rfl, rfl⟩

end Trace
end ProbTrace
