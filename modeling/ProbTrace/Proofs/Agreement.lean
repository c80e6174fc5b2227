import Mathlib.Data.List.Nodup
import ProbTrace.Proofs.Exactness
import ProbTrace.Proofs.Reachability

/-!
# Values that agree with themselves

What is not a number agrees with nothing, and so does whatever it is part of.  All other values
agree with themselves, whatever procedures and tags they have in them, as long as the nodes of
their traces have one child under each key.
-/

namespace ProbTrace

theorem Numeric.compare?_self {a : Numeric} (h : ∀ x, a = .float x → x.isNaN = false) :
    a.compare? a = some .eq := by
  rw [compare?_eq]
  cases hexact : a.amount? with
  | none =>
    obtain ⟨x, hx, hnan⟩ := amount?_eq_none.mp hexact
    rw [h x hx] at hnan
    cases hnan
  | some e => exact ⟨e, rfl, rfl⟩

/-- What a thing must be to agree with itself, as far as it alone is concerned: a number that is
one, or a node with one child under each key. -/
def Item.IsOrderly (s : Store) : Item → Prop
  | .value (.float x) => x.isNaN = false
  | .value (.undefined _) => False
  | .trace t => ((s.children t).map Prod.fst).Nodup
  | _ => True

/-- From a thing one can reach numbers only that are numbers, and nodes only with one child under
each key. -/
def Machine.Orderly (m : Machine) : Item → Prop :=
  m.Throughout (Item.IsOrderly m.store)

theorem Machine.Orderly.leaf {m : Machine} {x : Float} (h : x.isNaN = false) :
    m.Orderly (.trace (.leaf (.float x))) := by
  refine .intro List.nodup_nil fun y hy => ?_
  cases hy with
  | held hv =>
    cases hv
    refine .intro h fun z hz => ?_
    cases hz with
    | item hitems _ => cases hitems
  | child hu => cases hu

theorem Machine.Orderly.single {m : Machine} {k : Key} {t : Trace} (h : m.Orderly (.trace t)) :
    m.Orderly (.trace (.tree none [(k, t)])) := by
  refine .intro (List.nodup_singleton k) fun y hy => ?_
  cases hy with
  | held hv => cases hv
  | child hu =>
    cases List.mem_singleton.mp hu
    exact h

theorem sameChildren_self {ds : List (Key × Trace)} (hkeys : (ds.map Prod.fst).Nodup)
    (h : ∀ k t, (k, t) ∈ ds → t.same t = true) : sameChildren ds ds = true := by
  have hrest (rest : List (Key × Trace)) (hsub : rest ⊆ ds) : sameChildren rest ds = true := by
    induction rest with
    | nil => simp only [sameChildren]
    | cons c rest ih =>
      obtain ⟨k, t⟩ := c
      obtain ⟨hmem, hsub⟩ := List.cons_subset.mp hsub
      simp only [sameChildren, childAt?_of_mem hkeys hmem, h k t hmem, ih hsub, Bool.and_self]
  exact hrest ds fun _ h => h

theorem map_fst_expandChildren (f : NodeId → Trace) (cs : List (Key × Trace)) :
    (expandChildren f cs).map Prod.fst = cs.map Prod.fst := by
  induction cs with
  | nil => rfl
  | cons c cs ih => rw [expandChildren, List.map_cons, List.map_cons, ih]

section SameSelf

variable {m : Machine}

mutual

theorem same_expand_self {f : NodeId → Trace}
    (hf : ∀ n, m.Orderly (.trace (.cell n)) → (f n).same (f n) = true) :
    ∀ v : Value, m.Orderly (.value v) → (v.expand f).same (v.expand f) = true
  | .list vs, h => by
    simp only [Value.expand, Value.same, Value.items?]
    exact same_expandItems_self hf vs fun u hu => Machine.Throughout.hereditary h (.item rfl hu)
  | .tuple vs, h => by
    simp only [Value.expand, Value.same, Value.items?]
    exact same_expandItems_self hf vs fun u hu => Machine.Throughout.hereditary h (.item rfl hu)
  | .quoted v, h => by
    simp only [Value.expand, Value.same, Value.items?]
    exact same_expand_self hf v (Machine.Throughout.hereditary h (.item rfl List.mem_cons_self))
  | .brackets vs, h => by
    have hlist : m.Orderly (.value (.list vs)) :=
      Machine.Throughout.hereditary h (.item rfl List.mem_cons_self)
    simp only [Value.expand, Value.same, Value.items?]
    exact same_expandItems_self hf vs fun u hu =>
      Machine.Throughout.hereditary hlist (.item rfl hu)
  | .trace t, h => by
    simp only [Value.expand, Value.same]
    exact same_expandTrace_self hf t (Machine.Throughout.hereditary h (.content t))
  | .float x, h => by
    have hnumber : x.isNaN = false := h.self
    have hcompare : (Numeric.float x).compare? (.float x) = some .eq :=
      Numeric.compare?_self fun y hy => Numeric.float.inj hy ▸ hnumber
    simp only [Value.expand, Value.same, Value.sameAtom, Value.numeric?, hcompare, beq_self_eq_true]
  | .undefined serial, h => h.self.elim
  | .bool b, _ => by
    have hcompare : (Numeric.int (if b then 1 else 0)).compare? (.int (if b then 1 else 0)) =
        some .eq := Numeric.compare?_self nofun
    simp only [Value.expand, Value.same, Value.sameAtom, Value.numeric?, hcompare, beq_self_eq_true]
  | .int i, _ => by
    have hcompare : (Numeric.int i).compare? (.int i) = some .eq := Numeric.compare?_self nofun
    simp only [Value.expand, Value.same, Value.sameAtom, Value.numeric?, hcompare, beq_self_eq_true]
  | .null, _ | .text _, _ | .symbol _, _ | .tag _ _, _ | .closure _ _ _ _, _ | .builtin _, _
  | .special _, _ => by
    simp [Value.expand, Value.same, Value.sameAtom, Value.numeric?]

theorem same_expandItems_self {f : NodeId → Trace}
    (hf : ∀ n, m.Orderly (.trace (.cell n)) → (f n).same (f n) = true) :
    ∀ vs : List Value, (∀ v ∈ vs, m.Orderly (.value v)) →
      sameItems (expandItems f vs) (expandItems f vs) = true
  | [], _ => by simp only [expandItems, sameItems]
  | v :: vs, h => by
    simp only [expandItems, sameItems, same_expand_self hf v (h v List.mem_cons_self),
      same_expandItems_self hf vs fun u hu => h u (List.mem_cons_of_mem _ hu), Bool.and_self]

theorem same_expandTrace_self {f : NodeId → Trace}
    (hf : ∀ n, m.Orderly (.trace (.cell n)) → (f n).same (f n) = true) :
    ∀ t : Trace, m.Orderly (.trace t) → (t.expand f).same (t.expand f) = true
  | .cell n, h => hf n h
  | .tree none cs, h => by
    have hkeys : (cs.map Prod.fst).Nodup := h.self
    rw [← map_fst_expandChildren f] at hkeys
    have hchildren := sameChildren_self hkeys (same_expandChildren_self hf cs fun k t ht =>
      Machine.Throughout.hereditary h (.child ht))
    simp only [Trace.expand, Trace.same, hchildren, beq_self_eq_true, Bool.and_self]
  | .tree (some v) cs, h => by
    have hkeys : (cs.map Prod.fst).Nodup := h.self
    rw [← map_fst_expandChildren f] at hkeys
    have hchildren := sameChildren_self hkeys (same_expandChildren_self hf cs fun k t ht =>
      Machine.Throughout.hereditary h (.child ht))
    have hv := same_expand_self hf v (Machine.Throughout.hereditary h (.held rfl))
    simp only [Trace.expand, Trace.same, hv, hchildren, beq_self_eq_true, Bool.and_self]

theorem same_expandChildren_self {f : NodeId → Trace}
    (hf : ∀ n, m.Orderly (.trace (.cell n)) → (f n).same (f n) = true) :
    ∀ cs : List (Key × Trace), (∀ k t, (k, t) ∈ cs → m.Orderly (.trace t)) →
      ∀ k t, (k, t) ∈ expandChildren f cs → t.same t = true
  | [], _, _, _, hmem => nomatch hmem
  | (j, u) :: rest, h, k, t, hmem => by
    rw [expandChildren] at hmem
    rcases List.mem_cons.mp hmem with heq | hmem
    · cases heq
      exact same_expandTrace_self hf u (h j u List.mem_cons_self)
    · exact same_expandChildren_self hf rest (fun k t ht => h k t (List.mem_cons_of_mem _ ht)) k t hmem

end

theorem same_contentAt_self (depth : Nat) (path : List NodeId) (n : NodeId)
    (h : m.Orderly (.trace (.cell n))) :
    (m.store.contentAt depth path n).same (m.store.contentAt depth path n) = true := by
  induction depth generalizing path n with
  | zero => simp only [Store.contentAt, Trace.same, beq_self_eq_true]
  | succ depth ih =>
    simp only [Store.contentAt]
    split
    · simp only [Trace.same, beq_self_eq_true]
    · have hkeys : (((m.store.cell n).children).map Prod.fst).Nodup := h.self
      rw [← map_fst_expandChildren (m.store.contentAt depth (n :: path))] at hkeys
      have hchildren := sameChildren_self hkeys (same_expandChildren_self
        (fun i hi => ih (n :: path) i hi) _ fun k t ht => Machine.Throughout.hereditary h (.child ht))
      cases hvalue : (m.store.cell n).value with
      | none =>
        simp only [Option.map_none, Trace.same, hchildren, beq_self_eq_true, Bool.and_self]
      | some v =>
        have hv := same_expand_self (fun i hi => ih (n :: path) i hi) v
          (Machine.Throughout.hereditary h (.held hvalue))
        simp only [Option.map_some, Trace.same, hv, hchildren, beq_self_eq_true, Bool.and_self]

/-- A value without what is not a number agrees with itself. -/
theorem Machine.Orderly.same_self {v : Value} (h : m.Orderly (.value v)) :
    m.store.same v v = true :=
  same_expand_self (same_contentAt_self m.store.depth []) v h

end SameSelf
end ProbTrace
