import Mathlib.Data.List.Induction
import ProbTrace.Proofs.Cells

/-!
# Editing a tree of cells

A trace whose cells can all be written to and are each found at one address only is a table from
addresses to values.  Reaching an address adds the nodes that are missing on the way, each as the
last child of the one before it, and changes no value.  Setting a value at an address changes the
value there and no other.

One step adds one node; what reaching a whole address does follows by induction on the address.
-/

namespace ProbTrace

theorem insertChild_of_missing {cs : List (Key × Trace)} {k : Key} (h : childAt? cs k = none)
    (t : Trace) : insertChild cs k t = cs ++ [(k, t)] := by
  induction cs with
  | nil => rfl
  | cons c cs ih =>
    obtain ⟨j, u⟩ := c
    rw [childAt?_cons] at h
    by_cases hj : j = k
    · simp [hj] at h
    · rw [if_neg hj] at h
      rw [insertChild, if_neg hj, ih h, List.cons_append]

namespace Store

variable {s : Store} {t u x : Trace} {n : NodeId} {k : Key} {a b : Address}

theorem find?_concat : s.find? t (a ++ [k]) = (s.find? t a).bind (s.child? · k) := by
  rw [find?_append]
  simp only [find?_singleton]

theorem find?_isSome_mono (h : (s.find? t a).isSome) (hb : b <+: a) :
    (s.find? t b).isSome := by
  obtain ⟨c, rfl⟩ := hb
  rw [find?_append] at h
  by_contra hnone
  rw [Option.not_isSome_iff_eq_none] at hnone
  simp [hnone] at h

/-- A node that is added is the last child. -/
theorem children_grow_self (hn : n < s.cells.size) (hmissing : s.child? (.cell n) k = none) :
    (s.grow n k).children (.cell n) = s.children (.cell n) ++ [(k, .cell s.cells.size)] := by
  have hinsert := insertChild_of_missing hmissing (.cell s.cells.size)
  rw [children, cell_grow, if_pos ⟨rfl, Nat.lt_succ_of_lt hn⟩]
  exact hinsert

/-- No other node gets a child. -/
theorem children_grow_of_ne (h : u ≠ .cell n) : (s.grow n k).children u = s.children u := by
  cases u with
  | tree _ _ => rfl
  | cell i =>
    have hi : i ≠ n := fun hi => h (congrArg Trace.cell hi)
    rw [children, cell_grow, if_neg fun hin => hi hin.1, children]

end Store

namespace Trace

/-- No cell of a trace is found at two addresses. -/
def Unshared (s : Store) (t : Trace) : Prop :=
  ∀ {a b n}, s.find? t a = some (.cell n) → s.find? t b = some (.cell n) → a = b

/-- A tree of cells that are there and can be written to. -/
structure Editable (s : Store) (t : Trace) : Prop where
  writable : t.Writable s
  unshared : t.Unshared s

end Trace

namespace Store

/-- A store after the nodes on the way to an address were added where they were missing: the nodes
that were there stay, and each has its children in the order they had, with a new one last. -/
structure Reached (s : Store) (t : Trace) (a : Address) (s' : Store) : Prop where
  kept : ∀ {b u}, s.find? t b = some u → s'.find? t b = some u
  present : ∀ b, (s'.find? t b).isSome ↔ (s.find? t b).isSome ∨ b <+: a
  order : ∀ {b u}, s.find? t b = some u → s'.children u = s.children u ∨
    ∃ k x, b ++ [k] <+: a ∧ s.child? u k = none ∧ s'.children u = s.children u ++ [(k, x)]

/-- Where all nodes are there nothing was added. -/
theorem Reached.refl {s : Store} {t : Trace} {a : Address} (h : (s.find? t a).isSome) :
    s.Reached t a s where
  kept hu := hu
  present _ := ⟨.inl, fun hb => hb.elim id (find?_isSome_mono h)⟩
  order _ := .inl rfl

/-- A change that leaves the nodes and their children as they are. -/
theorem Reached.congr {s s' s'' : Store} {t : Trace} {a : Address} (h : s.Reached t a s')
    (hfind : ∀ b, s''.find? t b = s'.find? t b) (hchildren : ∀ u, s''.children u = s'.children u) :
    s.Reached t a s'' where
  kept hu := by
    rw [hfind]
    exact h.kept hu
  present b := by
    rw [hfind]
    exact h.present b
  order hu := by
    rw [hchildren]
    exact h.order hu

end Store

namespace Trace

section Grow

variable {s : Store} {t u : Trace} {n : NodeId} {k : Key} {a b c : Address}

/-- The nodes after one was added below a node of a tree: the old ones where they were, and the new
one at one address. -/
theorem find?_grow_iff (h : t.Editable s) (hb : s.find? t b = some (.cell n))
    (hmissing : s.child? (.cell n) k = none) :
    (s.grow n k).find? t c = some u ↔
      s.find? t c = some u ∨ c = b ++ [k] ∧ u = .cell s.cells.size := by
  obtain ⟨_, ⟨⟩, hn, -⟩ := h.writable b _ hb
  constructor
  · intro hu
    induction c using List.reverseRecOn generalizing u with
    | nil => exact .inl hu
    | append_singleton c j ih =>
      rw [Store.find?_concat, Option.bind_eq_some_iff] at hu
      obtain ⟨x, hx, hchild⟩ := hu
      rcases ih hx with hold | ⟨-, rfl⟩
      · rcases Store.child?_grow hchild with hchild | ⟨rfl, rfl, rfl⟩
        · left
          rw [Store.find?_concat, hold, Option.bind_some, hchild]
        · right
          rw [h.unshared hold hb]
          exact ⟨rfl, rfl⟩
      · -- Nothing is below the new node.
        have hempty : (s.grow n k).child? (.cell s.cells.size) j = none := by
          have hne : Trace.cell s.cells.size ≠ .cell n := fun heq =>
            Nat.ne_of_gt hn (Trace.cell.inj heq)
          rw [Store.child?, Store.children_grow_of_ne hne, Store.children,
            Store.cell_of_size_le (Nat.le_refl _), childAt?_nil]
        rw [hempty] at hchild
        cases hchild
  · rintro (hu | ⟨rfl, rfl⟩)
    · exact Store.find?_grow_of_some hmissing hu
    · rw [Store.find?_concat, Store.find?_grow_of_some hmissing hb, Option.bind_some]
      exact Store.child?_grow_self hn

/-- A node that is added keeps a trace a tree. -/
theorem Editable.grow (h : t.Editable s) (hb : s.find? t b = some (.cell n))
    (hmissing : s.child? (.cell n) k = none) : t.Editable (s.grow n k) where
  writable := by
    intro c u hu
    rw [find?_grow_iff h hb hmissing] at hu
    rw [Store.size_grow, Store.isWritable_grow]
    rcases hu with hu | ⟨-, rfl⟩
    · obtain ⟨i, rfl, hi, hw⟩ := h.writable c u hu
      exact ⟨i, rfl, Nat.lt_succ_of_lt hi, hw⟩
    · refine ⟨_, rfl, Nat.lt_succ_self _, ?_⟩
      rw [Store.isWritable, Store.cell_of_size_le (Nat.le_refl _)]
  unshared := by
    intro c d i hc hd
    have hold : ∀ {e : Address}, s.find? t e ≠ some (.cell s.cells.size) := by
      intro e he
      obtain ⟨_, ⟨⟩, hlt, -⟩ := h.writable e _ he
      exact Nat.lt_irrefl _ hlt
    rw [find?_grow_iff h hb hmissing] at hc hd
    rcases hc with hc | ⟨rfl, hi⟩
    · rcases hd with hd | ⟨rfl, hi⟩
      · exact h.unshared hc hd
      · rw [hi] at hc
        exact (hold hc).elim
    · rcases hd with hd | ⟨rfl, -⟩
      · rw [hi] at hd
        exact (hold hd).elim
      · rfl

/-- One node was added, and then those below it. -/
theorem Editable.reached_grow (h : t.Editable s) (hb : s.find? t b = some (.cell n))
    (hmissing : s.child? (.cell n) k = none) {s' : Store} (hbelow : b ++ [k] <+: a)
    (hreached : (s.grow n k).Reached t a s') : s.Reached t a s' where
  kept hu := hreached.kept (Store.find?_grow_of_some hmissing hu)
  present c := by
    have hgrown : ((s.grow n k).find? t c).isSome ↔ (s.find? t c).isSome ∨ c = b ++ [k] := by
      simp only [Option.isSome_iff_exists, find?_grow_iff h hb hmissing]
      constructor
      · rintro ⟨u, hu | ⟨hc, -⟩⟩
        · exact .inl ⟨u, hu⟩
        · exact .inr hc
      · rintro (⟨u, hu⟩ | hc)
        · exact ⟨u, .inl hu⟩
        · exact ⟨_, .inr ⟨hc, rfl⟩⟩
    rw [hreached.present, hgrown]
    constructor
    · rintro ((hc | rfl) | hc)
      · exact .inl hc
      · exact .inr hbelow
      · exact .inr hc
    · rintro (hc | hc)
      · exact .inl (.inl hc)
      · exact .inr hc
  order := by
    intro c u hu
    obtain ⟨_, ⟨⟩, hn, -⟩ := h.writable b _ hb
    have hlater := hreached.order (Store.find?_grow_of_some hmissing hu)
    by_cases hself : u = .cell n
    · subst hself
      -- The node has its new child now, so nothing more is added to it.
      have hc : c = b := h.unshared hu hb
      subst hc
      rcases hlater with hsame | ⟨j, x, hj, hnone, -⟩
      · right
        refine ⟨k, .cell s.cells.size, hbelow, hmissing, ?_⟩
        rw [hsame, Store.children_grow_self hn hmissing]
      · have hjk : j = k := by
          have heq : c ++ [j] = c ++ [k] :=
            (List.prefix_of_prefix_length_le hj hbelow (by simp)).eq_of_length (by simp)
          simpa using heq
        rw [hjk, Store.child?_grow_self hn] at hnone
        cases hnone
    · have hchildren : (s.grow n k).children u = s.children u := Store.children_grow_of_ne hself
      simpa only [Store.child?, hchildren] using hlater

/-- Below a node of a tree every address can be reached. -/
theorem Editable.reach (h : t.Editable s) {x : Trace} (hx : s.find? t b = some x) (a : Address) :
    ∃ u s', x.reach a s = .ok u s' ∧ s'.find? t (b ++ a) = some u ∧ t.Editable s' ∧
      s.Reached t (b ++ a) s' := by
  induction a generalizing s b x with
  | nil =>
    rw [List.append_nil]
    exact ⟨x, s, rfl, hx, h, .refl (by rw [hx]; rfl)⟩
  | cons k a ih =>
    have hassoc : b ++ k :: a = b ++ [k] ++ a := by simp
    rw [hassoc]
    cases hchild : s.child? x k with
    | some y =>
      rw [reach_found hchild]
      refine ih h ?_
      rw [Store.find?_concat, hx, Option.bind_some, hchild]
    | none =>
      obtain ⟨n, rfl, hn, hw⟩ := h.writable b x hx
      have hnew : (s.grow n k).find? t (b ++ [k]) = some (.cell s.cells.size) :=
        (find?_grow_iff h hx hchild).mpr (.inr ⟨rfl, rfl⟩)
      rw [reach_missing hchild hw]
      obtain ⟨u, s', hreach, hu, htree, hreached⟩ := ih (h.grow hx hchild) hnew
      exact ⟨u, s', hreach, hu, htree,
        h.reached_grow hx hchild (List.prefix_append _ _) hreached⟩

/-- Every address of a tree can be reached, and no value changes by it. -/
theorem Editable.exists_reach (h : t.Editable s) (a : Address) :
    ∃ u s', t.reach a s = .ok u s' ∧ s'.find? t a = some u ∧ t.Editable s' ∧ s.Reached t a s' ∧
      ∀ r c, s'.valueAt? r c = s.valueAt? r c := by
  have hroot : s.find? t [] = some t := rfl
  obtain ⟨u, s', hreach, hu, htree, hreached⟩ := h.reach hroot a
  refine ⟨u, s', hreach, hu, htree, hreached, ?_⟩
  obtain ⟨_, _, hreach', -, -, -, hvalues⟩ := Trace.exists_reach (a := a) h.writable
  rw [hreach] at hreach'
  cases hreach'
  exact hvalues

/-- A value that is set in a node of a tree is the value at its address, and all others stay. -/
theorem Editable.put (h : t.Editable s) (hu : s.find? t a = some u) (v : Value) :
    ∃ s', u.put (some v) s = .ok () s' ∧ t.Editable s' ∧ (∀ r c, s'.find? r c = s.find? r c) ∧
      (∀ r, s'.children r = s.children r) ∧
      ∀ c, s'.valueAt? t c = if c = a then some v else s.valueAt? t c := by
  obtain ⟨n, rfl, hn, hw⟩ := h.writable a u hu
  have hfind : ∀ r c, (s.setValue n (some v)).find? r c = s.find? r c := fun _ c =>
    Store.find?_setValue c
  refine ⟨s.setValue n (some v), put_writable (some v) hw, ⟨?_, ?_⟩, hfind,
    Store.children_setValue s n (some v), ?_⟩
  · intro c x hx
    rw [hfind] at hx
    rw [Store.size_setValue, Store.isWritable_setValue]
    exact h.writable c x hx
  · intro c d i hc hd
    rw [hfind] at hc hd
    exact h.unshared hc hd
  · intro c
    rw [Store.valueAt?, Store.valueAt?, hfind]
    by_cases hc : c = a
    · rw [if_pos hc, hc, hu, Option.bind_some, Store.value?, Store.cell_setValue,
        if_pos ⟨rfl, hn⟩]
    · rw [if_neg hc]
      cases hx : s.find? t c with
      | none => rfl
      | some x =>
        obtain ⟨i, rfl, -, -⟩ := h.writable c x hx
        -- No cell is at two addresses, so that the cell at another one is not written to.
        have hi : i ≠ n := by
          intro hi
          rw [hi] at hx
          exact hc (h.unshared hx hu)
        rw [Option.bind_some, Option.bind_some, Store.value?, Store.value?, Store.cell_setValue,
          if_neg fun hin => hi hin.1]

end Grow

end Trace

/-! ## Addresses given as values -/

namespace Store

variable {s s' : Store} {t : Trace} {x : Value} {a : Address}

theorem findAt?_of_address? (h : x.address? = some a) : s.findAt? t x = s.find? t a := by
  rw [findAt?, h, Option.bind_some]

/-- A value that is there is one that can be asked for. -/
theorem asked_iff (h : x.address? = some a) {v : Value} :
    s.hasAt t x = true ∧ s.getAt t x = .ok v ↔ s.valueAt? t a = some v := by
  constructor
  · rintro ⟨-, hget⟩
    rw [getAt, findAt?_of_address? h] at hget
    rw [valueAt?]
    split at hget
    · rename_i w hw
      rw [hw, Except.ok.inj hget]
    · cases hget
  · intro hv
    have hvalue : (s.findAt? t x).bind s.value? = some v := by
      rw [findAt?_of_address? h]
      exact hv
    rw [hasAt, getAt, hvalue]
    exact ⟨rfl, rfl⟩

/-- What can be asked about an address depends on the value there only. -/
theorem asked_congr (h : ∀ a, x.address? = some a → s'.valueAt? t a = s.valueAt? t a) :
    s'.hasAt t x = s.hasAt t x ∧ s'.getAt t x = s.getAt t x := by
  have hvalue : (s'.findAt? t x).bind s'.value? = (s.findAt? t x).bind s.value? := by
    cases hx : x.address? with
    | none => simp only [findAt?, hx, Option.bind_none]
    | some a =>
      rw [findAt?_of_address? hx, findAt?_of_address? hx]
      exact h a hx
  constructor
  · rw [hasAt, hasAt, hvalue]
  · rw [getAt, getAt, hvalue]

end Store

namespace Trace

/-- A value that is set at an address of a tree is the value there, and all others stay. -/
theorem Editable.putAt {s : Store} {t : Trace} (h : t.Editable s) {x : Value} {a : Address}
    (hx : x.address? = some a) (v : Value) :
    ∃ s', t.putAt x v s = .ok () s' ∧ t.Editable s' ∧ s.Reached t a s' ∧
      ∀ c, s'.valueAt? t c = if c = a then some v else s.valueAt? t c := by
  obtain ⟨u, s', hreach, hu, htree, hreached, hvalues⟩ := h.exists_reach a
  obtain ⟨s'', hput, htree', hfind, hchildren, hvalue⟩ := htree.put hu v
  obtain ⟨_, -, -, hw⟩ := h.writable [] t rfl
  refine ⟨s'', ?_, htree', hreached.congr (hfind t) hchildren, ?_⟩
  · rw [putAt_of_address? hw hx, reach_put hreach]
    exact hput
  · intro c
    rw [hvalue, hvalues]

/-- The law of trees that can be written to.  Setting a value at an address succeeds, the value is
then there, and all that can be asked about other addresses is as it was; the nodes on the way are
there, and nothing else is new.  Reaching an address changes no value in any trace and gives the
node that is found there, and it changes nothing if the node was there. -/
theorem Editable.edits_exactly {s : Store} {t : Trace} (h : t.Editable s) {x : Value} {a : Address}
    (hx : x.address? = some a) (v : Value) :
    (∃ s', t.putAt x v s = .ok () s' ∧ s'.getAt t x = .ok v ∧
      (∀ y, y.address? ≠ some a →
        s'.hasAt t y = s.hasAt t y ∧ s'.getAt t y = s.getAt t y) ∧
      s.Reached t a s' ∧ t.Editable s') ∧
    ∃ u s', t.reachAt x s = .ok u s' ∧
      (∀ r y, s'.hasAt r y = s.hasAt r y ∧ s'.getAt r y = s.getAt r y) ∧
      s'.findAt? t x = some u ∧ ((s.findAt? t x).isSome → s' = s) ∧
      s.Reached t a s' ∧ t.Editable s' := by
  constructor
  · obtain ⟨s', hput, htree, hreached, hvalue⟩ := h.putAt hx v
    have hset : s'.valueAt? t a = some v := by
      rw [hvalue, if_pos rfl]
    refine ⟨s', hput, ((Store.asked_iff hx).mpr hset).2, ?_, hreached, htree⟩
    · intro y hy
      refine Store.asked_congr fun c hc => ?_
      have hne : c ≠ a := fun heq => hy (hc.trans (congrArg some heq))
      rw [hvalue, if_neg hne]
  · obtain ⟨u, s', hreach, hu, htree, hreached, hvalues⟩ := h.exists_reach a
    refine ⟨u, s', ?_, ?_, ?_, ?_, hreached, htree⟩
    · rw [reachAt_of_address? hx]
      exact hreach
    · intro r y
      exact Store.asked_congr fun c _ => hvalues r c
    · rw [Store.findAt?_of_address? hx]
      exact hu
    · intro hthere
      rw [Store.findAt?_of_address? hx, Option.isSome_iff_exists] at hthere
      obtain ⟨y, hy⟩ := hthere
      have hsame := reach_of_find? hy
      rw [hreach] at hsame
      cases hsame
      rfl

/-- A root with one child, which holds a value. -/
def sprout : Store where
  cells := #[{ children := [(.name "b", .cell 1)] }, { value := some (.int 7) }]

theorem sprout_find? {a : Address} {u : Trace} (h : sprout.find? (.cell 0) a = some u) :
    a = [] ∧ u = .cell 0 ∨ a = [.name "b"] ∧ u = .cell 1 := by
  have hroot : sprout.children (.cell 0) = [(.name "b", .cell 1)] := rfl
  have hleaf : sprout.children (.cell 1) = [] := rfl
  rcases a with _ | ⟨k, a⟩
  · exact .inl ⟨rfl, (Option.some.inj h).symm⟩
  · rw [Store.find?, Store.child?, hroot, childAt?_cons] at h
    by_cases hk : Key.name "b" = k
    · subst hk
      rcases a with _ | ⟨j, a⟩
      · exact .inr ⟨rfl, (Option.some.inj h).symm⟩
      · simp [Store.find?, Store.child?, hleaf] at h
    · simp [hk] at h

theorem sprout_editable : (Trace.cell 0).Editable sprout where
  writable := by
    intro a u hu
    rcases sprout_find? hu with ⟨-, rfl⟩ | ⟨-, rfl⟩
    · exact ⟨0, rfl, by decide, rfl⟩
    · exact ⟨1, rfl, by decide, rfl⟩
  unshared := by
    intro a b n ha hb
    rcases sprout_find? ha with ⟨rfl, hn⟩ | ⟨rfl, hn⟩
    · rcases sprout_find? hb with ⟨rfl, -⟩ | ⟨rfl, hn'⟩
      · rfl
      · cases hn.symm.trans hn'
    · rcases sprout_find? hb with ⟨rfl, hn'⟩ | ⟨rfl, -⟩
      · cases hn.symm.trans hn'
      · rfl

/-- A value set below the child is there, with the value of the child as it was. -/
theorem sprout_edited :
    ∃ s', (Trace.cell 0).putAt (.tuple [.text "b", .int 1]) (.text "first") sprout = .ok () s' ∧
      s'.getAt (.cell 0) (.tuple [.text "b", .int 1]) = .ok (.text "first") ∧
      s'.getAt (.cell 0) (.text "b") = .ok (.int 7) ∧
      ¬ (s'.find? (.cell 0) [.name "c"]).isSome := by
  have haddress : (Value.tuple [.text "b", .int 1]).address? = some [.name "b", .index 1] := rfl
  obtain ⟨⟨s', hput, hvalue, hothers, hreached, -⟩, -⟩ :=
    sprout_editable.edits_exactly haddress (.text "first")
  refine ⟨s', hput, hvalue, ?_, ?_⟩
  · have hother : (Value.text "b").address? ≠ some [.name "b", .index 1] := by decide
    exact (hothers _ hother).2
  · rw [hreached.present]
    decide

end Trace
end ProbTrace
