import Mathlib.Data.List.Induction
import ProbTrace.Proofs.Cells

/-!
# The growth of an output

An output starts as one new cell.  It grows by nodes that are new cells themselves, each
the child of one node under one key.  All of them can be written to, so that every address
can be reached and every value recorded, and the cells that were there before stay as they
are.

Every node of the output is found at one address only.  So a value that is recorded at an
address is the value at that address, and no other address is affected.
-/

namespace ProbTrace

/-- The machine with a new cell to record into. -/
def Machine.withOutput (m : Machine) : Machine :=
  { m with store := (m.store.alloc {}).1 }

namespace Store

section Definitions

variable (s₀ : Store)

/-- A cell that was not there. -/
def Fresh (t : Trace) : Prop :=
  ∃ n, s₀.cells.size ≤ n ∧ t = .cell n

/-- The first cell that was not there. -/
def next : Trace :=
  .cell s₀.cells.size

/-- A store with new cells, which can be written to and have new cells below them. -/
structure Grown (s : Store) : Prop where
  size : s₀.cells.size ≤ s.cells.size
  old : ∀ {n}, n < s₀.cells.size → s.cell n = s₀.cell n
  writable : ∀ {t}, s₀.Fresh t → s.isWritable t = true
  child : ∀ {t k u}, s₀.Fresh t → (k, u) ∈ s.children t → s₀.Fresh u

/-- A store in which the new cells are a tree with the first of them as its root. -/
structure Rooted (s : Store) : Prop extends s₀.Grown s where
  rootThere : s₀.cells.size < s.cells.size
  childThere : ∀ {t k n}, s₀.Fresh t → (k, .cell n) ∈ s.children t → n < s.cells.size
  oneParent : ∀ {t t' k k' u}, s₀.Fresh t → s₀.Fresh t' →
    s.child? t k = some u → s.child? t' k' = some u → t = t' ∧ k = k'
  rootFree : ∀ {t k}, s₀.Fresh t → s.child? t k ≠ some s₀.next

end Definitions

variable {s₀ s : Store} {t u : Trace} {n : NodeId} {k : Key} {a b : Address} {v : Value}

theorem fresh_next : s₀.Fresh s₀.next :=
  ⟨_, Nat.le_refl _, rfl⟩

namespace Grown

theorem setValue (h : s₀.Grown s) (hn : s₀.cells.size ≤ n) (v : Option Value) :
    s₀.Grown (s.setValue n v) where
  size := by
    rw [size_setValue]
    exact h.size
  old := by
    intro i hi
    have hne : i ≠ n := Nat.ne_of_lt (Nat.lt_of_lt_of_le hi hn)
    rw [cell_setValue, if_neg (hne ·.1)]
    exact h.old hi
  writable := by
    rintro _ ⟨i, hi, rfl⟩
    have hwritable := h.writable ⟨i, hi, rfl⟩
    rw [isWritable, cell_setValue]
    split
    · rename_i hin
      rw [hin.1] at hwritable
      exact hwritable
    · exact hwritable
  child := by
    intro t k u ht hu
    rw [children_setValue] at hu
    exact h.child ht hu

theorem grow (h : s₀.Grown s) (hn : s₀.cells.size ≤ n) (k : Key) : s₀.Grown (s.grow n k) where
  size := by
    rw [size_grow]
    exact Nat.le_succ_of_le h.size
  old := by
    intro i hi
    have hne : i ≠ n := Nat.ne_of_lt (Nat.lt_of_lt_of_le hi hn)
    rw [cell_grow, if_neg (hne ·.1)]
    exact h.old hi
  writable := by
    rintro _ ⟨i, hi, rfl⟩
    have hwritable := h.writable ⟨i, hi, rfl⟩
    rw [isWritable, cell_grow]
    split
    · rename_i hin
      rw [hin.1] at hwritable
      exact hwritable
    · exact hwritable
  child := by
    rintro _ j u ⟨i, hi, rfl⟩ hu
    rw [children, cell_grow] at hu
    split at hu
    · rename_i hin
      rcases mem_insertChild hu with heq | hu
      · cases heq
        exact ⟨_, h.size, rfl⟩
      · exact h.child ⟨n, hn, rfl⟩ hu
    · exact h.child ⟨i, hi, rfl⟩ hu

/-- Cells that are not there can be written to and have nothing below them. -/
theorem refl : s₀.Grown s₀ where
  size := Nat.le_refl _
  old _ := rfl
  writable := by
    rintro _ ⟨i, hi, rfl⟩
    rw [isWritable, cell_of_size_le hi]
  child := by
    rintro _ k u ⟨i, hi, rfl⟩ hu
    rw [children, cell_of_size_le hi] at hu
    cases hu

theorem alloc (h : s₀.Grown s) : s₀.Grown (s.alloc {}).1 where
  size := by
    rw [size_alloc]
    exact Nat.le_succ_of_le h.size
  old hn := by
    rw [cell_alloc_empty]
    exact h.old hn
  writable := by
    rintro _ ⟨i, hi, rfl⟩
    rw [isWritable, cell_alloc_empty]
    exact h.writable ⟨i, hi, rfl⟩
  child := by
    intro t k u ht hu
    rw [children_alloc_empty] at hu
    exact h.child ht hu

/-- A new cell at the end of the store. -/
theorem start : s₀.Grown (s₀.alloc {}).1 :=
  refl.alloc

/-- Below a new cell every address can be reached. -/
theorem reach (h : s₀.Grown s) (ht : s₀.Fresh t) (a : Address) :
    ∃ u s', t.reach a s = .ok u s' ∧ s₀.Grown s' ∧ s₀.Fresh u := by
  induction a generalizing s t with
  | nil => exact ⟨t, s, rfl, h, ht⟩
  | cons k a ih =>
    cases hchild : s.child? t k with
    | some u =>
      rw [Trace.reach_found hchild]
      exact ih h (h.child ht (mem_of_childAt? hchild))
    | none =>
      obtain ⟨n, hn, rfl⟩ := ht
      rw [Trace.reach_missing hchild (h.writable ⟨n, hn, rfl⟩)]
      exact ih (h.grow hn k) ⟨_, h.size, rfl⟩

/-- Every value can be recorded in a new cell. -/
theorem put (h : s₀.Grown s) (ht : s₀.Fresh t) (v : Value) :
    ∃ s', t.put (some v) s = .ok () s' ∧ s₀.Grown s' := by
  obtain ⟨n, hn, rfl⟩ := ht
  exact ⟨_, Trace.put_writable (some v) (h.writable ⟨n, hn, rfl⟩), h.setValue hn (some v)⟩

theorem find?_fresh (h : s₀.Grown s) (hu : s.find? s₀.next a = some u) : s₀.Fresh u :=
  find?_inherits h.child fresh_next hu

end Grown

namespace Rooted

/-- A node is found at one address only. -/
theorem address_unique (h : s₀.Rooted s) (ha : s.find? s₀.next a = some t)
    (hb : s.find? s₀.next b = some t) : a = b := by
  have hstep {c : Address} {k : Key} {t : Trace} (hc : s.find? s₀.next (c ++ [k]) = some t) :
      ∃ u, s.find? s₀.next c = some u ∧ s.child? u k = some t := by
    rw [find?_append, Option.bind_eq_some_iff] at hc
    obtain ⟨u, hu, hchild⟩ := hc
    exact ⟨u, hu, by rw [← find?_singleton, hchild]⟩
  induction a using List.reverseRecOn generalizing b t with
  | nil =>
    cases ha
    rcases List.eq_nil_or_concat b with rfl | ⟨b, k, rfl⟩
    · rfl
    · rw [List.concat_eq_append] at hb
      obtain ⟨u, hu, hchild⟩ := hstep hb
      exact (h.rootFree (h.find?_fresh hu) hchild).elim
  | append_singleton a k ih =>
    obtain ⟨u, hu, hchild⟩ := hstep ha
    rcases List.eq_nil_or_concat b with rfl | ⟨b, j, rfl⟩
    · cases hb
      exact (h.rootFree (h.find?_fresh hu) hchild).elim
    · rw [List.concat_eq_append] at hb ⊢
      obtain ⟨u', hu', hchild'⟩ := hstep hb
      obtain ⟨rfl, rfl⟩ := h.oneParent (h.find?_fresh hu) (h.find?_fresh hu') hchild hchild'
      rw [ih hu hu']

theorem setValue (h : s₀.Rooted s) (hn : s₀.cells.size ≤ n) :
    s₀.Rooted (s.setValue n (some v)) where
  toGrown := h.toGrown.setValue hn (some v)
  rootThere := by
    rw [size_setValue]
    exact h.rootThere
  childThere := by
    intro t k i ht hi
    rw [children_setValue] at hi
    rw [size_setValue]
    exact h.childThere ht hi
  oneParent := by
    intro t t' k k' u ht ht' hu hu'
    rw [child?, children_setValue] at hu hu'
    exact h.oneParent ht ht' hu hu'
  rootFree := by
    intro t k ht
    rw [child?, children_setValue]
    exact h.rootFree ht

/-- A node of the output is there. -/
theorem find?_there (h : s₀.Rooted s) (ht : s.find? s₀.next a = some (.cell n)) :
    n < s.cells.size := by
  rcases List.eq_nil_or_concat a with rfl | ⟨a, k, rfl⟩
  · cases ht
    exact h.rootThere
  · rw [List.concat_eq_append, find?_append, Option.bind_eq_some_iff] at ht
    obtain ⟨u, hu, hchild⟩ := ht
    rw [find?_singleton] at hchild
    exact h.childThere (h.find?_fresh hu) (mem_of_childAt? hchild)

theorem grow (h : s₀.Rooted s) (hn : s₀.cells.size ≤ n) : s₀.Rooted (s.grow n k) where
  toGrown := h.toGrown.grow hn k
  rootThere := by
    rw [size_grow]
    exact Nat.lt_succ_of_lt h.rootThere
  childThere := by
    rintro _ j i ⟨l, hl, rfl⟩ hi
    rw [size_grow]
    rw [children, cell_grow] at hi
    split at hi
    · rcases mem_insertChild hi with heq | hi
      · cases heq
        exact Nat.lt_succ_self _
      · exact Nat.lt_succ_of_lt (h.childThere ⟨n, hn, rfl⟩ hi)
    · exact Nat.lt_succ_of_lt (h.childThere ⟨l, hl, rfl⟩ hi)
  oneParent := by
    intro t t' j j' u ht ht' hu hu'
    -- The new cell is past the end of the store, where no child was before.
    have hnew {t : Trace} {j : Key} (ht : s₀.Fresh t) :
        s.child? t j ≠ some (.cell s.cells.size) := fun hchild =>
      Nat.lt_irrefl _ (h.childThere ht (mem_of_childAt? hchild))
    rcases child?_grow hu with hold | ⟨rfl, rfl, rfl⟩
    · rcases child?_grow hu' with hold' | ⟨rfl, rfl, rfl⟩
      · exact h.oneParent ht ht' hold hold'
      · exact (hnew ht hold).elim
    · rcases child?_grow hu' with hold' | ⟨rfl, rfl, -⟩
      · exact (hnew ht' hold').elim
      · exact ⟨rfl, rfl⟩
  rootFree := by
    intro t j ht hu
    rcases child?_grow hu with hold | ⟨-, -, heq⟩
    · exact h.rootFree ht hold
    · exact Nat.ne_of_lt h.rootThere (Trace.cell.inj heq)

/-- An output without a value at any address. -/
theorem start : s₀.Rooted (s₀.alloc {}).1 where
  toGrown := .start
  rootThere := by
    rw [size_alloc]
    exact Nat.lt_succ_self _
  childThere := by
    rintro _ k i ⟨n, hn, rfl⟩ hi
    rw [children_alloc_empty, children, cell_of_size_le hn] at hi
    cases hi
  oneParent := by
    rintro _ t' k k' u ⟨n, hn, rfl⟩ - hu -
    rw [child?, children_alloc_empty, children, cell_of_size_le hn] at hu
    cases hu
  rootFree := by
    rintro _ k ⟨n, hn, rfl⟩ hu
    rw [child?, children_alloc_empty, children, cell_of_size_le hn] at hu
    cases hu

theorem valueAt?_start (a : Address) : (s₀.alloc {}).1.valueAt? s₀.next a = none := by
  have hcell : (s₀.alloc {}).1.cell s₀.cells.size = {} := by
    rw [cell_alloc_empty, cell_of_size_le (Nat.le_refl _)]
  cases a with
  | nil => simp only [valueAt?, find?, next, Option.bind_some, value?, hcell]
  | cons k a =>
    simp only [valueAt?, find?, child?, next, children, hcell, childAt?_nil, Option.bind_none]

end Rooted

namespace Rooted

variable {s' : Store}

/-- An output that is no longer written to stays when the store grows. -/
theorem find?_grown (h : s₀.Rooted s) (h' : s.Grown s') (a : Address) :
    s'.find? s₀.next a = s.find? s₀.next a := by
  have hbelow (n : NodeId) (hn : s₀.cells.size ≤ n) (hthere : n < s.cells.size) :
      s'.find? (.cell n) a = s.find? (.cell n) a := by
    induction a generalizing n with
    | nil => rfl
    | cons k a ih =>
      simp only [find?, child?, children, h'.old hthere]
      cases hchild : childAt? (s.cell n).children k with
      | none => rfl
      | some u =>
        have hmem : (k, u) ∈ s.children (.cell n) := mem_of_childAt? hchild
        obtain ⟨i, hi, rfl⟩ := h.child ⟨n, hn, rfl⟩ hmem
        exact ih i hi (h.childThere ⟨n, hn, rfl⟩ hmem)
  exact hbelow _ (Nat.le_refl _) h.rootThere

theorem valueAt?_grown (h : s₀.Rooted s) (h' : s.Grown s') (a : Address) :
    s'.valueAt? s₀.next a = s.valueAt? s₀.next a := by
  unfold valueAt?
  rw [h.find?_grown h']
  cases hu : s.find? s₀.next a with
  | none => rfl
  | some u =>
    obtain ⟨n, -, rfl⟩ := h.find?_fresh hu
    simp only [Option.bind_some, value?, h'.old (h.find?_there hu)]

end Rooted

/-- A store with the same values in its output, and perhaps more nodes. -/
structure Extends (s₀ s s' : Store) : Prop where
  find? : ∀ {a t}, s.find? s₀.next a = some t → s'.find? s₀.next a = some t
  valueAt? : ∀ a, s'.valueAt? s₀.next a = s.valueAt? s₀.next a

/-- A store with a value in its output changed, and perhaps more nodes. -/
structure Written (s₀ s : Store) (b : Address) (v : Value) (s' : Store) : Prop where
  find? : ∀ {a t}, s.find? s₀.next a = some t → s'.find? s₀.next a = some t
  valueAt? : ∀ a, s'.valueAt? s₀.next a = if a = b then some v else s.valueAt? s₀.next a

namespace Rooted

theorem extends_grow (hn : n < s.cells.size) (hmissing : s.child? (.cell n) k = none) :
    s₀.Extends s (s.grow n k) where
  find? ht := find?_grow_of_some hmissing ht
  valueAt? _ := valueAt?_grow hn hmissing

/-- Below a node of the output every address can be reached. -/
theorem reach (h : s₀.Rooted s) (ht : s.find? s₀.next b = some t) (a : Address) :
    ∃ u s', t.reach a s = .ok u s' ∧ s₀.Rooted s' ∧ s₀.Extends s s' ∧
      s'.find? s₀.next (b ++ a) = some u := by
  induction a generalizing s t b with
  | nil => exact ⟨t, s, rfl, h, ⟨id, fun _ => rfl⟩, by rwa [List.append_nil]⟩
  | cons k a ih =>
    have hnext {s : Store} {t u : Trace} (ht : s.find? s₀.next b = some t)
        (hu : s.child? t k = some u) : s.find? s₀.next (b ++ [k]) = some u := by
      rw [find?_append, ht, Option.bind_some, find?_singleton, hu]
    have hassoc : b ++ k :: a = b ++ [k] ++ a := by simp
    rw [hassoc]
    cases hchild : s.child? t k with
    | some u =>
      rw [Trace.reach_found hchild]
      exact ih h (hnext ht hchild)
    | none =>
      obtain ⟨n, hn, rfl⟩ := h.find?_fresh ht
      have hthere := h.find?_there ht
      have hextends : s₀.Extends s (s.grow n k) := extends_grow hthere hchild
      rw [Trace.reach_missing hchild (h.writable ⟨n, hn, rfl⟩)]
      obtain ⟨u, s', hreach, hs', hextends', hu⟩ :=
        ih (h.grow hn) (hnext (hextends.find? ht) (child?_grow_self hthere))
      exact ⟨u, s', hreach, hs',
        ⟨fun ht => hextends'.find? (hextends.find? ht),
          fun a => (hextends'.valueAt? a).trans (hextends.valueAt? a)⟩, hu⟩

/-- A value that is recorded at an address is the value there, and all others stay. -/
theorem put (h : s₀.Rooted s) (ht : s.find? s₀.next b = some t) (v : Value) :
    ∃ s', t.put (some v) s = .ok () s' ∧ s₀.Rooted s' ∧ s₀.Written s b v s' := by
  obtain ⟨n, hn, rfl⟩ := h.find?_fresh ht
  refine ⟨_, Trace.put_writable (some v) (h.writable ⟨n, hn, rfl⟩), h.setValue hn,
    fun ha => (find?_setValue _).trans ha, fun a => ?_⟩
  unfold valueAt?
  rw [find?_setValue]
  split
  · rename_i hab
    rw [hab, ht, Option.bind_some, value?, cell_setValue, if_pos ⟨rfl, h.find?_there ht⟩]
  · rename_i hab
    cases hu : s.find? s₀.next a with
    | none => rfl
    | some u =>
      obtain ⟨i, hi, rfl⟩ := h.find?_fresh hu
      have hne : i ≠ n := by
        rintro rfl
        exact hab (h.address_unique hu ht)
      rw [Option.bind_some, Option.bind_some, value?, value?, cell_setValue, if_neg (hne ·.1)]

/-- The same below a node of the output. -/
theorem putAt (h : s₀.Rooted s) (ht : s.find? s₀.next b = some t) (a : Address) (v : Value) :
    ∃ s', (t.reach a >>= fun u => u.put (some v)) s = .ok () s' ∧ s₀.Rooted s' ∧
      s₀.Written s (b ++ a) v s' := by
  obtain ⟨u, s', hreach, hs', hextends, hu⟩ := h.reach ht a
  obtain ⟨s'', hput, hs'', hwritten⟩ := hs'.put hu v
  refine ⟨s'', ?_, hs'', fun ha => hwritten.find? (hextends.find? ha), fun c => ?_⟩
  · exact (Trace.reach_put hreach (some v)).trans hput
  · rw [hwritten.valueAt?, hextends.valueAt?]

end Rooted

end Store
end ProbTrace
