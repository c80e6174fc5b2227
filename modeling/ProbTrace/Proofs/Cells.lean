import Mathlib.Data.List.Forall2
import ProbTrace.Scope
import ProbTrace.Tag

/-!
# Cells after an edit

What the cells of a store hold after a value is set or a node is added, and what the
edits of a trace do to the store: reaching an address adds the nodes that are missing,
one after the other, and setting a value changes one cell.
-/

namespace ProbTrace

theorem mem_of_childAt? {children : List (Key × Trace)} {k : Key} {t : Trace}
    (h : childAt? children k = some t) : (k, t) ∈ children := by
  obtain ⟨⟨j, u⟩, hfind, rfl⟩ := Option.map_eq_some_iff.mp h
  have hkey : j = k := by simpa using List.find?_some hfind
  subst hkey
  exact List.mem_of_find?_eq_some hfind

theorem childAt?_of_mem {cs : List (Key × Trace)} (hkeys : (cs.map Prod.fst).Nodup) {k : Key}
    {t : Trace} (h : (k, t) ∈ cs) : childAt? cs k = some t := by
  induction cs with
  | nil => cases h
  | cons c cs ih =>
    obtain ⟨hnew, hkeys⟩ := List.nodup_cons.mp hkeys
    rw [childAt?_cons]
    rcases List.mem_cons.mp h with heq | h
    · rw [← heq, if_pos rfl]
    · have hne : c.1 ≠ k := by
        rintro rfl
        exact hnew (List.mem_map.mpr ⟨(c.1, t), h, rfl⟩)
      rw [if_neg hne]
      exact ih hkeys h

/-- Children under the same keys in the same order, which are related. -/
abbrev KeyedAlike (R : Trace → Trace → Prop) : List (Key × Trace) → List (Key × Trace) → Prop :=
  List.Forall₂ fun p q => p.1 = q.1 ∧ R p.2 q.2

namespace KeyedAlike

variable {R : Trace → Trace → Prop} {cs ds : List (Key × Trace)}

theorem map_fst (h : KeyedAlike R cs ds) : cs.map Prod.fst = ds.map Prod.fst := by
  induction h with
  | nil => rfl
  | cons hpq _ ih => rw [List.map_cons, List.map_cons, hpq.1, ih]

theorem childAt? (h : KeyedAlike R cs ds) (k : Key) :
    (ProbTrace.childAt? cs k = none ∧ ProbTrace.childAt? ds k = none) ∨
      ∃ t u, ProbTrace.childAt? cs k = some t ∧ ProbTrace.childAt? ds k = some u ∧ R t u := by
  induction h with
  | nil => exact .inl ⟨rfl, rfl⟩
  | @cons p q _ _ hpq _ ih =>
    obtain ⟨j, t⟩ := p
    obtain ⟨j', u⟩ := q
    obtain ⟨rfl, htu⟩ : j = j' ∧ R t u := hpq
    rw [childAt?_cons, childAt?_cons]
    split
    · exact .inr ⟨t, u, rfl, rfl, htu⟩
    · exact ih

theorem forall_right (h : KeyedAlike R cs ds) {P : Trace → Prop} (hP : ∀ {t u}, R t u → P u) :
    ∀ d ∈ ds, P d.2 := by
  induction h with
  | nil => exact List.forall_mem_nil _
  | cons hpq _ ih => exact List.forall_mem_cons.mpr ⟨hP hpq.2, ih⟩

theorem insertChild (h : KeyedAlike R cs ds) (k : Key) {t u : Trace} (htu : R t u) :
    KeyedAlike R (ProbTrace.insertChild cs k t) (ProbTrace.insertChild ds k u) := by
  induction h with
  | nil => exact .cons ⟨rfl, htu⟩ .nil
  | @cons p q _ _ hpq hrest ih =>
    obtain ⟨j, x⟩ := p
    obtain ⟨j', y⟩ := q
    obtain ⟨rfl, hxy⟩ : j = j' ∧ R x y := hpq
    simp only [ProbTrace.insertChild]
    split
    · exact .cons ⟨rfl, htu⟩ hrest
    · exact .cons ⟨rfl, hxy⟩ ih

end KeyedAlike

namespace Store

variable (s : Store) (n i : NodeId) (k : Key) (v : Option Value) (t : Trace)

/-- The store with a new cell as the child of a cell. -/
def grow : Store :=
  (s.alloc {}).1.setChild n k (.cell s.cells.size)

theorem cell_of_size_le {s : Store} {i : NodeId} (h : s.cells.size ≤ i) : s.cell i = {} := by
  unfold cell
  rw [Array.getElem?_eq_none h]
  rfl

@[simp] theorem size_alloc (c : Cell) : (s.alloc c).1.cells.size = s.cells.size + 1 := by
  simp [alloc]

@[simp] theorem size_setValue : (s.setValue n v).cells.size = s.cells.size := by
  simp [setValue]

@[simp] theorem size_setChild : (s.setChild n k t).cells.size = s.cells.size := by
  simp [setChild]

@[simp] theorem size_grow : (s.grow n k).cells.size = s.cells.size + 1 := by
  simp [grow]

theorem cell_alloc (c : Cell) :
    (s.alloc c).1.cell i = if i = s.cells.size then c else s.cell i := by
  simp only [cell, alloc, Array.getElem?_push]
  split <;> rfl

/-- A new cell is as the cells that are not there. -/
@[simp] theorem cell_alloc_empty : (s.alloc {}).1.cell i = s.cell i := by
  rw [cell_alloc]
  split
  · rename_i hi
    rw [cell_of_size_le (Nat.le_of_eq hi.symm)]
  · rfl

@[simp] theorem value?_alloc_empty : (s.alloc {}).1.value? t = s.value? t := by
  cases t with
  | tree _ _ => rfl
  | cell i => rw [value?, value?, cell_alloc_empty]

@[simp] theorem children_alloc_empty : (s.alloc {}).1.children t = s.children t := by
  cases t with
  | tree _ _ => rfl
  | cell i => rw [children, children, cell_alloc_empty]

theorem cell_setValue :
    (s.setValue n v).cell i =
      if i = n ∧ n < s.cells.size then { s.cell n with value := v } else s.cell i := by
  simp only [cell, setValue, Array.getElem?_modify]
  by_cases hi : i = n
  · subst hi
    by_cases hsize : i < s.cells.size
    · simp [hsize]
    · simp [hsize]
  · simp [hi, Ne.symm hi]

theorem cell_setChild :
    (s.setChild n k t).cell i =
      if i = n ∧ n < s.cells.size then
        { s.cell n with children := insertChild (s.cell n).children k t }
      else s.cell i := by
  simp only [cell, setChild, Array.getElem?_modify]
  by_cases hi : i = n
  · subst hi
    by_cases hsize : i < s.cells.size
    · simp [hsize]
    · simp [hsize]
  · simp [hi, Ne.symm hi]

/-- Adding a cell changes no other cell but the one that gets the child. -/
theorem cell_grow :
    (s.grow n k).cell i =
      if i = n ∧ n < s.cells.size + 1 then
        { s.cell n with children := insertChild (s.cell n).children k (.cell s.cells.size) }
      else s.cell i := by
  rw [grow, cell_setChild, size_alloc, cell_alloc_empty, cell_alloc_empty]

@[simp] theorem children_setValue : (s.setValue n v).children t = s.children t := by
  cases t with
  | tree _ _ => rfl
  | cell i =>
    rw [children, children, cell_setValue]
    split
    · rename_i hin
      rw [hin.1]
    · rfl

@[simp] theorem isWritable_setValue : (s.setValue n v).isWritable t = s.isWritable t := by
  cases t with
  | tree _ _ => rfl
  | cell i =>
    rw [isWritable, isWritable, cell_setValue]
    split
    · rename_i hin
      rw [hin.1]
    · rfl

@[simp] theorem isWritable_grow : (s.grow n k).isWritable t = s.isWritable t := by
  cases t with
  | tree _ _ => rfl
  | cell i =>
    rw [isWritable, isWritable, cell_grow]
    split
    · rename_i hin
      rw [hin.1]
    · rfl

@[simp] theorem value?_grow : (s.grow n k).value? t = s.value? t := by
  cases t with
  | tree _ _ => rfl
  | cell i =>
    rw [value?, value?, cell_grow]
    split
    · rename_i hin
      rw [hin.1]
    · rfl

theorem mem_insertChild {cs : List (Key × Trace)} {k j : Key} {t u : Trace}
    (h : (j, u) ∈ insertChild cs k t) : (j, u) = (k, t) ∨ (j, u) ∈ cs := by
  induction cs with
  | nil => exact .inl (List.mem_singleton.mp h)
  | cons c cs ih =>
    obtain ⟨l, x⟩ := c
    rw [insertChild] at h
    split at h
    · rcases List.mem_cons.mp h with h | h
      · exact .inl h
      · exact .inr (List.mem_cons_of_mem _ h)
    · rcases List.mem_cons.mp h with h | h
      · exact .inr (h ▸ List.mem_cons_self)
      · exact (ih h).imp_right (List.mem_cons_of_mem _)

/-- What is inherited by children holds at every address. -/
theorem find?_inherits {s : Store} {P : Trace → Prop}
    (hchild : ∀ {t k u}, P t → (k, u) ∈ s.children t → P u) {t u : Trace} (ht : P t) {a : Address}
    (h : s.find? t a = some u) : P u := by
  induction a generalizing t with
  | nil => exact Option.some.inj h ▸ ht
  | cons k a ih =>
    rw [find?] at h
    split at h
    · rename_i x hx
      exact ih (hchild ht (mem_of_childAt? hx)) h
    · cases h

/-- A property that children inherit, and a property of trees that follows from it. -/
structure Outlines (s : Store) (K Q : Trace → Prop) : Prop where
  child : ∀ {t k u}, K t → (k, u) ∈ s.children t → K u
  cell : ∀ {n}, K (.cell n) → Q (.cell n)
  tree : ∀ {t cs}, K t → (∀ k u, (k, u) ∈ cs → Q u) → Q (.tree (s.value? t) cs)

mutual

theorem Outlines.trace {s : Store} {K Q : Trace → Prop} (h : s.Outlines K Q) {f : NodeId → Trace}
    (hf : ∀ {n}, K (.cell n) → Q (f n)) : ∀ t : Trace, K t → Q (t.outline f)
  | .cell _, ht => hf ht
  | .tree _ cs, ht => h.tree ht (h.children hf cs fun _ _ hu => h.child ht hu)

theorem Outlines.children {s : Store} {K Q : Trace → Prop} (h : s.Outlines K Q)
    {f : NodeId → Trace} (hf : ∀ {n}, K (.cell n) → Q (f n)) :
    ∀ cs : List (Key × Trace), (∀ k u, (k, u) ∈ cs → K u) →
      ∀ k u, (k, u) ∈ outlineChildren f cs → Q u
  | [], _, _, _, hu => nomatch hu
  | (j, t) :: rest, hcs, k, u, hu => by
    rcases List.mem_cons.mp hu with heq | hu
    · cases heq
      exact h.trace hf t (hcs _ _ List.mem_cons_self)
    · exact h.children hf rest (fun j x hx => hcs j x (List.mem_cons_of_mem _ hx)) k u hu

end

/-- What follows from a property that children inherit holds of the whole outline. -/
theorem Outlines.outline {s : Store} {K Q : Trace → Prop} (h : s.Outlines K Q) {t : Trace}
    (ht : K t) : Q (s.outline t) := by
  have hdepth (depth : Nat) : ∀ {path n}, K (.cell n) → Q (s.outlineAt depth path n) := by
    induction depth with
    | zero => exact fun hn => h.cell hn
    | succ depth ih =>
      intro path n hn
      rw [outlineAt]
      split
      · exact h.cell hn
      · exact h.tree hn (h.children ih _ fun _ _ hu => h.child hn hu)
  exact h.trace (hdepth _) t ht

theorem find?_append (a b : Address) :
    s.find? t (a ++ b) = (s.find? t a).bind (s.find? · b) := by
  induction a generalizing t with
  | nil => rfl
  | cons k a ih =>
    simp only [List.cons_append, find?]
    cases s.child? t k with
    | none => rfl
    | some u => exact ih u

theorem find?_singleton : s.find? t [k] = s.child? t k := by
  simp only [find?]
  cases s.child? t k <;> rfl

section Found

variable {s : Store} {t u : Trace} {n : NodeId} {k : Key} {a : Address} {v : Value}

theorem find?_setValue (a : Address) : (s.setValue n (some v)).find? t a = s.find? t a := by
  induction a generalizing t with
  | nil => rfl
  | cons k a ih =>
    simp only [find?, child?, children_setValue]
    cases childAt? (s.children t) k with
    | none => rfl
    | some u => exact ih

/-- A child after a node was added is an old one or the new one. -/
theorem child?_grow {j : Key} (hu : (s.grow n k).child? t j = some u) :
    s.child? t j = some u ∨ t = .cell n ∧ j = k ∧ u = .cell s.cells.size := by
  cases t with
  | tree _ _ => exact .inl hu
  | cell i =>
    rw [child?, children, cell_grow] at hu
    split at hu
    · rename_i hin
      rw [childAt?_insertChild] at hu
      split at hu
      · rename_i hkj
        cases hu
        exact .inr ⟨by rw [hin.1], hkj.symm, rfl⟩
      · rw [hin.1]
        exact .inl hu
    · exact .inl hu

theorem child?_grow_of_some (hmissing : s.child? (.cell n) k = none) {j : Key}
    (hu : s.child? t j = some u) : (s.grow n k).child? t j = some u := by
  cases t with
  | tree _ _ => exact hu
  | cell i =>
    rw [child?, children, cell_grow]
    split
    · rename_i hin
      rw [hin.1] at hu
      rw [childAt?_insertChild, if_neg]
      · exact hu
      · rintro rfl
        rw [hmissing] at hu
        cases hu
    · exact hu

theorem child?_grow_self (hn : n < s.cells.size) :
    (s.grow n k).child? (.cell n) k = some (.cell s.cells.size) := by
  rw [child?, children, cell_grow, if_pos ⟨rfl, Nat.lt_succ_of_lt hn⟩, childAt?_insertChild,
    if_pos rfl]

theorem find?_grow_of_some (hmissing : s.child? (.cell n) k = none)
    (hu : s.find? t a = some u) : (s.grow n k).find? t a = some u := by
  induction a generalizing t with
  | nil => exact hu
  | cons j a ih =>
    rw [find?] at hu ⊢
    cases hchild : s.child? t j with
    | none =>
      rw [hchild] at hu
      cases hu
    | some x =>
      rw [hchild] at hu
      rw [child?_grow_of_some hmissing hchild]
      exact ih hu

/-- A node found after a node was added is an old one or the new one. -/
theorem find?_grow (hn : n < s.cells.size) (hu : (s.grow n k).find? t a = some u) :
    s.find? t a = some u ∨ u = .cell s.cells.size := by
  induction a generalizing t with
  | nil => exact .inl hu
  | cons j a ih =>
    rw [find?] at hu
    cases hchild : (s.grow n k).child? t j with
    | none =>
      rw [hchild] at hu
      cases hu
    | some x =>
      rw [hchild] at hu
      rcases child?_grow hchild with hold | ⟨-, -, rfl⟩
      · rw [find?, hold]
        exact ih hu
      · -- The new cell has no children yet.
        right
        cases a with
        | nil => exact (Option.some.inj hu).symm
        | cons l a =>
          have hne : s.cells.size ≠ n := (Nat.ne_of_lt hn).symm
          have hcell : (s.grow n k).cell s.cells.size = {} := by
            rw [cell_grow, if_neg (hne ·.1), cell_of_size_le (Nat.le_refl _)]
          simp only [find?, child?, children, hcell, childAt?_nil] at hu
          cases hu

/-- A node that is added holds no value. -/
theorem valueAt?_grow (hn : n < s.cells.size) (hmissing : s.child? (.cell n) k = none) :
    (s.grow n k).valueAt? t a = s.valueAt? t a := by
  have hnew : s.value? (.cell s.cells.size) = none := by
    rw [value?, cell_of_size_le (Nat.le_refl _)]
  unfold valueAt?
  cases hold : s.find? t a with
  | some u =>
    rw [find?_grow_of_some hmissing hold]
    exact value?_grow s n k u
  | none =>
    cases hu : (s.grow n k).find? t a with
    | none => rfl
    | some u =>
      rcases find?_grow hn hu with hold' | rfl
      · rw [hold] at hold'
        cases hold'
      · exact (value?_grow s n k _).trans hnew

/-- Every node of a store is found in another where it was. -/
def FoundIn (s s' : Store) : Prop :=
  ∀ {t a u}, s.find? t a = some u → s'.find? t a = some u

theorem find?_alloc_empty : (s.alloc {}).1.find? t a = s.find? t a := by
  induction a generalizing t with
  | nil => rfl
  | cons k a ih =>
    simp only [find?, child?, children_alloc_empty]
    cases childAt? (s.children t) k with
    | none => rfl
    | some u => exact ih

end Found

end Store

/-- Every node of a trace has the same value, the same children and is as writable in
another store. -/
def Trace.Unchanged (s s' : Store) (t : Trace) : Prop :=
  ∀ a u, s.find? t a = some u →
    s'.value? u = s.value? u ∧ s'.children u = s.children u ∧ s'.isWritable u = s.isWritable u

namespace Trace.Unchanged

variable {s s' : Store} {t : Trace}

theorem find?_eq (h : t.Unchanged s s') (a : Address) : s'.find? t a = s.find? t a := by
  induction a generalizing t with
  | nil => rfl
  | cons k a ih =>
    have hchild : s'.child? t k = s.child? t k := by
      rw [Store.child?, Store.child?, (h [] t rfl).2.1]
    rw [Store.find?, Store.find?, hchild]
    cases hu : s.child? t k with
    | none => rfl
    | some u =>
      refine ih fun b x hx => h (k :: b) x ?_
      rw [Store.find?, hu]
      exact hx

theorem valueAt?_eq (h : t.Unchanged s s') (a : Address) : s'.valueAt? t a = s.valueAt? t a := by
  unfold Store.valueAt?
  rw [h.find?_eq]
  cases hu : s.find? t a with
  | none => rfl
  | some u => exact (h a u hu).1

end Trace.Unchanged

theorem bind_find?_append {s : Store} {overlay : Option Trace} (a b : Address) :
    (overlay.bind (s.find? · a)).bind (s.find? · b) = overlay.bind (s.find? · (a ++ b)) := by
  cases overlay with
  | none => rfl
  | some t => exact (Store.find?_append _ _ a b).symm

namespace Trace

variable {s : Store} {t u : Trace} {n : NodeId} {k : Key} {ks : Address}

/-- Only a cell can be written to. -/
theorem isWritable_cases (t : Trace) (s : Store) :
    s.isWritable t = false ∨ ∃ n, t = .cell n ∧ s.isWritable (.cell n) = true := by
  cases hw : s.isWritable t with
  | false => exact .inl rfl
  | true =>
    cases t with
    | tree _ _ => cases hw
    | cell n => exact .inr ⟨n, rfl, hw⟩

theorem writableCell_ok (h : s.isWritable (.cell n) = true) :
    (Trace.cell n).writableCell s = .ok n s := by
  show (if s.isWritable (.cell n) then pure n else throw (.readOnly _) : Edit NodeId) s = _
  rw [if_pos h]
  rfl

theorem writableCell_readOnly (h : s.isWritable t = false) :
    t.writableCell s = .error (.readOnly t) s := by
  cases t with
  | tree _ _ => rfl
  | cell n =>
    show (if s.isWritable (.cell n) then pure n else throw (.readOnly _) : Edit NodeId) s = _
    rw [if_neg (by simp [h])]
    rfl

theorem put_writable (v : Option Value) (h : s.isWritable (.cell n) = true) :
    (Trace.cell n).put v s = .ok () (s.setValue n v) := by
  simp only [put, bind, EStateM.bind, writableCell_ok h]
  rfl

theorem put_readOnly (v : Option Value) (h : s.isWritable t = false) :
    t.put v s = .error (.readOnly t) s := by
  simp only [put, bind, EStateM.bind, writableCell_readOnly h]

theorem reach_cons (t : Trace) (k : Key) (ks : Address) (s : Store) :
    t.reach (k :: ks) s = (match s.child? t k with
      | some u => u.reach ks
      | none => do
        let n ← t.writableCell
        let u ← Edit.alloc {}
        modify fun s => s.setChild n k u
        u.reach ks : Edit Trace) s := by
  rw [reach]
  rfl

theorem reach_found (h : s.child? t k = some u) : t.reach (k :: ks) s = u.reach ks s := by
  rw [reach_cons, h]

theorem reach_missing (h : s.child? (.cell n) k = none) (hw : s.isWritable (.cell n) = true) :
    (Trace.cell n).reach (k :: ks) s = (Trace.cell s.cells.size).reach ks (s.grow n k) := by
  rw [reach_cons, h]
  simp only [bind, EStateM.bind, writableCell_ok hw]
  rfl

theorem reach_readOnly (h : s.child? t k = none) (hw : s.isWritable t = false) :
    t.reach (k :: ks) s = .error (.readOnly t) s := by
  rw [reach_cons, h]
  simp only [bind, EStateM.bind, writableCell_readOnly hw]

/-- Going on from a node that was reached is reaching an address below it. -/
theorem reach_append {s' : Store} {a : Address} (h : t.reach a s = .ok u s') (b : Address) :
    t.reach (a ++ b) s = u.reach b s' := by
  induction a generalizing t s with
  | nil =>
    cases h
    rfl
  | cons k a ih =>
    rw [List.cons_append]
    cases hchild : s.child? t k with
    | some x =>
      rw [reach_found hchild] at h ⊢
      exact ih h
    | none =>
      rcases isWritable_cases t s with hw | ⟨n, rfl, hw⟩
      · rw [reach_readOnly hchild hw] at h
        cases h
      · rw [reach_missing hchild hw] at h ⊢
        exact ih h

/-- A node that is there is reached without a change. -/
theorem reach_of_find? {a : Address} (h : s.find? t a = some u) : t.reach a s = .ok u s := by
  induction a generalizing t with
  | nil =>
    cases h
    rfl
  | cons k a ih =>
    rw [Store.find?] at h
    cases hchild : s.child? t k with
    | none =>
      rw [hchild] at h
      cases h
    | some x =>
      rw [hchild] at h
      rw [reach_found hchild]
      exact ih h

/-- Every node of a trace is a cell that is there and can be written to. -/
def Writable (s : Store) (t : Trace) : Prop :=
  ∀ a u, s.find? t a = some u → ∃ n, u = .cell n ∧ n < s.cells.size ∧ s.isWritable u = true

theorem Writable.child (h : t.Writable s) (hu : s.child? t k = some u) : u.Writable s := by
  intro a x hx
  refine h (k :: a) x ?_
  rw [Store.find?, hu]
  exact hx

/-- A node that was just added can be written to, and nothing else is below it. -/
theorem writable_grow : (Trace.cell s.cells.size).Writable (s.grow n k) := by
  have hnew : s.cell s.cells.size = {} := Store.cell_of_size_le (Nat.le_refl _)
  have hself : ∀ {j u}, (j, u) ∈ (s.grow n k).children (.cell s.cells.size) →
      u = .cell s.cells.size := by
    intro j u hu
    rw [Store.children, Store.cell_grow] at hu
    split at hu
    · rename_i hn
      rw [← hn.1, hnew] at hu
      cases List.mem_singleton.mp hu
      rfl
    · rw [hnew] at hu
      cases hu
  intro a u hu
  have hu : u = .cell s.cells.size := by
    refine Store.find?_inherits (P := (· = .cell s.cells.size)) ?_ rfl hu
    rintro _ _ _ rfl
    exact hself
  refine ⟨s.cells.size, hu, ?_, ?_⟩
  · rw [Store.size_grow]
    exact Nat.lt_succ_self _
  · rw [hu, Store.isWritable_grow, Store.isWritable, hnew]

/-- Below a trace that can be written to every address can be reached.  The node is then found
there and can be written to, and the nodes that were added hold no values. -/
theorem exists_reach {a : Address} (h : t.Writable s) :
    ∃ u s', t.reach a s = .ok u s' ∧ s'.find? t a = some u ∧ s'.isWritable u = true ∧
      s.FoundIn s' ∧ ∀ x b, s'.valueAt? x b = s.valueAt? x b := by
  induction a generalizing t s with
  | nil =>
    obtain ⟨n, -, -, hw⟩ := h [] t rfl
    exact ⟨t, s, rfl, rfl, hw, fun hu => hu, fun _ _ => rfl⟩
  | cons k a ih =>
    cases hchild : s.child? t k with
    | some x =>
      obtain ⟨u, s', hreach, hfind, hu, hfound, hvalues⟩ := ih (h.child hchild)
      have hchild' : s'.child? t k = some x := by
        rw [← Store.find?_singleton] at hchild ⊢
        exact hfound hchild
      refine ⟨u, s', ?_, ?_, hu, hfound, hvalues⟩
      · rw [reach_found hchild]
        exact hreach
      · rw [Store.find?, hchild']
        exact hfind
    | none =>
      obtain ⟨n, rfl, hn, hw⟩ := h [] t rfl
      obtain ⟨u, s', hreach, hfind, hu, hfound, hvalues⟩ := ih (writable_grow (n := n) (k := k))
      -- What was found before the rest is reached is found there afterwards.
      have hchild' : s'.child? (.cell n) k = some (.cell s.cells.size) := by
        rw [← Store.find?_singleton]
        refine hfound ?_
        rw [Store.find?_singleton]
        exact Store.child?_grow_self hn
      refine ⟨u, s', ?_, ?_, hu, fun hx => hfound (Store.find?_grow_of_some hchild hx), ?_⟩
      · rw [reach_missing hchild hw]
        exact hreach
      · rw [Store.find?, hchild']
        exact hfind
      · intro x b
        rw [hvalues]
        exact Store.valueAt?_grow hn hchild

/-- A value is set in the node that was reached. -/
theorem reach_put {a : Address} {s' : Store} (h : t.reach a s = .ok u s') (v : Option Value) :
    (t.reach a >>= fun u => u.put v) s = u.put v s' := by
  simp only [bind, EStateM.bind, h]

theorem reach_put_error {a : Address} {s' : Store} {f : Fault} (h : t.reach a s = .error f s')
    (v : Option Value) : (t.reach a >>= fun u => u.put v) s = .error f s' := by
  simp only [bind, EStateM.bind, h]

/-- A value is set in a cell that is there to be written, or not at all. -/
theorem put_cases (t : Trace) (v : Option Value) (s : Store) :
    (∃ n, t = .cell n ∧ s.isWritable t = true ∧ t.put v s = .ok () (s.setValue n v)) ∨
      s.isWritable t = false ∧ t.put v s = .error (.readOnly t) s := by
  rcases isWritable_cases t s with hw | ⟨n, rfl, hw⟩
  · exact .inr ⟨hw, put_readOnly v hw⟩
  · exact .inl ⟨n, rfl, hw, put_writable v hw⟩

end Trace

/-! ## Addresses given as values -/

/-- The keys of an address are read back from the address as a value. -/
theorem Address.ofValues_toValue (a : Address) :
    Address.ofValues a.toValue.addressItems = (a, none) := by
  show Address.ofValues (a.map Key.toValue) = (a, none)
  induction a with
  | nil => rfl
  | cons k a ih => simp only [List.map_cons, Address.ofValues, Value.key?_toValue, ih]

theorem Address.ofValues_of_address? {x : Value} {a : Address} (h : x.address? = some a) :
    Address.ofValues x.addressItems = (a, none) := by
  rw [Value.address?] at h
  split at h
  · rename_i hvalues
    rw [hvalues, Option.some.inj h]
  · cases h

@[simp] theorem Value.address?_toValue (a : Address) : a.toValue.address? = some a := by
  rw [Value.address?, Address.ofValues_toValue]

namespace Trace

variable {s : Store} {t : Trace} {x : Value} {a : Address}

theorem reachAt_of_address? (h : x.address? = some a) (s : Store) :
    t.reachAt x s = t.reach a s := by
  simp only [reachAt, Address.ofValues_of_address? h, bind, EStateM.bind]
  cases t.reach a s <;> rfl

theorem putAt_of_address? (hw : s.isWritable t = true) (h : x.address? = some a) (v : Value) :
    t.putAt x v s = (t.reach a >>= fun u => u.put (some v)) s := by
  cases t with
  | tree _ _ => cases hw
  | cell n => simp only [putAt, bind, EStateM.bind, writableCell_ok hw, reachAt_of_address? h]

end Trace

namespace Overlays

variable {s s' : Store} {o : Overlays Trace} {t u : Trace} {a : Address}

theorem mapM_reach (t : Trace) (a : Address) (s : Store) :
    (some t).mapM (fun t => t.reach a) s = (some <$> t.reach a) s :=
  rfl

/-- Without an output, going below overlays changes nothing. -/
theorem below_absent (h : o.output = none) :
    o.below a s = .ok { intervene := o.intervene.bind (s.find? · a),
                        target := o.target.bind (s.find? · a) } s := by
  show Overlays.reaching _ o.output a s = _
  rw [h]
  rfl

/-- With an output, going below overlays reaches its node. -/
theorem below_reach (h : o.output = some t) (hreach : t.reach a s = .ok u s') :
    o.below a s = .ok { intervene := o.intervene.bind (s.find? · a),
                        target := o.target.bind (s.find? · a),
                        output := some u } s' := by
  show Overlays.reaching _ o.output a s = _
  rw [h]
  simp only [reaching, bind, EStateM.bind, mapM_reach, Functor.map, EStateM.map, hreach]
  rfl

theorem below_fails {f : Fault} (h : o.output = some t) (hreach : t.reach a s = .error f s') :
    o.below a s = .error f s' := by
  show Overlays.reaching _ o.output a s = _
  rw [h]
  simp only [reaching, bind, EStateM.bind, mapM_reach, Functor.map, EStateM.map, hreach]

end Overlays

theorem Run.edit_ok {α : Type} {e : Edit α} {m : Machine} {x : α} {s : Store}
    (h : e m.store = .ok x s) : Run.edit e m = .ok x { m with store := s } := by
  simp only [Run.edit, h]

theorem Run.edit_error {α : Type} {e : Edit α} {m : Machine} {f : Fault} {s : Store}
    (h : e m.store = .error f s) :
    Run.edit e m = .error (.fault (s.raised f)) { m with store := s } := by
  simp only [Run.edit, h]

end ProbTrace
