import Mathlib.Data.List.Perm.Subperm
import Mathlib.Logic.Relation
import ProbTrace.Proofs.Cells
import ProbTrace.Proofs.Grammar

/-!
# Unfolding a trace

What can be seen of a trace is, at every address, the value of the node there and the keys of its
children in order.  The outline of a trace without cycles is a tree without cells in which the same
is seen: no cell is met twice on the way down, so the outline is never cut off.
-/

namespace ProbTrace

namespace Store

/-- A trace is a child of another one. -/
def IsChild (s : Store) (t u : Trace) : Prop :=
  ∃ k, (k, u) ∈ s.children t

/-- A trace is below another one. -/
abbrev Below (s : Store) : Trace → Trace → Prop :=
  Relation.TransGen s.IsChild

/-- A trace is another one or below it. -/
abbrev Within (s : Store) : Trace → Trace → Prop :=
  Relation.ReflTransGen s.IsChild

/-- What is seen at an address: the value of the node there and the keys of its children. -/
def seenAt? (s : Store) (t : Trace) (a : Address) : Option (Option Value × List Key) :=
  (s.find? t a).map fun u => (s.value? u, (s.children u).map Prod.fst)

/-- A path through cells of a store that meets none twice. -/
structure Path (s : Store) (path : List NodeId) : Prop where
  nodup : path.Nodup
  lt : ∀ n ∈ path, n < s.cells.size

namespace Path

variable {s : Store} {path : List NodeId}

theorem length_le (h : s.Path path) : path.length ≤ s.cells.size := by
  have hsub : path ⊆ List.range s.cells.size := fun n hn => List.mem_range.mpr (h.lt n hn)
  simpa using (h.nodup.subperm hsub).length_le

theorem nil : s.Path [] where
  nodup := .nil
  lt := by simp

theorem cons (h : s.Path path) {n : NodeId} (hn : n < s.cells.size) (hmem : n ∉ path) :
    s.Path (n :: path) where
  nodup := List.nodup_cons.mpr ⟨hmem, h.nodup⟩
  lt := List.forall_mem_cons.mpr ⟨hn, h.lt⟩

end Path

variable {s s' : Store} {t u : Trace}

theorem seenAt?_nil : s.seenAt? t [] = some (s.value? t, (s.children t).map Prod.fst) :=
  rfl

theorem seenAt?_cons (k : Key) (a : Address) :
    s.seenAt? t (k :: a) = (s.child? t k).bind (s.seenAt? · a) := by
  rw [seenAt?, find?]
  cases s.child? t k <;> rfl

theorem seenAt?_append (a b : Address) :
    s.seenAt? t (a ++ b) = (s.find? t a).bind (s.seenAt? · b) := by
  rw [seenAt?, find?_append]
  cases s.find? t a <;> rfl

theorem valueAt?_eq_seenAt? (a : Address) : s.valueAt? t a = (s.seenAt? t a).bind Prod.fst := by
  rw [valueAt?, seenAt?]
  cases s.find? t a <;> rfl

theorem isSome_seenAt? (a : Address) : (s.seenAt? t a).isSome = (s.find? t a).isSome :=
  Option.isSome_map ..

/-- Nodes with the same value and children in which the same is seen look the same. -/
theorem seenAt?_eq_of_keyedAlike (hvalue : s.value? t = s'.value? u)
    (hchildren : KeyedAlike (fun x y => ∀ a, s.seenAt? x a = s'.seenAt? y a)
      (s.children t) (s'.children u)) (a : Address) : s.seenAt? t a = s'.seenAt? u a := by
  cases a with
  | nil => rw [seenAt?_nil, seenAt?_nil, hvalue, hchildren.map_fst]
  | cons k a =>
    rw [seenAt?_cons, seenAt?_cons, child?, child?]
    rcases hchildren.childAt? k with ⟨hx, hy⟩ | ⟨x, y, hx, hy, hxy⟩
    · rw [hx, hy]
      rfl
    · rw [hx, hy, Option.bind_some, Option.bind_some, hxy]

/-- A tree without cells that looks like a trace. -/
structure Unfolds (s : Store) (t o : Trace) : Prop where
  solid : o.Solid
  seen : ∀ a, s.seenAt? o a = s.seenAt? t a

/-- Nodes with the same value look the same if their children do. -/
theorem Unfolds.ofChildren {ds : List (Key × Trace)}
    (h : KeyedAlike s.Unfolds (s.children t) ds) : s.Unfolds t (.tree (s.value? t) ds) where
  solid := .tree (h.forall_right Unfolds.solid)
  seen a := by
    have hvalue : s.value? t = s.value? (.tree (s.value? t) ds) := rfl
    apply Eq.symm (seenAt?_eq_of_keyedAlike hvalue ?_ a)
    exact h.imp fun _ _ hxy => ⟨hxy.1, fun a => (hxy.2.seen a).symm⟩

end Store

namespace Trace

/-- No cell of a trace is below itself. -/
def Acyclic (s : Store) (t : Trace) : Prop :=
  ∀ n, s.Within t (.cell n) → ¬ s.Below (.cell n) (.cell n)

variable {s : Store} {t u : Trace}

theorem Acyclic.within (h : t.Acyclic s) (hu : s.Within t u) : u.Acyclic s :=
  fun n hn => h n (hu.trans hn)

mutual

/-- The outline of a trace looks like the trace if the outlines of its cells do. -/
theorem unfolds_outline {f : NodeId → Trace} : ∀ t : Trace,
    (∀ n, s.Within t (.cell n) → s.Unfolds (.cell n) (f n)) → s.Unfolds t (t.outline f)
  | .cell n, h => h n .refl
  | .tree _ cs, h => by
    refine .ofChildren (keyedAlike_outlineChildren cs fun k u hu n hn => ?_)
    exact h n (.head ⟨k, hu⟩ hn)

theorem keyedAlike_outlineChildren {f : NodeId → Trace} : ∀ cs : List (Key × Trace),
    (∀ k u, (k, u) ∈ cs → ∀ n, s.Within u (.cell n) → s.Unfolds (.cell n) (f n)) →
      KeyedAlike s.Unfolds cs (outlineChildren f cs)
  | [], _ => .nil
  | (k, t) :: rest, h => by
    have hfirst : s.Unfolds t (t.outline f) :=
      unfolds_outline t (h k t List.mem_cons_self)
    have hrest := keyedAlike_outlineChildren rest fun j u hu =>
      h j u (List.mem_cons_of_mem (k, t) hu)
    exact .cons ⟨rfl, hfirst⟩ hrest

end

/-- The outline of a cell, below cells that are all above it.  There are fewer of these than the
store has cells, so that the depth is never used up. -/
theorem unfolds_outlineAt {depth : Nat} {path : List NodeId} {n : NodeId}
    (hn : (Trace.cell n).Acyclic s) (hpath : s.Path path)
    (habove : ∀ m ∈ path, s.Below (.cell m) (.cell n))
    (hdepth : s.cells.size < depth + path.length) :
    s.Unfolds (.cell n) (s.outlineAt depth path n) := by
  induction depth generalizing path n with
  | zero =>
    have hlength := hpath.length_le
    omega
  | succ depth ih =>
    have hfree : n ∉ path := fun hmem => hn n .refl (habove n hmem)
    rw [Store.outlineAt, if_neg hfree]
    refine .ofChildren (keyedAlike_outlineChildren _ fun k u hu m hm => ?_)
    have hthere : n < s.cells.size := by
      by_contra hsize
      rw [Store.children, Store.cell_of_size_le (Nat.le_of_not_lt hsize)] at hu
      cases hu
    have hbelow : s.Below (.cell n) (.cell m) := .head' ⟨k, hu⟩ hm
    apply ih (hn.within hbelow.to_reflTransGen) (hpath.cons hthere hfree)
    · intro i hi
      rcases List.mem_cons.mp hi with rfl | hi
      · exact hbelow
      · exact (habove i hi).trans hbelow
    · rw [List.length_cons]
      omega

/-- The outline of a trace without cycles looks like the trace. -/
theorem Acyclic.unfolds (h : t.Acyclic s) : s.Unfolds t (s.outline t) := by
  refine unfolds_outline t fun n hn => ?_
  refine unfolds_outlineAt (h.within hn) .nil (List.forall_mem_nil _) ?_
  simp [Store.depth]

/-- A store in which every child is a cell after its parent has no cycles. -/
theorem acyclic_of_lt (h : ∀ {n k u}, (k, u) ∈ s.children (.cell n) → ∃ m, u = .cell m ∧ n < m) :
    t.Acyclic s := by
  have hbelow : ∀ {n u}, s.Below (.cell n) u → ∃ m, u = .cell m ∧ n < m := by
    intro n u hu
    induction hu with
    | single hchild => exact h hchild.choose_spec
    | tail _ hchild ih =>
      obtain ⟨m, rfl, hm⟩ := ih
      obtain ⟨k, hk⟩ := hchild
      obtain ⟨i, rfl, hi⟩ := h hk
      exact ⟨i, rfl, Nat.lt_trans hm hi⟩
  intro n _ hcycle
  obtain ⟨m, hm, hlt⟩ := hbelow hcycle
  cases hm
  exact Nat.lt_irrefl _ hlt

end Trace
end ProbTrace
