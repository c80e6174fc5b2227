import ProbTrace.Proofs.Comparison
import ProbTrace.Proofs.Integrity
import ProbTrace.Proofs.ReadOnly

/-!
# Runs are isolated from each other

A run of a procedure leaves cells, frames and serial numbers behind, and the next run starts
where it ended.  Nothing of that shows in the next run: it gives what it would have given from
the first machine with the same random numbers.

Two runs of one procedure go side by side, the second from a later machine.  What was there in
the earlier machine is the same for both, and neither changes it: a call binds names in frames
that were opened since, and records in cells that were made since.  What each run makes, it
makes in the same order, so that the things of the second run are those of the first, with
their numbers shifted.
-/

namespace ProbTrace

namespace Machine

/-- A machine that has given out more and has kept what was there. -/
structure Later (m n : Machine) : Prop extends m.Precedes n where
  cell : ∀ {i}, i < m.store.cells.size → n.store.cell i = m.store.cell i
  bindings : ∀ {id}, id < m.frames.size → n.bindings id = m.bindings id

theorem Later.trans {m n n' : Machine} (h : m.Later n) (h' : n.Later n') : m.Later n' where
  toPrecedes := h.toPrecedes.trans h'.toPrecedes
  cell hi := (h'.cell (Nat.lt_of_lt_of_le hi h.cells)).trans (h.cell hi)
  bindings hid := (h'.bindings (Nat.lt_of_lt_of_le hid h.frames)).trans (h.bindings hid)

theorem Later.refl (m : Machine) : m.Later m :=
  ⟨.refl m, fun _ => rfl, fun _ => rfl⟩

/-- The machine, about to take the random numbers that another one is about to take. -/
def drawingAs (m n : Machine) : Machine :=
  { m with draws := n.draws, spare := n.spare }

theorem Later.drawingAs {m n : Machine} (h : m.Later n) (l : Machine) : m.Later (n.drawingAs l) :=
  ⟨⟨h.serials, h.frames, h.cells⟩, h.cell, h.bindings⟩

/-- All that can be reached from a thing was given out, and is no tag. -/
def Settled (m : Machine) : Item → Prop :=
  m.Throughout fun x => x.IsGiven m ∧ ∀ serial o, x ≠ .value (.tag serial o)

namespace Settled

variable {m : Machine}

theorem refers {x y : Item} (h : m.Settled x) (hxy : m.Refers x y) : m.Settled y :=
  Throughout.hereditary h hxy

theorem cell_lt {n : NodeId} (h : m.Settled (.trace (.cell n))) : n < m.store.cells.size :=
  h.self.1

theorem frame_lt {id : FrameId} {c : Scope} (h : m.Settled (.scope (.frame id c))) :
    id < m.frames.size :=
  h.self.1

theorem not_tag {serial : Nat} {o : Overlays Trace} (h : m.Settled (.value (.tag serial o))) :
    False :=
  h.self.2 serial o rfl

theorem tree {value : Option Value} {cs : List (Key × Trace)}
    (hvalue : ∀ v ∈ value, m.Settled (.value v))
    (hcs : ∀ k u, (k, u) ∈ cs → m.Settled (.trace u)) : m.Settled (.trace (.tree value cs)) := by
  refine .intro ⟨trivial, fun _ _ h => nomatch h⟩ fun y hy => ?_
  rcases hy.tree_cases with ⟨v, hv, rfl⟩ | ⟨k, u, hu, rfl⟩
  · exact hvalue v hv
  · exact hcs k u hu

theorem empty : m.Settled (.trace .empty) :=
  .tree (fun _ hv => nomatch hv) fun _ _ hu => nomatch hu

theorem null : m.Settled (.value .null) :=
  .intro ⟨trivial, fun _ _ h => nomatch h⟩ fun _ hy => by
    cases hy with
    | item hitems _ => cases hitems

theorem find? {t u : Trace} {a : Address} (h : m.Settled (.trace t))
    (hu : m.store.find? t a = some u) : m.Settled (.trace u) :=
  Store.find?_inherits (P := fun t => m.Settled (.trace t)) (fun h hu => h.refers (.child hu)) h hu

end Settled

theorem Closed.settled {m : Machine} (h : m.Closed) {x : Item} (hx : m.Knows x)
    (htag : m.TagFree x) : m.Settled x := by
  refine fun y hy => ⟨h.throughout hx y hy, fun serial o heq => ?_⟩
  subst heq
  exact htag serial o hy

theorem Later.keptIn {m n : Machine} (h : m.Later n) : m.KeptIn m.Settled n.store where
  inherited := Settled.refers
  there hn := hn.cell_lt
  size := h.cells
  cell hn := h.cell hn.cell_lt

end Machine

namespace Isolation

/-! ## What corresponds -/

/-- A number that was given out before both runs, or the numbers that both gave out after
as many others. -/
def Shifted (a b i j : Nat) : Prop :=
  i < a ∧ i = j ∨ ∃ k, i = a + k ∧ j = b + k

/-- A cell within a range. -/
def Between (low high : Nat) (t : Trace) : Prop :=
  ∃ i, low ≤ i ∧ i < high ∧ t = .cell i

section Relation

variable (m n : Machine)

/-- The cells that both runs made after as many others. -/
def Twin (t u : Trace) : Prop :=
  ∃ k, t = .cell (m.store.cells.size + k) ∧ u = .cell (n.store.cells.size + k)

/-- The frames that both runs opened after as many others. -/
def Opened (i j : FrameId) : Prop :=
  ∃ k, i = m.frames.size + k ∧ j = n.frames.size + k

/-- A frame that was there, or the frames that both runs opened after as many others. -/
def Visible (i j : FrameId) : Prop :=
  (i = j ∧ ∃ c, m.Settled (.scope (.frame i c))) ∨ Opened m n i j

/-- Overlays that read the same and record into corresponding cells. -/
structure Fits (o p : Overlays Trace) : Prop where
  intervene : o.intervene = p.intervene
  target : o.target = p.target
  read : ∀ t, t ∈ o.intervene ∨ t ∈ o.target → m.Settled (.trace t)
  output : Option.Rel (Twin m n) o.output p.output

/-- Values that are the same but for the numbers of what the runs made. -/
def likeness : Likeness where
  trace t := m.Settled (.trace t)
  tag i o j p := Shifted m.serials n.serials i j ∧ Fits m n o p
  closure source name i c j d := Shifted m.serials n.serials i j ∧
    (m.Settled (.trace source) ∧ m.Settled (.value name)) ∧ ScopesAlike (Visible m n) c d
  special _ := True
  undefined := Shifted m.serials n.serials

/-- Cells with values that are alike, and corresponding cells under the same keys. -/
structure NodesAlike (c d : Cell) : Prop where
  value : Option.Rel (Value.Alike (likeness m n)) c.value d.value
  children : KeyedAlike (Twin m n) c.children d.children
  writable : c.writable = true ∧ d.writable = true

/-- The stores of both runs: what was there is as it was, and what was made corresponds.  Each
has its output, which was made first. -/
structure StoresAlike (s s' : Store) : Prop where
  size : ∃ k, s.cells.size = m.store.cells.size + (k + 1) ∧
    s'.cells.size = n.store.cells.size + (k + 1)
  old : ∀ {i}, i < m.store.cells.size → s.cell i = m.store.cell i
  old' : ∀ {i}, i < n.store.cells.size → s'.cell i = n.store.cell i
  node : ∀ k, NodesAlike m n (s.cell (m.store.cells.size + k)) (s'.cell (n.store.cells.size + k))
  child : ∀ {i k x}, n.store.cells.size ≤ i → (k, x) ∈ (s'.cell i).children →
    Between n.store.cells.size s'.cells.size x

/-- The frames of both runs, likewise. -/
structure FramesAlike (w : Pair) : Prop where
  size : ∃ k, w.first.frames.size = m.frames.size + k ∧ w.second.frames.size = n.frames.size + k
  old : ∀ {id}, id < m.frames.size → w.first.bindings id = m.bindings id
  old' : ∀ {id}, id < n.frames.size → w.second.bindings id = n.bindings id
  frame : ∀ {i j}, Opened m n i j →
    FrameAlike (likeness m n) (w.first.bindings i) (w.second.bindings j)

/-- The machines of both runs. -/
structure Beside (w : Pair) : Prop where
  draws : w.first.draws = w.second.draws
  spare : w.first.spare = w.second.spare
  serials : ∃ k, w.first.serials = m.serials + k ∧ w.second.serials = n.serials + k
  stores : StoresAlike m n w.first.store w.second.store
  frames : FramesAlike m n w

end Relation

/-- Two traces with the same keys in the same order at the same addresses, and with values
that are alike. -/
structure TracesAlike (L : Likeness) (s : Store) (t : Trace) (s' : Store) (u : Trace) : Prop where
  keys : ∀ a, (s.find? t a).map (fun x => (s.children x).map Prod.fst) =
    (s'.find? u a).map fun y => (s'.children y).map Prod.fst
  value : ∀ a, Option.Rel (Value.Alike L) (s.valueAt? t a) (s'.valueAt? u a)

variable {m n : Machine} {s s' : Store} {t u : Trace} {a : Address} {v v' : Value}
variable {w : Pair} {A : Address} {o p : Overlays Trace}

theorem covers : m.Covers m.Settled (likeness m n) where
  inherited := Machine.Settled.refers
  trace _ ht := ht
  tag _ _ h := h.not_tag.elim
  closure serial source c name h := by
    have hscope : m.Settled (.scope c) := h.refers (.scope serial source c name)
    refine ⟨.inl ⟨h.self.1, rfl⟩, ⟨h.refers (.source serial source c name),
      h.refers (.name serial source c name)⟩, ?_⟩
    clear h
    induction c with
    | top => exact .top
    | absent => exact .absent
    | frame id c ih => exact .frame (.inl ⟨rfl, c, hscope⟩) (ih (hscope.refers (.outer id c)))
  special _ _ := trivial
  undefined _ h := .inl ⟨h.self.1, rfl⟩

/-- Shifted numbers are told apart alike. -/
theorem Shifted.beq_eq {a b i j k l : Nat} (hab : a ≤ b) (h : Shifted a b i j)
    (h' : Shifted a b k l) : (i == k) = (j == l) := by
  have hiff : i = k ↔ j = l := by
    rcases h with ⟨hi, rfl⟩ | ⟨x, rfl, rfl⟩ <;> rcases h' with ⟨hk, rfl⟩ | ⟨y, rfl, rfl⟩ <;> omega
  rw [Bool.eq_iff_iff, beq_iff_eq, beq_iff_eq, hiff]

theorem not_shift_of_lt {a i k : Nat} {P : Prop} (hi : i < a) : ¬ (i = a + k ∧ P) := by
  omega

/-- One of the numbers that were given out is meant, which does not depend on the start. -/
theorem shift_iff {a i k d size : Nat} (hsize : size = a + d) :
    (a + i = a + k ∧ a + k < size) ↔ (i = k ∧ k < d) := by
  omega

/-! ## Stores -/

namespace StoresAlike

/-- The stores from the start, when each has its output. -/
theorem start : StoresAlike m n (m.store.alloc {}).1 (n.store.alloc {}).1 where
  size := ⟨0, Store.size_alloc .., Store.size_alloc ..⟩
  old _ := Store.cell_alloc_empty ..
  old' _ := Store.cell_alloc_empty ..
  node k := by
    rw [Store.cell_alloc_empty, Store.cell_alloc_empty,
      Store.cell_of_size_le (Nat.le_add_right _ k), Store.cell_of_size_le (Nat.le_add_right _ k)]
    exact ⟨.none, .nil, rfl, rfl⟩
  child hi hx := by
    rw [Store.cell_alloc_empty, Store.cell_of_size_le hi] at hx
    cases hx

theorem writable (h : StoresAlike m n s s') (ht : Twin m n t u) :
    s.isWritable t = true ∧ s'.isWritable u = true := by
  obtain ⟨k, rfl, rfl⟩ := ht
  exact (h.node k).writable

theorem value? (h : StoresAlike m n s s') (ht : Twin m n t u) :
    Option.Rel (Value.Alike (likeness m n)) (s.value? t) (s'.value? u) := by
  obtain ⟨k, rfl, rfl⟩ := ht
  exact (h.node k).value

theorem children (h : StoresAlike m n s s') (ht : Twin m n t u) :
    KeyedAlike (Twin m n) (s.children t) (s'.children u) := by
  obtain ⟨k, rfl, rfl⟩ := ht
  exact (h.node k).children

/-- The next cells of both stores. -/
theorem next (h : StoresAlike m n s s') :
    Twin m n (.cell s.cells.size) (.cell s'.cells.size) := by
  obtain ⟨k, hk, hk'⟩ := h.size
  exact ⟨k + 1, by rw [hk], by rw [hk']⟩

/-- A cell of both stores is changed alike. -/
theorem setValue (h : StoresAlike m n s s') (k : Nat) (hv : Value.Alike (likeness m n) v v') :
    StoresAlike m n (s.setValue (m.store.cells.size + k) (some v))
      (s'.setValue (n.store.cells.size + k) (some v')) := by
  obtain ⟨d, hd, hd'⟩ := h.size
  refine ⟨⟨d, ?_, ?_⟩, fun {i} hi => ?_, fun {i} hi => ?_, fun i => ?_, fun {i j x} hi hx => ?_⟩
  · rw [Store.size_setValue, hd]
  · rw [Store.size_setValue, hd']
  · rw [Store.cell_setValue, if_neg (not_shift_of_lt hi)]
    exact h.old hi
  · rw [Store.cell_setValue, if_neg (not_shift_of_lt hi)]
    exact h.old' hi
  · simp only [Store.cell_setValue, shift_iff hd, shift_iff hd']
    split
    · exact ⟨.some hv, (h.node k).children, (h.node k).writable⟩
    · exact h.node i
  · change (j, x) ∈ (s'.setValue _ _).children (.cell i) at hx
    rw [Store.children_setValue] at hx
    rw [Store.size_setValue]
    exact h.child hi hx

/-- A cell of both stores gets a new child. -/
theorem grow (h : StoresAlike m n s s') (k : Nat) (key : Key) :
    StoresAlike m n (s.grow (m.store.cells.size + k) key)
      (s'.grow (n.store.cells.size + k) key) := by
  obtain ⟨d, hd, hd'⟩ := h.size
  have hsize : s.cells.size + 1 = m.store.cells.size + (d + 1 + 1) := by rw [hd, Nat.add_assoc]
  have hsize' : s'.cells.size + 1 = n.store.cells.size + (d + 1 + 1) := by rw [hd', Nat.add_assoc]
  refine ⟨⟨d + 1, ?_, ?_⟩, fun {i} hi => ?_, fun {i} hi => ?_, fun i => ?_, fun {i j x} hi hx => ?_⟩
  · rw [Store.size_grow, hsize]
  · rw [Store.size_grow, hsize']
  · rw [Store.cell_grow, if_neg (not_shift_of_lt hi)]
    exact h.old hi
  · rw [Store.cell_grow, if_neg (not_shift_of_lt hi)]
    exact h.old' hi
  -- The node that grows is equally far from the start of its run in both stores.
  · simp only [Store.cell_grow, shift_iff hsize, shift_iff hsize']
    split
    · exact ⟨(h.node k).value, (h.node k).children.insertChild key h.next, (h.node k).writable⟩
    · exact h.node i
  · have hchild {i : NodeId} {j : Key} {x : Trace} (hi : n.store.cells.size ≤ i)
        (hx : (j, x) ∈ (s'.cell i).children) :
        Between n.store.cells.size (s'.cells.size + 1) x := by
      obtain ⟨c, hlow, hhigh, rfl⟩ := h.child hi hx
      exact ⟨c, hlow, Nat.lt_succ_of_lt hhigh, rfl⟩
    rw [Store.size_grow]
    rw [Store.cell_grow] at hx
    split at hx
    · rcases Store.mem_insertChild hx with hnew | hx
      · cases hnew
        exact ⟨_, hd' ▸ Nat.le_add_right _ _, Nat.lt_succ_self _, rfl⟩
      · exact hchild (Nat.le_add_right _ k) hx
    · exact hchild hi hx

/-- Both runs reach the same address below corresponding cells. -/
theorem reach (h : StoresAlike m n s s') (ht : Twin m n t u) (a : Address) :
    ∃ x y r r', t.reach a s = .ok x r ∧ u.reach a s' = .ok y r' ∧ StoresAlike m n r r' ∧
      Twin m n x y := by
  induction a generalizing s s' t u with
  | nil => exact ⟨t, u, s, s', rfl, rfl, h, ht⟩
  | cons k a ih =>
    rcases (h.children ht).childAt? k with ⟨hnone, hnone'⟩ | ⟨x, y, hx, hy, hxy⟩
    · obtain ⟨hwritable, hwritable'⟩ := h.writable ht
      obtain ⟨i, rfl, rfl⟩ := ht
      rw [Trace.reach_missing hnone hwritable, Trace.reach_missing hnone' hwritable']
      exact ih (h.grow i k) h.next
    · rw [Trace.reach_found hx, Trace.reach_found hy]
      exact ih h hxy

theorem put (h : StoresAlike m n s s') (ht : Twin m n t u)
    (hv : Value.Alike (likeness m n) v v') :
    ∃ r r', t.put (some v) s = .ok () r ∧ u.put (some v') s' = .ok () r' ∧
      StoresAlike m n r r' := by
  obtain ⟨hwritable, hwritable'⟩ := h.writable ht
  obtain ⟨k, rfl, rfl⟩ := ht
  exact ⟨_, _, Trace.put_writable (some v) hwritable, Trace.put_writable (some v') hwritable',
    h.setValue k hv⟩

/-- Corresponding cells have corresponding cells at the same addresses. -/
theorem find? (h : StoresAlike m n s s') (ht : Twin m n t u) (a : Address) :
    Option.Rel (Twin m n) (s.find? t a) (s'.find? u a) := by
  induction a generalizing t u with
  | nil => exact .some ht
  | cons k a ih =>
    rw [Store.find?, Store.find?]
    rcases (h.children ht).childAt? k with ⟨hnone, hnone'⟩ | ⟨x, y, hx, hy, hxy⟩
    · simp only [Store.child?, hnone, hnone']
      exact .none
    · simp only [Store.child?, hx, hy]
      exact ih hxy

/-- All nodes of the output are new. -/
theorem between (h : StoresAlike m n s s') (hu : s'.find? n.store.next a = some u) :
    Between n.store.cells.size s'.cells.size u := by
  obtain ⟨k, -, hk⟩ := h.size
  refine Store.find?_inherits (P := Between n.store.cells.size s'.cells.size) ?_ ?_ hu
  · rintro _ _ x ⟨i, hi, -, rfl⟩ hx
    exact h.child hi hx
  · exact ⟨_, Nat.le_refl _, hk ▸ Nat.lt_add_of_pos_right (Nat.succ_pos k), rfl⟩

theorem tracesAlike (h : StoresAlike m n s s') (ht : Twin m n t u) :
    TracesAlike (likeness m n) s t s' u where
  keys a := by
    rcases rel_cases (h.find? ht a) with ⟨hx, hy⟩ | ⟨x, y, hx, hy, hxy⟩
    · rw [hx, hy]
      rfl
    · rw [hx, hy, Option.map_some, Option.map_some, (h.children hxy).map_fst]
  value a := by
    unfold Store.valueAt?
    rcases rel_cases (h.find? ht a) with ⟨hx, hy⟩ | ⟨x, y, hx, hy, hxy⟩
    · rw [hx, hy]
      exact .none
    · rw [hx, hy]
      exact h.value? hxy

end StoresAlike

/-! ## Frames -/

namespace FramesAlike

theorem visible (hmn : m.Later n) (h : FramesAlike m n w) {i j : FrameId} (hij : Visible m n i j) :
    FrameAlike (likeness m n) (w.first.bindings i) (w.second.bindings j) := by
  rcases hij with ⟨rfl, c, hc⟩ | hij
  · have hi := hc.frame_lt
    rw [h.old hi, h.old' (Nat.lt_of_lt_of_le hi hmn.frames), hmn.bindings hi]
    exact .refl _ fun _ v hv => covers.alike v (hc.refers (.bound hv))
  · exact h.frame hij

theorem ofFrames (h : FramesAlike m n w) {w' : Pair} (hfirst : w'.first.frames = w.first.frames)
    (hsecond : w'.second.frames = w.second.frames) : FramesAlike m n w' := by
  obtain ⟨hsize, hold, hold', hframe⟩ := h
  unfold Machine.bindings at hold hold' hframe
  refine ⟨?_, ?_, ?_, ?_⟩
  · rw [hfirst, hsecond]
    exact hsize
  · unfold Machine.bindings
    rw [hfirst]
    exact hold
  · unfold Machine.bindings
    rw [hsecond]
    exact hold'
  · unfold Machine.bindings
    rw [hfirst, hsecond]
    exact hframe

/-- The next frames of both machines. -/
theorem next (h : FramesAlike m n w) : Opened m n w.first.frames.size w.second.frames.size :=
  h.size

theorem push (h : FramesAlike m n w) :
    FramesAlike m n ⟨{ w.first with frames := w.first.frames.push .empty },
      { w.second with frames := w.second.frames.push .empty }⟩ where
  size := by
    obtain ⟨k, hk, hk'⟩ := h.size
    exact ⟨k + 1, by simp only [Array.size_push]; omega, by simp only [Array.size_push]; omega⟩
  old hid := by
    rw [Machine.bindings_push]
    exact h.old hid
  old' hid := by
    rw [Machine.bindings_push]
    exact h.old' hid
  frame hij := by
    rw [Machine.bindings_push, Machine.bindings_push]
    exact h.frame hij

theorem updated (h : FramesAlike m n w) {i j : FrameId} (hij : Opened m n i j)
    {f g : Option Value → Option Value} (a : Address)
    (hfg : ∀ {x y}, Option.Rel (Value.Alike (likeness m n)) x y →
      Option.Rel (Value.Alike (likeness m n)) (f x) (g y)) :
    FramesAlike m n (w.updated i j a f g) := by
  have hupdate := (h.frame hij).update hfg a
  obtain ⟨d, hd, hd'⟩ := h.size
  obtain ⟨k, rfl, rfl⟩ := hij
  refine ⟨⟨d, ?_, ?_⟩, fun {id} hid => ?_, fun {id} hid => ?_, ?_⟩
  · simpa [Pair.updated] using hd
  · simpa [Pair.updated] using hd'
  · rw [Pair.updated, Machine.bindings_modify, if_neg (not_shift_of_lt hid)]
    exact h.old hid
  · rw [Pair.updated, Machine.bindings_modify, if_neg (not_shift_of_lt hid)]
    exact h.old' hid
  · rintro _ _ ⟨l, rfl, rfl⟩
    simp only [Pair.updated, Machine.bindings_modify, shift_iff hd, shift_iff hd']
    split
    · exact hupdate
    · exact h.frame ⟨l, rfl, rfl⟩

end FramesAlike

/-! ## The simulation -/

namespace Beside

/-- The machines with other stores. -/
theorem withStores (h : Beside m n w) (hs : StoresAlike m n s s') :
    Beside m n ⟨{ w.first with store := s }, { w.second with store := s' }⟩ where
  draws := h.draws
  spare := h.spare
  serials := h.serials
  stores := hs
  frames := h.frames.ofFrames rfl rfl

/-- The first machine keeps what was there. -/
theorem first (h : Beside m n w) : m.Later w.first := by
  obtain ⟨i, hi, -⟩ := h.serials
  obtain ⟨j, hj, -⟩ := h.frames.size
  obtain ⟨k, hk, -⟩ := h.stores.size
  exact ⟨⟨hi ▸ Nat.le_add_right _ i, hj ▸ Nat.le_add_right _ j, hk ▸ Nat.le_add_right _ (k + 1)⟩,
    h.stores.old, h.frames.old⟩

/-- So does the second one. -/
theorem second (h : Beside m n w) : n.Later w.second := by
  obtain ⟨i, -, hi⟩ := h.serials
  obtain ⟨j, -, hj⟩ := h.frames.size
  obtain ⟨k, -, hk⟩ := h.stores.size
  exact ⟨⟨hi ▸ Nat.le_add_right _ i, hj ▸ Nat.le_add_right _ j, hk ▸ Nat.le_add_right _ (k + 1)⟩,
    h.stores.old', h.frames.old'⟩

/-- The machines from the start, when each has its output. -/
theorem start : Beside m n ⟨(m.drawingAs n).withOutput, n.withOutput⟩ where
  draws := rfl
  spare := rfl
  serials := ⟨0, rfl, rfl⟩
  stores := .start
  frames := by
    refine ⟨⟨0, rfl, rfl⟩, fun _ => rfl, fun _ => rfl, ?_⟩
    rintro _ _ ⟨k, rfl, rfl⟩
    show FrameAlike _ (m.bindings _) (n.bindings _)
    rw [Machine.bindings_of_size_le (Nat.le_add_right _ k),
      Machine.bindings_of_size_le (Nat.le_add_right _ k)]
    exact .empty

end Beside

/-- What was there reads the same on both sides. -/
theorem Beside.keptBy (h : Beside m n w) (hmn : m.Later n) :
    m.KeptBy m.Settled (likeness m n) w.first.store w.second.store where
  first := h.first.keptIn
  second := (hmn.trans h.second).keptIn
  trace ht := ht
  name hc := hc.2.1.2
  serials := ⟨fun ht hu => ht.1.beq_eq hmn.serials hu.1, fun hc hd => hc.1.beq_eq hmn.serials hd.1,
    fun hi hj => hi.beq_eq hmn.serials hj⟩

/-- Scopes with corresponding frames, the innermost of which was opened since. -/
def ScopesBeside (m n : Machine) (c d : Scope) : Prop :=
  ScopesAlike (Visible m n) c d ∧ InnermostAlike (Opened m n) c d

/-- A run from one machine beside a run from a later one. -/
def simulation (m n : Machine) : Simulation where
  like := likeness m n
  related := Beside m n
  advance _ _ _ := True
  site _ _ := Fits m n
  code _ e c d := m.Settled (.trace e) ∧ ScopesBeside m n c d
  parts _ e c d := m.Settled (.trace e) ∧ ScopesBeside m n c d
  entered _ e c d := m.Settled (.trace e) ∧ ScopesBeside m n c d
  binding _ e c d := m.Settled (.trace e) ∧ ScopesBeside m n c d
  walked _ := Value.Alike (likeness m n)
  assumed _ := True
  lenient := False
  halted _ _ w h k := Beside m n w ∧ HaltsAlike (likeness m n) h k

theorem basic (hmn : m.Later n) : (simulation m n).Basic where
  advance_refl _ := trivial
  advance_append _ _ := trivial
  site_later _ h := h
  halted_append _ h := h
  fault hw hf := ⟨hw, .fault hf⟩
  tooDeep hw := ⟨hw, .tooDeep⟩
  text hw hv := (hw.keptBy hmn).hasText_eq hv

theorem openFrame_runs {e : Trace} {c d : Scope} (h : ScopesAlike (Visible m n) c d) :
    (simulation m n).Runs A w (.openFrame e c) (.openFrame e d) fun _ => ScopesBeside m n := by
  intro hw _
  have hnext := hw.frames.next
  exact ⟨trivial, ⟨hw.draws, hw.spare, hw.serials, hw.stores, hw.frames.push⟩,
    .frame (.inr hnext) h, .frame _ _ hnext⟩

section Laws

variable (hmn : m.Later n)
include hmn

/-- Below corresponding overlays there are corresponding overlays. -/
theorem below_runs (a : Address) (h : Fits m n o p) :
    (simulation m n).Runs A w (.watch (Run.edit (o.below a))) (.watch (Run.edit (p.below a)))
      fun _ => Fits m n := by
  intro hw _
  obtain ⟨hintervene, hread⟩ := (hw.keptBy hmn).find?_overlay (fun t ht => h.read t (.inl ht)) a
  obtain ⟨htarget, hread'⟩ := (hw.keptBy hmn).find?_overlay (fun t ht => h.read t (.inr ht)) a
  have hfits {output output' : Option Trace} (houtput : Option.Rel (Twin m n) output output') :
      Fits m n { intervene := o.intervene.bind (w.first.store.find? · a),
                 target := o.target.bind (w.first.store.find? · a), output }
        { intervene := p.intervene.bind (w.second.store.find? · a),
          target := p.target.bind (w.second.store.find? · a), output := output' } := by
    refine ⟨?_, ?_, ?_, houtput⟩
    · rw [← h.intervene]
      exact hintervene
    · rw [← h.target]
      exact htarget
    · rintro t (ht | ht)
      · exact hread t ht
      · exact hread' t ht
  simp only [Watched.run_watch]
  rcases rel_cases h.output with ⟨ho, hp⟩ | ⟨t, u, ho, hp, htu⟩
  · rw [Run.edit_ok (Overlays.below_absent ho), Run.edit_ok (Overlays.below_absent hp)]
    exact ⟨trivial, hw, hfits .none⟩
  · obtain ⟨x, y, r, r', hx, hy, hr, hxy⟩ := hw.stores.reach htu a
    rw [Run.edit_ok (Overlays.below_reach ho hx), Run.edit_ok (Overlays.below_reach hp hy)]
    exact ⟨trivial, hw.withStores hr, hfits (.some hxy)⟩

theorem traced {ctx : Context} (htop : ctx.topLevel = .standard) :
    (simulation m n).Traced ctx (ScopesBeside m n) where
  toBasic := basic hmn
  code_iff := .rfl
  parts_iff := .rfl
  entered_iff := .rfl
  binding_iff := .rfl
  emptyTrace := .empty
  value?_eq hw ht := (hw.keptBy hmn).value?_eq ht
  children_eq hw ht := (hw.keptBy hmn).children_eq ht
  outline_eq hw ht := (hw.keptBy hmn).outline_eq ht
  patterns hw := Simulation.Basic.keptPatterns id (basic hmn) covers (hw.keptBy hmn).second .tree
  held hw ht hv := by
    rw [(hw.keptBy hmn).second.value?_eq ht] at hv
    exact covers.alike _ (ht.refers (.held hv))
  child hw ht hu := by
    rw [(hw.keptBy hmn).second.children_eq ht] at hu
    exact ht.refers (.child hu)
  lookup hname hw hscopes := by
    rw [htop]
    exact Scope.find_agree (hw.frames.visible hmn)
      (TopLevel.resolve_standard_agree (fun _ _ => trivial) hname) hscopes.1
  closure hsource hname hscopes := by
    intro hw _
    have hsettled := hname.kept id .null fun hw => (hw.keptBy hmn).second
    obtain ⟨k, hk, hk'⟩ := hw.serials
    refine ⟨trivial, ⟨hw.draws, hw.spare, ⟨k + 1, ?_, ?_⟩, hw.stores, hw.frames.ofFrames rfl rfl⟩,
      .inr ⟨k, hk, hk'⟩, ⟨hsource, hsettled⟩, hscopes.1⟩
    · exact congrArg (· + 1) hk
    · exact congrArg (· + 1) hk'
  openBlock hscopes := openFrame_runs hscopes.1
  openClosure h := (openFrame_runs h.2.2).mono fun _ _ _ _ hscopes => ⟨h.2.1.1, hscopes⟩
  bindName hname hscopes :=
    Simulation.bindName_runs (basic hmn) hname (fun hw hij => hw.frames.frame hij)
      (fun _ hw hij hfg => ⟨⟨hw.draws, hw.spare, hw.serials, hw.stores,
        hw.frames.updated hij _ hfg⟩, trivial⟩) hscopes.2
  event _ _ := trivial
  walked_iff := .rfl
  belowTag a htag := below_runs hmn a htag.2

omit hmn in
/-- Both runs write to their own output. -/
theorem writing_runs {x y : Watched Unit}
    (h : StoresAlike m n w.first.store w.second.store → ∃ r r',
      x.run w.first = .ok () { w.first with store := r } ∧
      y.run w.second = .ok () { w.second with store := r' } ∧ StoresAlike m n r r') :
    (simulation m n).Runs A w x y fun _ _ _ => True := by
  intro hw _
  obtain ⟨r, r', hx, hy, hr⟩ := h hw.stores
  rw [hx, hy]
  exact ⟨trivial, hw.withStores hr, trivial⟩

omit hmn in
theorem recordCall_runs {f f' : Value} {vs vs' : List Value} (h : Fits m n o p)
    (hv : Value.Alike (likeness m n) v v') :
    (simulation m n).Runs A w (.recordCall f vs o v) (.recordCall f' vs' p v')
      fun _ _ _ => True := by
  refine writing_runs fun hs => ?_
  rw [Watched.run_recordCall, Watched.run_recordCall]
  rcases rel_cases h.output with ⟨ho, hp⟩ | ⟨t, u, ho, hp, htu⟩
  · rw [ho, hp]
    exact ⟨_, _, rfl, rfl, hs⟩
  · obtain ⟨r, r', hput, hput', hr⟩ := hs.put htu hv
    rw [ho, hp]
    exact ⟨r, r', Run.edit_ok hput, Run.edit_ok hput', hr⟩

omit hmn in
theorem recordDefinition_runs (h : Fits m n o p) (hv : Value.Alike (likeness m n) v v') :
    (simulation m n).Runs A w (.recordDefinition a o v) (.recordDefinition a p v')
      fun _ _ _ => True := by
  refine writing_runs fun hs => ?_
  unfold Watched.recordDefinition
  rcases rel_cases h.output with ⟨ho, hp⟩ | ⟨t, u, ho, hp, htu⟩
  · rw [ho, hp]
    exact ⟨_, _, rfl, rfl, hs⟩
  · rw [ho, hp, ← hv.isTagAddress_eq]
    dsimp only
    split
    · exact ⟨_, _, rfl, rfl, hs⟩
    · obtain ⟨x, y, r, r', hx, hy, hr, hxy⟩ := hs.reach htu a
      obtain ⟨q, q', hput, hput', hq⟩ := hr.put hxy hv
      have hedit := (Trace.reach_put hx (some v)).trans hput
      have hedit' := (Trace.reach_put hy (some v')).trans hput'
      refine ⟨q, q', ?_, ?_, hq⟩
      · rw [Watched.run_bind_apply, Watched.run_watch, Run.edit_ok hedit]
        rfl
      · rw [Watched.run_bind_apply, Watched.run_watch, Run.edit_ok hedit']
        rfl

theorem checkOutput_runs (h : Fits m n o p) :
    (simulation m n).Runs A w (.checkOutput o) (.checkOutput p) fun _ _ _ => True := by
  refine (basic hmn).ofStore fun hw => ?_
  rcases rel_cases h.output with ⟨ho, hp⟩ | ⟨t, u, ho, hp, htu⟩
  · rw [ho, hp]
    exact .ok trivial
  · obtain ⟨hwritable, hwritable'⟩ := hw.stores.writable htu
    simp only [ho, hp, Evaluator.checkOutput, hwritable, hwritable', if_true]
    exact .ok trivial

theorem parallel {ctx : Context} (htop : ctx.topLevel = .standard) :
    (simulation m n).Parallel where
  toBasic := basic hmn
  drawn hw := ⟨hw.draws, hw.spare⟩
  numbered hw := .inr hw.serials
  quiet {w m' n'} hw hstore hframes hstore' hframes' hcounted := by
    obtain ⟨k, hk, hk'⟩ := hw.serials
    obtain ⟨l, hl, hl'⟩ := hcounted.serials
    refine ⟨⟨hcounted.draws, hcounted.spare, ⟨k + l, ?_, ?_⟩, ?_, ?_⟩, trivial⟩
    · rw [hl, hk, Nat.add_assoc]
    · rw [hl', hk', Nat.add_assoc]
    · rw [hstore, hstore']
      exact hw.stores
    · exact hw.frames.ofFrames hframes hframes'
  alike_of_walked _ hv := hv
  force _ hsite hv := by
    refine (basic hmn).force id (fun hw => ?_) hv
    rw [← hsite.intervene]
    exact (traced hmn htop).overlaid_rel hw (fun t ht => hsite.read t (.inl ht)) _
  gave hv := Simulation.gave_runs (fun _ => trivial) hv
  forced _ hw hsite := by
    rw [← hsite.intervene]
    exact (traced hmn htop).overlaid_rel hw (fun t ht => hsite.read t (.inl ht)) []
  observed _ hw hsite := by
    rw [← hsite.target]
    exact (traced hmn htop).overlaid_rel hw (fun t ht => hsite.read t (.inr ht)) []
  same hw hv hu := (hw.keptBy hmn).same_eq hv hu
  relate r hw hv hu := (hw.keptBy hmn).relate_eq r hv hu
  captured hw hsite := ⟨.inr hw.serials, hsite⟩
  remark _ _ := trivial
  checkOutput hsite := checkOutput_runs hmn hsite
  below a hsite := below_runs hmn a hsite
  recordCall _ _ _ _ _ hsite hv := recordCall_runs hsite hv
  defined _ _ := trivial
  recordDefinition _ hsite hv := recordDefinition_runs hsite hv
  returned _ _ _ _ _ := trivial

theorem lawful {ctx : Context} (htop : ctx.topLevel = .standard) :
    (simulation m n).Lawful ctx where
  toBasic := basic hmn
  toCoded := (traced hmn htop).coded
  toOverlaid := (parallel hmn htop).overlaid ctx

end Laws

/-! ## Whole runs -/

/-- A run that records into an output that is there. -/
def inferInto (ctx : Context) (proc inputs : Value) (observed forced : Option Trace)
    (trace : Trace) : Watched Evaluator.Execution := do
  let r ← Watched.apply ctx proc inputs forced observed (.trace trace)
  Watched.watch (Run.compose [proc, r.1, r.2])
  return { value := r.1, trace, score := ← Watched.watch (Run.enroll r.2) }

theorem run_inferInto (ctx : Context) (proc inputs : Value) (observed forced : Option Trace)
    (n : Machine) :
    (inferInto ctx proc inputs observed forced n.store.next).run n.withOutput =
      Evaluator.infer ctx proc inputs observed forced n := by
  simp only [inferInto, Watched.run_bind, Watched.run_apply, Watched.run_watch]
  rfl

/-- The ends of both runs, each of which recorded into its first cell. -/
inductive RunEnds (m n : Machine) : EStateM.Result Halt Machine Evaluator.Execution →
    EStateM.Result Halt Machine Evaluator.Execution → Prop
  | returned {v v' score score' : Value} {m' n' : Machine} : Beside m n ⟨m', n'⟩ →
      Value.Alike (likeness m n) v v' → Value.Alike (likeness m n) score score' →
      RunEnds m n (.ok { value := v, trace := m.store.next, score } m')
        (.ok { value := v', trace := n.store.next, score := score' } n')
  | failed {h k : Halt} {m' n' : Machine} : Beside m n ⟨m', n'⟩ →
      HaltsAlike (likeness m n) h k → RunEnds m n (.error h m') (.error k n')

theorem overlays_runs (hmn : m.Later n) {intervene target : Option Trace}
    (hread : ∀ t, t ∈ intervene ∨ t ∈ target → m.Settled (.trace t)) (htu : Twin m n t u) :
    (simulation m n).Runs A w (.overlays intervene target (.trace t))
      (.overlays intervene target (.trace u)) fun _ => Fits m n := by
  refine (basic hmn).ofStore fun hw => ?_
  obtain ⟨hwritable, hwritable'⟩ := hw.stores.writable htu
  simp only [Evaluator.withOutput, Evaluator.checkOutput, hwritable, hwritable', if_true]
  exact .ok ⟨rfl, rfl, hread, .some htu⟩

section Runs

variable {ctx : Context} (htop : ctx.topLevel = .standard) {proc inputs : Value}
variable {observed forced : Option Trace} (hproc : m.Settled (.value proc))
variable (hinputs : m.Settled (.value inputs))
variable (hread : ∀ t, t ∈ forced ∨ t ∈ observed → m.Settled (.trace t))
include htop hproc hinputs hread

/-- A run from a machine ends as a run from a later one that takes the same random numbers. -/
theorem infer_ends (hmn : m.Later n) :
    RunEnds m n (Evaluator.infer ctx proc inputs observed forced (m.drawingAs n))
      (Evaluator.infer ctx proc inputs observed forced n) := by
  have hruns {w : Pair} : (simulation m n).Runs [] w
      (inferInto ctx proc inputs observed forced m.store.next)
      (inferInto ctx proc inputs observed forced n.store.next) fun _ x y =>
        x.trace = m.store.next ∧ y.trace = n.store.next ∧
        Value.Alike (likeness m n) x.value y.value ∧
        Value.Alike (likeness m n) x.score y.score := by
    refine (basic hmn).bind ((lawful hmn htop).apply (covers.alike _ hproc) (covers.alike _ hinputs)
      fun _ _ => overlays_runs hmn hread ⟨0, rfl, rfl⟩) ?_
    rintro w₁ r q - ⟨hvalue, hscore⟩
    refine (basic hmn).bind ((basic hmn).compose
      (.cons (covers.alike _ hproc) (.cons hvalue (.cons hscore .nil)))) ?_
    rintro w₁' - - - -
    refine (basic hmn).bind ((parallel hmn htop).enroll hscore) ?_
    rintro w₂ score score' - hscore
    exact (basic hmn).pure ⟨rfl, rfl, hvalue, hscore⟩
  have hends := hruns Beside.start fun _ _ => trivial
  have hfirst := run_inferInto ctx proc inputs observed forced (m.drawingAs n)
  have hsecond := run_inferInto ctx proc inputs observed forced n
  dsimp only at hends
  rw [hsecond, show m.store.next = (m.drawingAs n).store.next from rfl, hfirst] at hends
  revert hends
  generalize Evaluator.infer ctx proc inputs observed forced (m.drawingAs n) = r
  generalize Evaluator.infer ctx proc inputs observed forced n = q
  intro hends
  rcases r with ⟨⟨v, trace, score⟩, m'⟩ | ⟨h, m'⟩ <;>
    rcases q with ⟨⟨v', trace', score'⟩, n'⟩ | ⟨k, n'⟩
  · obtain ⟨-, hw, rfl, rfl, hv, hscore⟩ := hends
    exact .returned hw hv hscore
  · exact hends.elim
  · exact hends.elim
  · obtain ⟨hw, hk⟩ := hends.resolve_left id
    exact .failed hw hk

/-- Whatever a run gives, it keeps what was there. -/
theorem later_leaves (hmn : m.Later n) :
    n.Later ((Evaluator.infer ctx proc inputs observed forced).leaves n) := by
  have hends := infer_ends htop hproc hinputs hread hmn
  unfold Run.leaves
  revert hends
  generalize Evaluator.infer ctx proc inputs observed forced (m.drawingAs n) = r
  generalize Evaluator.infer ctx proc inputs observed forced n = q
  rintro (⟨hw, -, -⟩ | ⟨hw, -⟩)
  · exact hw.second
  · exact hw.second

end Runs

end Isolation
end ProbTrace
