import ProbTrace.Proofs.Unfolding

/-!
# Traces that never change

Clients call operations on traces: they set values, put traces below others, add nodes, make traces
and copies, and read.  No call changes a cell that cannot be written to, whether it succeeds or
fails; what one call keeps a run of calls keeps, by induction.

A frozen copy of a trace consists of new cells that cannot be written to, and looks like the trace.
So it stays as it is, whatever is called on whichever traces, and the copy itself may be put below
others.
-/

namespace ProbTrace

/-- A cell that cannot be written to. -/
def Cell.ReadOnly (c : Cell) : Prop :=
  c.writable = false

namespace Store

/-- The cells with a property are as they were, and all cells are still there. -/
structure Keeps (P : Cell → Prop) (s s' : Store) : Prop where
  size : s.cells.size ≤ s'.cells.size
  cell : ∀ {n}, n < s.cells.size → P (s.cell n) → s'.cell n = s.cell n

namespace Keeps

variable {P : Cell → Prop} {s s' s'' : Store} {n : NodeId} {k : Key} {v : Option Value} {t : Trace}

theorem refl : s.Keeps P s where
  size := Nat.le_refl _
  cell _ _ := rfl

theorem trans (h : s.Keeps P s') (h' : s'.Keeps P s'') : s.Keeps P s'' where
  size := Nat.le_trans h.size h'.size
  cell hn hP := by
    have hcell := h.cell hn hP
    have hcell' := h'.cell (Nat.lt_of_lt_of_le hn h.size) (hcell ▸ hP)
    exact hcell'.trans hcell

theorem alloc (c : Cell) : s.Keeps P (s.alloc c).1 where
  size := by
    rw [size_alloc]
    exact Nat.le_succ _
  cell hn _ := by
    rw [cell_alloc, if_neg (Nat.ne_of_lt hn)]

theorem ne_of_readOnly {i : NodeId} (hi : (s.cell i).ReadOnly)
    (hn : s.isWritable (.cell n) = true) : i ≠ n := by
  rintro rfl
  exact Bool.false_ne_true (hi.symm.trans hn)

theorem setValue (hn : s.isWritable (.cell n) = true) :
    s.Keeps Cell.ReadOnly (s.setValue n v) where
  size := Nat.le_of_eq (size_setValue ..).symm
  cell _ hi := by
    rw [cell_setValue, if_neg fun hin => ne_of_readOnly hi hn hin.1]

theorem setChild (hn : s.isWritable (.cell n) = true) :
    s.Keeps Cell.ReadOnly (s.setChild n k t) where
  size := Nat.le_of_eq (size_setChild ..).symm
  cell _ hi := by
    rw [cell_setChild, if_neg fun hin => ne_of_readOnly hi hn hin.1]

theorem grow (hn : s.isWritable (.cell n) = true) : s.Keeps Cell.ReadOnly (s.grow n k) where
  size := by
    rw [size_grow]
    exact Nat.le_succ _
  cell _ hi := by
    rw [cell_grow, if_neg fun hin => ne_of_readOnly hi hn hin.1]

end Keeps

end Store

mutual

/-- A copy is made of new cells only. -/
theorem keeps_toCells {P : Cell → Prop} (w : Bool) : ∀ (t : Trace) (s : Store),
    s.Keeps P (t.toCells w s).1
  | .cell _, _ => .refl
  | .tree _ cs, s => (keeps_toChildCells w cs s).trans (.alloc _)

theorem keeps_toChildCells {P : Cell → Prop} (w : Bool) : ∀ (cs : List (Key × Trace)) (s : Store),
    s.Keeps P (toChildCells w cs s).1
  | [], _ => .refl
  | (_, t) :: rest, s => (keeps_toCells w t s).trans (keeps_toChildCells w rest _)

end

/-! ## What a call keeps -/

namespace Edit

variable {α β : Type}

/-- The store that an edit leaves behind, whether it succeeds or fails. -/
def leaves (x : Edit α) (s : Store) : Store :=
  match x s with
  | .ok _ s' => s'
  | .error _ s' => s'

/-- An edit that changes no cell that cannot be written to. -/
def Safe (x : Edit α) : Prop :=
  ∀ s : Store, s.Keeps Cell.ReadOnly (x.leaves s)

namespace Safe

theorem pure (a : α) : Safe (Pure.pure a) :=
  fun _ => .refl

theorem throw (f : Fault) : Safe (MonadExcept.throw f : Edit α) :=
  fun _ => .refl

theorem get : Safe (MonadState.get : Edit Store) :=
  fun _ => .refl

theorem bind {x : Edit α} {f : α → Edit β} (hx : x.Safe) (hf : ∀ a, (f a).Safe) :
    Safe (x >>= f) := by
  intro s
  have hfirst := hx s
  simp only [leaves, Bind.bind, EStateM.bind] at hfirst ⊢
  cases hresult : x s with
  | error f s' =>
    rw [hresult] at hfirst
    exact hfirst
  | ok a s' =>
    rw [hresult] at hfirst
    exact hfirst.trans (hf a s')

theorem forM {xs : List α} {f : α → Edit Unit} (h : ∀ a, (f a).Safe) : Safe (xs.forM f) := by
  induction xs with
  | nil => exact .pure ()
  | cons a xs ih => exact .bind (h a) fun _ => ih

theorem ofExcept (x : Except Fault α) : Safe (Edit.ofExcept x) := by
  cases x with
  | error f => exact .throw f
  | ok a => exact .pure a

theorem alloc (c : Cell) : Safe (Edit.alloc c) :=
  fun _ => .alloc c

end Safe

end Edit

namespace Trace

open Edit (Safe)

theorem safe_writableCell (t : Trace) : Safe t.writableCell := by
  intro s
  rcases isWritable_cases t s with hw | ⟨n, rfl, hw⟩
  · rw [Edit.leaves, writableCell_readOnly hw]
    exact .refl
  · rw [Edit.leaves, writableCell_ok hw]
    exact .refl

theorem safe_put (t : Trace) (v : Option Value) : Safe (t.put v) := by
  intro s
  rcases put_cases t v s with ⟨n, rfl, hw, hput⟩ | ⟨-, hput⟩
  · rw [Edit.leaves, hput]
    exact .setValue hw
  · rw [Edit.leaves, hput]
    exact .refl

theorem safe_putChild (t : Trace) (key : Value) (child : Trace) :
    Safe (t.putChild key child) := by
  intro s
  rcases isWritable_cases t s with hw | ⟨n, rfl, hw⟩
  · simp only [Edit.leaves, putChild, bind, EStateM.bind, writableCell_readOnly hw]
    exact .refl
  · simp only [Edit.leaves, putChild, bind, EStateM.bind, writableCell_ok hw]
    cases key.key? with
    | none => exact .refl
    | some k => exact .setChild hw

theorem safe_reach (t : Trace) (a : Address) : Safe (t.reach a) := by
  induction a generalizing t with
  | nil => exact .pure t
  | cons k a ih =>
    intro s
    cases hchild : s.child? t k with
    | some u =>
      rw [Edit.leaves, reach_found hchild]
      exact ih u s
    | none =>
      rcases isWritable_cases t s with hw | ⟨n, rfl, hw⟩
      · rw [Edit.leaves, reach_readOnly hchild hw]
        exact .refl
      · rw [Edit.leaves, reach_missing hchild hw]
        exact (Store.Keeps.grow hw).trans (ih _ _)

theorem safe_reachAt (t : Trace) (address : Value) : Safe (t.reachAt address) := by
  refine .bind (safe_reach t _) fun u => ?_
  cases (Address.ofValues address.addressItems).2 with
  | none => exact .pure u
  | some key => exact .throw _

theorem safe_putAt (t : Trace) (address v : Value) : Safe (t.putAt address v) :=
  .bind (safe_writableCell t) fun _ => .bind (safe_reachAt t address) fun u => safe_put u _

theorem safe_copyAs (w : Bool) (t : Trace) : Safe (t.copyAs w) :=
  fun s => keeps_toCells w (s.outline t) s

theorem safe_copy (t : Trace) : Safe t.copy :=
  .bind .get fun s => safe_copyAs (s.isWritable t) t

theorem safe_ofChild (w : Bool) (v : Value) : Safe (ofChild w v) := by
  cases v with
  | trace t => exact .pure t
  | _ => exact .alloc _

theorem safe_makeChildren (w : Bool) (children : List (Value × Value)) :
    Safe (makeChildren w children) := by
  induction children with
  | nil => exact .pure []
  | cons c children ih =>
    obtain ⟨key, child⟩ := c
    rw [makeChildren]
    cases key.key? with
    | none => exact .throw _
    | some k => exact .bind (safe_ofChild w child) fun t => .bind ih fun ts => .pure _

theorem safe_make (value : Option Value) (children : List (Value × Value)) (w : Bool) :
    Safe (make value children w) :=
  .bind (safe_makeChildren w children) fun _ => .alloc _

theorem safe_ofEntries (entries : List (Value × Value)) : Safe (ofEntries entries) :=
  .bind (.alloc _) fun t => .bind (.forM fun e => safe_putAt t e.1 e.2) fun _ => .pure t

/-! ## Runs of calls -/

/-- The calls of a client on traces. -/
inductive Call
  | put (t : Trace) (v : Option Value)
  | putChild (t : Trace) (key : Value) (child : Trace)
  | reach (t : Trace) (address : Value)
  | putAt (t : Trace) (address v : Value)
  | copy (t : Trace)
  | freeze (t : Trace)
  | thaw (t : Trace)
  | make (value : Option Value) (children : List (Value × Value)) (writable : Bool)
  | ofEntries (entries : List (Value × Value))
  | read (question : Store → Except Fault Value)

namespace Call

/-- What a call does and answers. -/
def perform : Call → Edit Value
  | put t v => do t.put v; return .null
  | putChild t key child => do t.putChild key child; return .null
  | reach t address => return .trace (← t.reachAt address)
  | putAt t address v => do t.putAt address v; return .null
  | copy t => return .trace (← t.copy)
  | freeze t => return .trace (← t.frozen)
  | thaw t => return .trace (← t.thawed)
  | make value children writable => return .trace (← Trace.make value children writable)
  | ofEntries entries => return .trace (← Trace.ofEntries entries)
  | read question => do Edit.ofExcept (question (← get))

/-- The store after a run of calls, each of which may have failed. -/
def runAll (calls : List Call) (s : Store) : Store :=
  calls.foldl (fun s call => call.perform.leaves s) s

theorem safe_perform (call : Call) : Safe call.perform := by
  cases call with
  | put t v => exact .bind (safe_put t v) fun _ => .pure _
  | putChild t key child => exact .bind (safe_putChild t key child) fun _ => .pure _
  | reach t address => exact .bind (safe_reachAt t address) fun _ => .pure _
  | putAt t address v => exact .bind (safe_putAt t address v) fun _ => .pure _
  | copy t => exact .bind (safe_copy t) fun _ => .pure _
  | freeze t => exact .bind (safe_copyAs false t) fun _ => .pure _
  | thaw t => exact .bind (safe_copyAs true t) fun _ => .pure _
  | make value children w => exact .bind (safe_make value children w) fun _ => .pure _
  | ofEntries entries => exact .bind (safe_ofEntries entries) fun _ => .pure _
  | read question => exact .bind .get fun s => .ofExcept (question s)

theorem keeps_runAll (calls : List Call) (s : Store) : s.Keeps Cell.ReadOnly (runAll calls s) := by
  induction calls generalizing s with
  | nil => exact .refl
  | cons call calls ih => exact (safe_perform call s).trans (ih _)

end Call

/-! ## Copies -/

section Copies

variable {s s' : Store} {t u o : Trace} {w : Bool}

theorem Unchanged.seenAt?_eq (h : t.Unchanged s s') (a : Address) :
    s'.seenAt? t a = s.seenAt? t a := by
  rw [Store.seenAt?, Store.seenAt?, h.find?_eq]
  cases hu : s.find? t a with
  | none => rfl
  | some u =>
    obtain ⟨hvalue, hchildren, -⟩ := h a u hu
    rw [Option.map_some, Option.map_some, hvalue, hchildren]

/-- Cells that are all writable or all not, which look like a tree. -/
structure CopyOf (s : Store) (w : Bool) (o t : Trace) : Prop where
  cells : ∀ {a u}, s.find? t a = some u → ∃ n, u = .cell n ∧ n < s.cells.size ∧
    (s.cell n).writable = w
  seen : ∀ (r : Store) a, r.seenAt? o a = s.seenAt? t a

namespace CopyOf

/-- A copy stays as it is while the cells like its own do. -/
theorem unchanged (h : CopyOf s w o t) {P : Cell → Prop} (hP : ∀ {c}, c.writable = w → P c)
    (hkeeps : s.Keeps P s') : t.Unchanged s s' := by
  intro a u hu
  obtain ⟨n, rfl, hn, hw⟩ := h.cells hu
  have hcell : s'.cell n = s.cell n := hkeeps.cell hn (hP hw)
  simp only [Store.value?, Store.children, Store.isWritable, hcell, and_self]

theorem mono (h : CopyOf s w o t) (hkeeps : s.Keeps (fun _ => True) s') : CopyOf s' w o t where
  cells := by
    intro a u hu
    have hsame := h.unchanged (fun _ => trivial) hkeeps
    rw [hsame.find?_eq] at hu
    obtain ⟨n, rfl, hn, hw⟩ := h.cells hu
    refine ⟨n, rfl, Nat.lt_of_lt_of_le hn hkeeps.size, ?_⟩
    rw [hkeeps.cell hn trivial, hw]
  seen r a := by
    rw [h.seen r, (h.unchanged (fun _ => trivial) hkeeps).seenAt?_eq]

/-- A new cell whose children are copies. -/
theorem ofChildren {v : Option Value} {cs ds : List (Key × Trace)}
    (h : KeyedAlike (CopyOf s w) cs ds) :
    CopyOf (s.alloc { value := v, children := ds, writable := w }).1 w (.tree v cs)
      (.cell s.cells.size) := by
  have hcell : (s.alloc { value := v, children := ds, writable := w }).1.cell s.cells.size =
      { value := v, children := ds, writable := w } := by
    rw [Store.cell_alloc, if_pos rfl]
  have hcopies : KeyedAlike (CopyOf (s.alloc { value := v, children := ds, writable := w }).1 w)
      cs ds :=
    h.imp fun _ _ hcd => ⟨hcd.1, hcd.2.mono (.alloc _)⟩
  constructor
  · intro a u hu
    cases a with
    | nil =>
      cases hu
      refine ⟨_, rfl, ?_, ?_⟩
      · rw [Store.size_alloc]
        exact Nat.lt_succ_self _
      · rw [hcell]
    | cons k a =>
      rw [Store.find?, Store.child?, Store.children, hcell] at hu
      rcases hcopies.childAt? k with ⟨-, hnone⟩ | ⟨_, x, -, hx, hcopy⟩
      · rw [hnone] at hu
        cases hu
      · rw [hx] at hu
        exact hcopy.cells hu
  · intro r a
    apply Store.seenAt?_eq_of_keyedAlike
    · rw [Store.value?, Store.value?, hcell]
    · rw [Store.children, Store.children, hcell]
      exact hcopies.imp fun _ _ hcd => ⟨hcd.1, hcd.2.seen r⟩

end CopyOf

mutual

theorem copyOf_toCells (w : Bool) : ∀ (o : Trace) (s : Store), o.Solid →
    CopyOf (o.toCells w s).1 w o (o.toCells w s).2
  | .cell _, _, h => by cases h
  | .tree _ cs, s, h => by
    refine .ofChildren (keyedAlike_toChildCells w cs s ?_)
    cases h with
    | tree hcs => exact hcs

theorem keyedAlike_toChildCells (w : Bool) : ∀ (cs : List (Key × Trace)) (s : Store),
    (∀ c ∈ cs, c.2.Solid) →
      KeyedAlike (CopyOf (toChildCells w cs s).1 w) cs (toChildCells w cs s).2
  | [], _, _ => .nil
  | (k, t) :: rest, s, h => by
    obtain ⟨ht, hrest⟩ := List.forall_mem_cons.mp h
    have hfirst := (copyOf_toCells w t s ht).mono
      (keeps_toChildCells w rest (t.toCells w s).1)
    exact .cons ⟨rfl, hfirst⟩ (keyedAlike_toChildCells w rest _ hrest)

end

end Copies

/-- A frozen copy never changes.  Freezing a trace without cycles gives a trace that looks the same
at every address; and whatever calls are made on whichever traces after it, succeeding or failing,
every node of the copy is found where it was, with the same value and the same children in the same
order, and cannot be written to. -/
theorem Acyclic.frozen_forever {s : Store} {t : Trace} (h : t.Acyclic s) :
    ∃ f s', t.frozen s = .ok f s' ∧ (∀ a, s'.seenAt? f a = s.seenAt? t a) ∧
      ∀ calls a, (Call.runAll calls s').find? f a = s'.find? f a ∧
        (Call.runAll calls s').seenAt? f a = s.seenAt? t a ∧
        ∀ u, (Call.runAll calls s').find? f a = some u →
          (Call.runAll calls s').isWritable u = false := by
  have hunfolds := h.unfolds
  have hcopy := copyOf_toCells false (s.outline t) s hunfolds.solid
  have hsame : ∀ a, ((s.outline t).toCells false s).1.seenAt? ((s.outline t).toCells false s).2 a =
      s.seenAt? t a := by
    intro a
    rw [← hcopy.seen s, hunfolds.seen]
  refine ⟨((s.outline t).toCells false s).2, ((s.outline t).toCells false s).1, rfl, hsame, ?_⟩
  intro calls a
  have hunchanged := hcopy.unchanged id (Call.keeps_runAll calls _)
  refine ⟨hunchanged.find?_eq a, ?_, ?_⟩
  · rw [hunchanged.seenAt?_eq, hsame]
  · intro u hu
    rw [hunchanged.find?_eq] at hu
    rw [(hunchanged a u hu).2.2]
    obtain ⟨n, rfl, -, hw⟩ := hcopy.cells hu
    exact hw

/-- A root with one child under two keys. -/
def diamond : Store where
  cells := #[{ children := [(.name "a", .cell 1), (.name "b", .cell 1)] },
    { value := some (.int 7) }]

/-- A frozen copy of a trace with a shared node keeps its values while those of the trace change and
the copy is put below the trace. -/
theorem diamond_frozen :
    ∃ f s', (Trace.cell 0).frozen diamond = .ok f s' ∧
      let later := Call.runAll [.put (.cell 1) none, .put f (some .null),
        .putChild (.cell 0) (.text "copy") f] s'
      later.valueAt? (.cell 0) [.name "b"] = none ∧
        later.seenAt? f [.name "b"] = some (some (.int 7), []) := by
  have hacyclic : (Trace.cell 0).Acyclic diamond := by
    refine acyclic_of_lt fun {n k u} hu => ?_
    rcases n with _ | _ | n
    · rcases List.mem_cons.mp hu with heq | hu
      · cases heq
        exact ⟨1, rfl, Nat.zero_lt_one⟩
      · cases List.mem_singleton.mp hu
        exact ⟨1, rfl, Nat.zero_lt_one⟩
    · cases hu
    · cases hu
  obtain ⟨f, s', hfrozen, -, hcalls⟩ := hacyclic.frozen_forever
  refine ⟨f, s', hfrozen, ?_, ?_⟩
  · cases hfrozen
    rfl
  · exact (hcalls _ _).2.1

end Trace
end ProbTrace
