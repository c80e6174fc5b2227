import ProbTrace.Proofs.Comparison
import ProbTrace.Proofs.Exactness
import ProbTrace.Proofs.Freezing
import ProbTrace.Proofs.Interruption

/-!
# Agreement is an equivalence

Values are finite when going from a value to its parts always comes to an end.  Agreement is defined
on whole contents, which are cut off at cells that come again; the contents of finite values never
are.  So agreement of finite values can be said part by part: values without parts agree when they
are taken for the same, sequences item by item, and nodes when their values and their children do,
whatever the order of the children.

It follows that agreement is symmetric and transitive, that a value agrees with itself unless
something in it is not a number, and that neither the order of children nor the kinds of sequences
nor copying makes a difference.
-/

namespace ProbTrace

/-! ## Parts -/

/-- A value is a part of another one: an item of a sequence, the value of a node, or a child. -/
inductive Store.Part (s : Store) : Value → Value → Prop
  | item {v w : Value} {vs : List Value} : v.items? = some vs → w ∈ vs → Part s v w
  | held {t : Trace} {v : Value} : s.value? t = some v → Part s (.trace t) v
  | child {t u : Trace} {k : Key} : (k, u) ∈ s.children t → Part s (.trace t) (.trace u)

/-- A node that is there and has one child under each key. -/
structure Store.HasNode (s : Store) (t : Trace) : Prop where
  there : ∀ n, t = .cell n → n < s.cells.size
  keys : ((s.children t).map Prod.fst).Nodup

namespace Value

/-- A value from which every way down through parts comes to an end.  Its nodes are there and have
one child under each key. -/
inductive Finite (s : Store) : Value → Prop
  | intro {v : Value} :
      (∀ t, v = .trace t → s.HasNode t) → (∀ w, s.Part v w → Finite s w) → Finite s v

/-- Something in a value, at whatever depth, is not a number. -/
inductive HoldsNaN (s : Store) : Value → Prop
  | here {v : Value} : v.IsNaN → HoldsNaN s v
  | part {v w : Value} : s.Part v w → HoldsNaN s w → HoldsNaN s v

theorem cases_atom (v : Value) : v.IsAtom ∨ (∃ vs, v.items? = some vs) ∨ ∃ t, v = .trace t := by
  cases v with
  | list vs => exact .inr (.inl ⟨vs, rfl⟩)
  | tuple vs => exact .inr (.inl ⟨vs, rfl⟩)
  | quoted v => exact .inr (.inl ⟨[v], rfl⟩)
  | brackets vs => exact .inr (.inl ⟨[.list vs], rfl⟩)
  | trace t => exact .inr (.inr ⟨t, rfl⟩)
  | _ => exact .inl trivial

theorem IsAtom.items? {v : Value} (h : v.IsAtom) : v.items? = none := by
  cases v with
  | list _ | tuple _ | quoted _ | brackets _ => cases h
  | _ => rfl

theorem IsAtom.expand {v : Value} (h : v.IsAtom) (f : NodeId → Trace) : (v.expand f).IsAtom := by
  cases v with
  | list _ | tuple _ | quoted _ | brackets _ | trace _ => cases h
  | _ => trivial

theorem isAtom_of_sameAtom {v w : Value} (h : v.sameAtom w = true) : w.IsAtom := by
  obtain ⟨e, -, he⟩ := (sameAtom_iff v w).mp h
  exact isAtom_of_essence he

theorem IsNaN.isAtom {v : Value} (h : v.IsNaN) : v.IsAtom := by
  cases v with
  | float _ | undefined _ => trivial
  | _ => cases h

namespace Finite

variable {s : Store} {v w : Value} {t : Trace}

theorem ofAtom (h : v.IsAtom) : v.Finite s := by
  refine .intro (fun t ht => ?_) fun w hw => ?_
  · subst ht
    cases h
  · cases hw with
    | item hitems _ =>
      rw [h.items?] at hitems
      cases hitems
    | held _ | child _ => cases h

theorem ofItems {vs : List Value} (h : v.items? = some vs) (hall : ∀ w ∈ vs, w.Finite s) :
    v.Finite s := by
  refine .intro (fun t ht => ?_) fun w hw => ?_
  · subst ht
    cases h
  · cases hw with
    | item hitems hmem =>
      cases h.symm.trans hitems
      exact hall w hmem
    | held _ | child _ => cases h

theorem ofNode (hnode : s.HasNode t) (hvalue : ∀ v, s.value? t = some v → v.Finite s)
    (hchild : ∀ k u, (k, u) ∈ s.children t → (Value.trace u).Finite s) :
    (Value.trace t).Finite s := by
  refine .intro (fun u hu => ?_) fun w hw => ?_
  · cases hu
    exact hnode
  · cases hw with
    | item hitems _ => cases hitems
    | held hv => exact hvalue w hv
    | child hu => exact hchild _ _ hu

theorem part (h : v.Finite s) (hw : s.Part v w) : w.Finite s := by
  cases h with
  | intro _ hparts => exact hparts w hw

theorem node (h : (Value.trace t).Finite s) : s.HasNode t := by
  cases h with
  | intro hnode _ => exact hnode t rfl

/-- No finite value is a part of itself. -/
theorem not_below_self (h : v.Finite s) : ¬ Relation.TransGen s.Part v v := by
  induction h with
  | @intro v _ _ ih =>
    intro hcycle
    obtain ⟨w, hpart, hback⟩ := Relation.TransGen.head'_iff.mp hcycle
    exact ih w hpart (.tail' hback hpart)

end Finite
end Value

/-! ## Values of one structure -/

/-- Values of one structure, whatever the order of children and the kinds of sequences, whose values
without parts are related. -/
inductive Store.Congruent (s : Store) (A : Value → Value → Prop) : Value → Value → Prop
  | atom {v w : Value} : v.IsAtom → w.IsAtom → A v w → Congruent s A v w
  | items {v w : Value} {vs ws : List Value} :
      v.items? = some vs → w.items? = some ws → vs.length = ws.length →
      (∀ {i : Nat} {x y : Value}, vs[i]? = some x → ws[i]? = some y → Congruent s A x y) →
      Congruent s A v w
  | node {t u : Trace} :
      (s.value? t).isSome = (s.value? u).isSome →
      (∀ {x y}, s.value? t = some x → s.value? u = some y → Congruent s A x y) →
      ((s.children t).map Prod.fst).Perm ((s.children u).map Prod.fst) →
      (∀ {k x y}, (k, x) ∈ s.children t → (k, y) ∈ s.children u →
        Congruent s A (.trace x) (.trace y)) →
      Congruent s A (.trace t) (.trace u)

/-- Values that differ in the order of children and in the kinds of sequences only. -/
abbrev Store.Rearranged (s : Store) : Value → Value → Prop :=
  s.Congruent Eq

/-- Values of one structure whose values without parts agree. -/
abbrev Store.Agrees (s : Store) : Value → Value → Prop :=
  s.Congruent fun v w => v.sameAtom w = true

namespace Store.Congruent

variable {s : Store} {A : Value → Value → Prop} {u v w : Value}

theorem symm (hA : ∀ {x y}, A x y → A y x) (h : s.Congruent A v w) : s.Congruent A w v := by
  induction h with
  | atom hv hw hvw => exact .atom hw hv (hA hvw)
  | items hv hw hlength _ ih => exact .items hw hv hlength.symm fun hx hy => ih hy hx
  | node hsome _ hkeys _ ihvalue ihchild =>
    exact .node hsome.symm (fun hx hy => ihvalue hy hx) hkeys.symm fun hx hy => ihchild hy hx

theorem atom_iff (hv : v.IsAtom) : s.Congruent A v w ↔ w.IsAtom ∧ A v w := by
  constructor
  · intro h
    cases h with
    | atom _ hw hvw => exact ⟨hw, hvw⟩
    | items hitems _ _ _ =>
      rw [hv.items?] at hitems
      cases hitems
    | node _ _ _ _ => cases hv
  · rintro ⟨hw, hvw⟩
    exact .atom hv hw hvw

theorem items_iff {vs : List Value} (hv : v.items? = some vs) :
    s.Congruent A v w ↔ ∃ ws, w.items? = some ws ∧ vs.length = ws.length ∧
      ∀ (i : Nat) (x y : Value), vs[i]? = some x → ws[i]? = some y → s.Congruent A x y := by
  constructor
  · intro h
    cases h with
    | atom hatom _ _ =>
      rw [hatom.items?] at hv
      cases hv
    | items hv' hw hlength hall =>
      cases hv.symm.trans hv'
      exact ⟨_, hw, hlength, fun _ _ _ => hall⟩
    | node _ _ _ _ => cases hv
  · rintro ⟨ws, hw, hlength, hall⟩
    exact .items hv hw hlength (hall _ _ _)

theorem trace_iff {t : Trace} :
    s.Congruent A (.trace t) w ↔ ∃ u, w = .trace u ∧
      ((s.value? t).isSome = (s.value? u).isSome ∧
        ∀ x y, s.value? t = some x → s.value? u = some y → s.Congruent A x y) ∧
      ((s.children t).map Prod.fst).Perm ((s.children u).map Prod.fst) ∧
      ∀ k x y, (k, x) ∈ s.children t → (k, y) ∈ s.children u →
        s.Congruent A (.trace x) (.trace y) := by
  constructor
  · intro h
    cases h with
    | atom hatom _ _ => cases hatom
    | items hitems _ _ _ => cases hitems
    | node hsome hvalue hkeys hchild =>
      exact ⟨_, rfl, ⟨hsome, fun _ _ => hvalue⟩, hkeys, fun _ _ _ => hchild⟩
  · rintro ⟨u, rfl, ⟨hsome, hvalue⟩, hkeys, hchild⟩
    exact .node hsome (hvalue _ _) hkeys (hchild _ _ _)

theorem trans (hA : ∀ {x y z}, A x y → A y z → A x z) (h : s.Congruent A u v)
    (h' : s.Congruent A v w) : s.Congruent A u w := by
  induction h generalizing w with
  | atom hu hv huv =>
    obtain ⟨hw, hvw⟩ := (atom_iff hv).mp h'
    exact .atom hu hw (hA huv hvw)
  | @items u v us vs hu hv hlength _ ih =>
    obtain ⟨ws, hw, hlength', hall⟩ := (items_iff hv).mp h'
    refine .items hu hw (hlength.trans hlength') fun {i x z} hx hz => ?_
    have hi : i < vs.length := by
      rw [← hlength]
      exact (List.getElem?_eq_some_iff.mp hx).1
    have hy := List.getElem?_eq_getElem hi
    exact ih hx hy (hall i _ z hy hz)
  | @node t u hsome _ hkeys _ ihvalue ihchild =>
    obtain ⟨w, rfl, ⟨hsome', hvalue⟩, hkeys', hchild⟩ := trace_iff.mp h'
    refine .node (hsome.trans hsome') ?_ (hkeys.trans hkeys') ?_
    · intro x z hx hz
      have hy : (s.value? u).isSome := by
        rw [← hsome, hx]
        rfl
      obtain ⟨y, hy⟩ := Option.isSome_iff_exists.mp hy
      exact ihvalue hx hy (hvalue y z hy hz)
    · intro k x z hx hz
      have hk : k ∈ (s.children u).map Prod.fst :=
        hkeys.mem_iff.mp (List.mem_map.mpr ⟨(k, x), hx, rfl⟩)
      obtain ⟨⟨k, y⟩, hy, rfl⟩ := List.mem_map.mp hk
      exact ihchild hx hy (hchild k y z hy hz)

/-- The parts of a value that is congruent to itself are, too. -/
theorem part (h : s.Congruent A v v) (hw : s.Part v w) : s.Congruent A w w := by
  cases hw with
  | item hitems hmem =>
    obtain ⟨ws, hws, -, hall⟩ := (items_iff hitems).mp h
    cases hitems.symm.trans hws
    obtain ⟨i, hi⟩ := List.mem_iff_getElem?.mp hmem
    exact hall i _ _ hi hi
  | held hvalue =>
    obtain ⟨_, ⟨⟩, ⟨-, hheld⟩, -⟩ := trace_iff.mp h
    exact hheld _ _ hvalue hvalue
  | child hchild =>
    obtain ⟨_, ⟨⟩, -, -, hchildren⟩ := trace_iff.mp h
    exact hchildren _ _ _ hchild hchild

end Store.Congruent

theorem eq_of_nodup_keys {cs : List (Key × Trace)} (h : (cs.map Prod.fst).Nodup) {k : Key}
    {t u : Trace} (ht : (k, t) ∈ cs) (hu : (k, u) ∈ cs) : t = u :=
  Option.some.inj ((childAt?_of_mem h ht).symm.trans (childAt?_of_mem h hu))

/-- A finite value is congruent to itself if its values without parts are related to themselves. -/
theorem Value.Finite.congruent_self {s : Store} {A : Value → Value → Prop} {v : Value}
    (h : v.Finite s)
    (hA : ∀ w, Relation.ReflTransGen s.Part v w → w.IsAtom → A w w) : s.Congruent A v v := by
  induction h with
  | @intro v hnode _ ih =>
    have hpart : ∀ w, s.Part v w → s.Congruent A w w :=
      fun w hw => ih w hw fun x hx => hA x (.head hw hx)
    rcases v.cases_atom with hatom | ⟨vs, hvs⟩ | ⟨t, rfl⟩
    · exact .atom hatom hatom (hA v .refl hatom)
    · refine .items hvs hvs rfl fun {i x y} hx hy => ?_
      cases hx.symm.trans hy
      exact hpart x (.item hvs (List.mem_of_getElem? hx))
    · refine .node rfl (fun {x y} hx hy => ?_) (.refl _) fun {k x y} hx hy => ?_
      · cases hx.symm.trans hy
        exact hpart x (.held hx)
      · obtain rfl := eq_of_nodup_keys (hnode t rfl).keys hx hy
        exact hpart (.trace x) (.child hx)

namespace Value.HoldsNaN

variable {s : Store} {v w : Value}

theorem of_reaches (hreach : Relation.ReflTransGen s.Part v w) (h : w.HoldsNaN s) :
    v.HoldsNaN s := by
  induction hreach using Relation.ReflTransGen.head_induction_on with
  | refl => exact h
  | head hpart _ ih => exact .part hpart ih

theorem not_agrees (h : v.HoldsNaN s) : ¬ s.Agrees v v := by
  induction h with
  | here hnan =>
    intro hself
    have hsame := ((Store.Congruent.atom_iff hnan.isAtom).mp hself).2
    exact (sameAtom_self hnan.isAtom).mp hsame hnan
  | part hpart _ ih => exact fun hself => ih (hself.part hpart)

end Value.HoldsNaN

/-- A finite value agrees with itself exactly if nothing in it is not a number. -/
theorem Value.Finite.agrees_self {s : Store} {v : Value} (h : v.Finite s) :
    s.Agrees v v ↔ ¬ v.HoldsNaN s := by
  constructor
  · exact fun hself hnan => hnan.not_agrees hself
  · intro hnan
    refine h.congruent_self fun w hw hatom => (sameAtom_self hatom).mpr fun hhere => ?_
    exact hnan (.of_reaches hw (.here hhere))

/-- Rearranging a value in which all numbers are numbers gives a value that agrees with it. -/
theorem Store.Congruent.agrees {s : Store} {v w : Value} (h : s.Rearranged v w)
    (hnan : ¬ v.HoldsNaN s) : s.Agrees v w := by
  induction h with
  | @atom v w hv hw heq =>
    subst heq
    exact .atom hv hv ((Value.sameAtom_self hv).mpr fun hhere => hnan (.here hhere))
  | items hv hw hlength _ ih =>
    refine .items hv hw hlength fun hx hy => ih hx hy fun hx' => ?_
    exact hnan (.part (.item hv (List.mem_of_getElem? hx)) hx')
  | node hsome _ hkeys _ ihvalue ihchild =>
    refine .node hsome (fun hx hy => ihvalue hx hy fun hx' => ?_) hkeys
      fun hx hy => ihchild hx hy fun hx' => ?_
    · exact hnan (.part (.held hx) hx')
    · exact hnan (.part (.child hx) hx')

/-! ## Agreement of trees -/

theorem sameItems_map_iff (f g : Value → Value) (vs ws : List Value) :
    sameItems (vs.map f) (ws.map g) = true ↔ vs.length = ws.length ∧
      ∀ (i : Nat) (x y : Value), vs[i]? = some x → ws[i]? = some y → (f x).same (g y) = true := by
  induction vs generalizing ws with
  | nil => cases ws <;> simp [sameItems]
  | cons v vs ih =>
    cases ws with
    | nil => simp [sameItems]
    | cons w ws =>
      rw [List.map_cons, List.map_cons, sameItems, Bool.and_eq_true, ih, List.length_cons,
        List.length_cons, Nat.succ_inj]
      constructor
      · rintro ⟨hfirst, hlength, hrest⟩
        refine ⟨hlength, fun i x y hx hy => ?_⟩
        cases i with
        | zero =>
          cases hx
          cases hy
          exact hfirst
        | succ i => exact hrest i x y hx hy
      · rintro ⟨hlength, hall⟩
        exact ⟨hall 0 v w rfl rfl, hlength, fun i => hall (i + 1)⟩

namespace Value

theorem IsAtom.same_eq {v : Value} (h : v.IsAtom) (w : Value) : v.same w = v.sameAtom w := by
  cases v with
  | list _ | tuple _ | quoted _ | brackets _ | trace _ => cases h
  | _ => simp only [same]

/-- All kinds of sequences agree item by item. -/
theorem same_of_items {v : Value} {vs : List Value} (h : v.items? = some vs) (w : Value) :
    v.same w = true ↔ ∃ ws, w.items? = some ws ∧ sameItems vs ws = true := by
  cases v with
  | list us | tuple us =>
    cases h
    rw [same]
    cases w.items? <;> simp
  | quoted u =>
    cases h
    rw [same]
    rcases w.items? with _ | _ | ⟨x, _ | ⟨_, _⟩⟩ <;> simp [sameItems]
  | brackets us =>
    cases h
    rw [same]
    rcases w.items? with _ | _ | ⟨x, _ | ⟨_, _⟩⟩ <;> simp [sameItems, same]
  | _ => cases h

end Value

theorem childAt?_map (f : Trace → Trace) (cs : List (Key × Trace)) (k : Key) :
    childAt? (cs.map fun c => (c.1, f c.2)) k = (childAt? cs k).map f := by
  induction cs with
  | nil => rfl
  | cons c cs ih =>
    obtain ⟨j, t⟩ := c
    rw [List.map_cons, childAt?_cons, childAt?_cons, ih]
    split <;> rfl

theorem sameChildren_map_iff (f g : Trace → Trace) (cs ds : List (Key × Trace)) :
    sameChildren (cs.map fun c => (c.1, f c.2)) (ds.map fun c => (c.1, g c.2)) = true ↔
      ∀ k x, (k, x) ∈ cs → ∃ y, childAt? ds k = some y ∧ (f x).same (g y) = true := by
  induction cs with
  | nil => simp [sameChildren]
  | cons c cs ih =>
    obtain ⟨k, x⟩ := c
    rw [List.map_cons, sameChildren, childAt?_map]
    cases hy : childAt? ds k with
    | none =>
      simp only [Option.map_none, Bool.false_eq_true, false_iff]
      intro hall
      obtain ⟨y, hsome, -⟩ := hall k x List.mem_cons_self
      cases hy.symm.trans hsome
    | some y =>
      simp only [Option.map_some, Bool.and_eq_true, ih]
      constructor
      · rintro ⟨hfirst, hrest⟩ j z hz
        rcases List.mem_cons.mp hz with heq | hz
        · cases heq
          exact ⟨y, hy, hfirst⟩
        · exact hrest j z hz
      · intro hall
        obtain ⟨z, hz, hsame⟩ := hall k x List.mem_cons_self
        cases hy.symm.trans hz
        exact ⟨hsame, fun j z hz => hall j z (List.mem_cons_of_mem _ hz)⟩

/-- As many children agree with others exactly if both have the same keys in some order and those
under one key agree. -/
theorem sameChildren_iff_perm {cs ds : List (Key × Trace)} (hcs : (cs.map Prod.fst).Nodup)
    (hds : (ds.map Prod.fst).Nodup) (f g : Trace → Trace) :
    (cs.length = ds.length ∧
        sameChildren (cs.map fun c => (c.1, f c.2)) (ds.map fun c => (c.1, g c.2)) = true) ↔
      (cs.map Prod.fst).Perm (ds.map Prod.fst) ∧
        ∀ k x y, (k, x) ∈ cs → (k, y) ∈ ds → (f x).same (g y) = true := by
  rw [sameChildren_map_iff]
  constructor
  · rintro ⟨hlength, hall⟩
    constructor
    · have hsub : cs.map Prod.fst ⊆ ds.map Prod.fst := by
        intro k hk
        obtain ⟨⟨k, x⟩, hx, rfl⟩ := List.mem_map.mp hk
        obtain ⟨y, hy, -⟩ := hall k x hx
        exact List.mem_map.mpr ⟨(k, y), mem_of_childAt? hy, rfl⟩
      refine (hcs.subperm hsub).perm_of_length_le ?_
      rw [List.length_map, List.length_map, hlength]
    · intro k x y hx hy
      obtain ⟨z, hz, hsame⟩ := hall k x hx
      cases (childAt?_of_mem hds hy).symm.trans hz
      exact hsame
  · rintro ⟨hkeys, hall⟩
    constructor
    · simpa using hkeys.length_eq
    · intro k x hx
      have hk : k ∈ ds.map Prod.fst := hkeys.mem_iff.mp (List.mem_map.mpr ⟨(k, x), hx, rfl⟩)
      obtain ⟨⟨k, y⟩, hy, rfl⟩ := List.mem_map.mp hk
      exact ⟨y, childAt?_of_mem hds hy, hall k x y hx hy⟩

/-- Trees agree when both or none have a value, the values agree and the children do. -/
theorem Trace.same_tree_iff (f g : Value → Value) (v w : Option Value)
    (cs ds : List (Key × Trace)) :
    (Trace.tree (v.map f) cs).same (.tree (w.map g) ds) = true ↔
      (v.isSome = w.isSome ∧ ∀ x y, v = some x → w = some y → (f x).same (g y) = true) ∧
        cs.length = ds.length ∧ sameChildren cs ds = true := by
  cases v <;> cases w <;> simp [Trace.same, and_assoc]

/-! ## The content of finite values -/

theorem expandItems_eq_map (f : NodeId → Trace) (vs : List Value) :
    expandItems f vs = vs.map (·.expand f) := by
  induction vs with
  | nil => rfl
  | cons v vs ih => rw [expandItems, ih, List.map_cons]

theorem expandChildren_eq_map (f : NodeId → Trace) (cs : List (Key × Trace)) :
    expandChildren f cs = cs.map fun c => (c.1, c.2.expand f) := by
  induction cs with
  | nil => rfl
  | cons c cs ih => rw [expandChildren, ih, List.map_cons]

/-- The content of a value shows whole below a path: every cell of the path is above the value, and
the depth is enough for all other cells. -/
structure Store.Clear (s : Store) (depth : Nat) (path : List NodeId) (v : Value) : Prop where
  walk : s.Path path
  above : ∀ n ∈ path, Relation.TransGen s.Part (.trace (.cell n)) v
  room : s.cells.size < depth + path.length

namespace Store.Clear

variable {s : Store} {depth : Nat} {path : List NodeId} {v w : Value} {t : Trace} {n : NodeId}

theorem start (s : Store) (v : Value) : s.Clear s.depth [] v where
  walk := .nil
  above := List.forall_mem_nil _
  room := by simp [Store.depth]

theorem part (h : s.Clear depth path v) (hw : s.Part v w) : s.Clear depth path w where
  walk := h.walk
  above n hn := (h.above n hn).tail hw
  room := h.room

/-- A finite value does not come below a path that has one of its cells. -/
theorem notMem (h : s.Clear depth path (.trace (.cell n)))
    (hfinite : (Value.trace (.cell n)).Finite s) : n ∉ path :=
  fun hn => hfinite.not_below_self (h.above n hn)

/-- Below a cell the path has this cell, too. -/
theorem below (h : s.Clear (depth + 1) path (.trace (.cell n)))
    (hfinite : (Value.trace (.cell n)).Finite s) (hw : s.Part (.trace (.cell n)) w) :
    s.Clear depth (n :: path) w where
  walk := h.walk.cons (hfinite.node.there n rfl) (h.notMem hfinite)
  above i hi := by
    rcases List.mem_cons.mp hi with rfl | hi
    · exact .single hw
    · exact (h.above i hi).tail hw
  room := by
    have := h.room
    rw [List.length_cons]
    omega

/-- The content of a trace is a tree of the contents of its parts. -/
theorem expand_trace (h : s.Clear depth path (.trace t)) (hfinite : (Value.trace t).Finite s) :
    ∃ depth' path', (∀ w, s.Part (.trace t) w → s.Clear depth' path' w) ∧
      t.expand (s.contentAt depth path) =
        .tree ((s.value? t).map (·.expand (s.contentAt depth' path')))
          ((s.children t).map fun c => (c.1, c.2.expand (s.contentAt depth' path'))) := by
  cases t with
  | tree v cs =>
    refine ⟨depth, path, fun w hw => h.part hw, ?_⟩
    cases v <;> simp only [Trace.expand, expandChildren_eq_map] <;> rfl
  | cell n =>
    cases depth with
    | zero =>
      have hlength := h.walk.length_le
      have hroom := h.room
      omega
    | succ depth =>
      refine ⟨depth, n :: path, fun w hw => h.below hfinite hw, ?_⟩
      simp only [Trace.expand, Store.contentAt, if_neg (h.notMem hfinite), expandChildren_eq_map]
      rfl

end Store.Clear

/-- Contents of finite values agree exactly if the values have one structure and their values
without parts agree. -/
theorem Value.Finite.same_expand_iff {s : Store} {v w : Value} (hv : v.Finite s)
    (hw : w.Finite s) {depth depth' : Nat} {path path' : List NodeId}
    (hclear : s.Clear depth path v) (hclear' : s.Clear depth' path' w) :
    (v.expand (s.contentAt depth path)).same (w.expand (s.contentAt depth' path')) = true ↔
      s.Agrees v w := by
  unfold Store.Agrees
  -- The depths and paths vary, as a part is seen from further down than what it is a part of.
  induction hv generalizing w depth depth' path path' with
  | @intro v hnode hfinite ih =>
    rcases v.cases_atom with hatom | ⟨vs, hvs⟩ | ⟨t, rfl⟩
    · rw [(hatom.expand _).same_eq, sameAtom_expand, Store.Congruent.atom_iff hatom]
      exact (and_iff_right_of_imp isAtom_of_sameAtom).symm
    · have hitems : (v.expand (s.contentAt depth path)).items? =
          some (vs.map (·.expand (s.contentAt depth path))) := by
        rw [items?_expand, hvs, Option.map_some, expandItems_eq_map]
      rw [same_of_items hitems, items?_expand, Store.Congruent.items_iff hvs]
      cases hws : w.items? with
      | none => simp
      | some ws =>
        simp only [Option.map_some, Option.some.injEq, exists_eq_left', expandItems_eq_map,
          sameItems_map_iff]
        refine and_congr_right fun _ => forall₃_congr fun i x y => ?_
        refine imp_congr_right fun hx => imp_congr_right fun hy => ?_
        have hpart : s.Part v x := .item hvs (List.mem_of_getElem? hx)
        have hpart' : s.Part w y := .item hws (List.mem_of_getElem? hy)
        exact ih x hpart (hw.part hpart') (hclear.part hpart) (hclear'.part hpart')
    · rw [Store.Congruent.trace_iff]
      cases w with
      | trace u =>
        obtain ⟨i, p, hparts, hexpand⟩ := hclear.expand_trace (.intro hnode hfinite)
        obtain ⟨j, q, hparts', hexpand'⟩ := hclear'.expand_trace hw
        rw [expand, expand, hexpand, hexpand', same, Trace.same_tree_iff, List.length_map,
          List.length_map, sameChildren_iff_perm (hnode t rfl).keys hw.node.keys]
        simp only [trace.injEq, exists_eq_left']
        refine and_congr (and_congr_right fun _ => forall₂_congr fun x y => ?_)
          (and_congr_right fun _ => forall₃_congr fun k x y => ?_)
        · refine imp_congr_right fun hx => imp_congr_right fun hy => ?_
          have hpart : s.Part (.trace t) x := .held hx
          have hpart' : s.Part (.trace u) y := .held hy
          exact ih x hpart (hw.part hpart') (hparts x hpart) (hparts' y hpart')
        · refine imp_congr_right fun hx => imp_congr_right fun hy => ?_
          have hpart : s.Part (.trace t) (.trace x) := .child hx
          have hpart' : s.Part (.trace u) (.trace y) := .child hy
          have hsame := ih _ hpart (hw.part hpart') (hparts _ hpart) (hparts' _ hpart')
          rwa [expand, expand, same] at hsame
      | _ => simp [expand, same]

/-- Finite values agree exactly if they have one structure and their values without parts agree. -/
theorem Value.Finite.same_iff {s : Store} {v w : Value} (hv : v.Finite s) (hw : w.Finite s) :
    s.same v w = true ↔ s.Agrees v w :=
  hv.same_expand_iff hw (.start s v) (.start s w)

/-! ## Copies -/

/-- New cells leave a node as it is. -/
theorem Store.HasNode.kept {s s' : Store} {t : Trace} (h : s.HasNode t)
    (hkeeps : s.Keeps (fun _ => True) s') :
    s'.value? t = s.value? t ∧ s'.children t = s.children t ∧ s'.isWritable t = s.isWritable t := by
  cases t with
  | tree v cs => exact ⟨rfl, rfl, rfl⟩
  | cell n =>
    have hcell := hkeeps.cell (h.there n rfl) trivial
    simp only [Store.value?, Store.children, Store.isWritable, hcell, and_self]

namespace Value.Finite

variable {s s' : Store} {v w : Value} {t u : Trace}

/-- New cells add no parts to a finite value. -/
theorem part_of_keeps (h : v.Finite s) (hkeeps : s.Keeps (fun _ => True) s')
    (hw : s'.Part v w) : s.Part v w := by
  cases hw with
  | item hitems hmem => exact .item hitems hmem
  | held hvalue => exact .held ((h.node.kept hkeeps).1 ▸ hvalue)
  | child hchild => exact .child ((h.node.kept hkeeps).2.1 ▸ hchild)

theorem keeps (h : v.Finite s) (hkeeps : s.Keeps (fun _ => True) s') : v.Finite s' := by
  induction h with
  | @intro v hnode hparts ih =>
    refine .intro (fun t ht => ⟨fun n hn => ?_, ?_⟩) fun w hw => ih w ?_
    · exact Nat.lt_of_lt_of_le ((hnode t ht).there n hn) hkeeps.size
    · rw [((hnode t ht).kept hkeeps).2.1]
      exact (hnode t ht).keys
    · exact part_of_keeps (.intro hnode hparts) hkeeps hw

theorem holdsNaN_of_keeps (h : v.Finite s) (hkeeps : s.Keeps (fun _ => True) s')
    (hnan : v.HoldsNaN s') : v.HoldsNaN s := by
  induction hnan with
  | here hhere => exact .here hhere
  | part hpart _ ih =>
    have hold := h.part_of_keeps hkeeps hpart
    exact .part hold (ih (h.part hold))

theorem unchanged (h : (Value.trace t).Finite s) (hkeeps : s.Keeps (fun _ => True) s') :
    t.Unchanged s s' := by
  intro a u hu
  have hfinite : (Value.trace u).Finite s :=
    Store.find?_inherits (P := fun x => (Value.trace x).Finite s)
      (fun hx hy => hx.part (.child hy)) h hu
  exact hfinite.node.kept hkeeps

theorem reaches (h : v.Finite s) (hw : Relation.ReflTransGen s.Part v w) : w.Finite s := by
  induction hw with
  | refl => exact h
  | tail _ hpart ih => exact ih.part hpart

theorem acyclic (h : (Value.trace t).Finite s) : t.Acyclic s := by
  have hlift : ∀ x y, s.IsChild x y → s.Part (.trace x) (.trace y) := by
    rintro x y ⟨k, hk⟩
    exact .child hk
  intro n hn hcycle
  have hcell := h.reaches (hn.lift Value.trace hlift)
  exact hcell.not_below_self (hcycle.lift Value.trace hlift)

end Value.Finite

/-- The same is seen at every address of two traces. -/
def Store.LooksAlike (s : Store) (t u : Trace) : Prop :=
  ∀ a, s.seenAt? u a = s.seenAt? t a

namespace Store.LooksAlike

variable {s : Store} {t u : Trace}

theorem root (h : s.LooksAlike t u) : s.value? u = s.value? t ∧
    (s.children u).map Prod.fst = (s.children t).map Prod.fst :=
  Prod.ext_iff.mp (Option.some.inj (h []))

theorem child (h : s.LooksAlike t u) {k : Key} {x y : Trace} (hx : s.child? t k = some x)
    (hy : s.child? u k = some y) : s.LooksAlike x y := by
  intro a
  have hbelow := h (k :: a)
  rwa [Store.seenAt?_cons, Store.seenAt?_cons, hx, hy] at hbelow

/-- A trace that looks like a finite one is finite if its cells are there. -/
theorem finite (h : s.LooksAlike t u) (ht : (Value.trace t).Finite s) (hu : u.Anchored s) :
    (Value.trace u).Finite s := by
  generalize htrace : Value.trace t = v at ht
  induction ht generalizing t u with
  | @intro v hnode hparts ih =>
    subst htrace
    obtain ⟨hvalue, hsame⟩ := h.root
    have hkeys := (hnode t rfl).keys
    have hkeys' : ((s.children u).map Prod.fst).Nodup := hsame ▸ hkeys
    refine .ofNode ⟨fun n hn => hu (a := []) ?_, hkeys'⟩ (fun v hv => ?_) fun k y hy => ?_
    · rw [hn]
      rfl
    · exact hparts v (.held (hvalue ▸ hv))
    · have hk : k ∈ (s.children t).map Prod.fst := hsame ▸ List.mem_map.mpr ⟨(k, y), hy, rfl⟩
      obtain ⟨⟨k, x⟩, hx, rfl⟩ := List.mem_map.mp hk
      have hy' : s.child? u k = some y := childAt?_of_mem hkeys' hy
      exact ih (.trace x) (.child hx) (h.child (childAt?_of_mem hkeys hx) hy') (hu.child hy') rfl

/-- A trace that looks like a finite one is a rearrangement of it. -/
theorem rearranged (h : s.LooksAlike t u) (ht : (Value.trace t).Finite s) :
    s.Rearranged (.trace t) (.trace u) := by
  generalize htrace : Value.trace t = v at ht
  induction ht generalizing t u with
  | @intro v hnode hparts ih =>
    subst htrace
    obtain ⟨hvalue, hsame⟩ := h.root
    have hkeys := (hnode t rfl).keys
    have hkeys' : ((s.children u).map Prod.fst).Nodup := hsame ▸ hkeys
    refine .node (by rw [hvalue]) (fun {x y} hx hy => ?_) (.of_eq hsame.symm)
      fun {k x y} hx hy => ?_
    · rw [hvalue] at hy
      cases hx.symm.trans hy
      exact (hparts x (.held hx)).congruent_self fun _ _ _ => rfl
    · exact ih (.trace x) (.child hx)
        (h.child (childAt?_of_mem hkeys hx) (childAt?_of_mem hkeys' hy)) rfl

end Store.LooksAlike

namespace Value.Finite

variable {s : Store} {t : Trace}

/-- A copy of a finite trace is made of new cells and looks like the trace. -/
theorem copyAs_looksAlike (h : (Value.trace t).Finite s) (writable : Bool) :
    ∃ u s', t.copyAs writable s = .ok u s' ∧ s.Keeps (fun _ => True) s' ∧ u.Anchored s' ∧
      s'.LooksAlike t u := by
  have hunfolds := h.acyclic.unfolds
  have hcopy := Trace.copyOf_toCells writable (s.outline t) s hunfolds.solid
  have hkeeps : s.Keeps (fun _ => True) ((s.outline t).toCells writable s).1 :=
    keeps_toCells writable (s.outline t) s
  refine ⟨_, _, rfl, hkeeps, fun hn => ?_, fun a => ?_⟩
  · obtain ⟨_, ⟨⟩, hlt, -⟩ := hcopy.cells hn
    exact hlt
  · rw [← hcopy.seen s, hunfolds.seen, (h.unchanged hkeeps).seenAt?_eq]

/-- A copy of a finite trace agrees with it. -/
theorem same_copyAs (h : (Value.trace t).Finite s) (hnan : ¬ (Value.trace t).HoldsNaN s)
    (writable : Bool) :
    ∃ u s', t.copyAs writable s = .ok u s' ∧ s'.same (.trace t) (.trace u) = true := by
  obtain ⟨u, s', hcopy, hkeeps, hanchored, hlooks⟩ := h.copyAs_looksAlike writable
  have hlater := h.keeps hkeeps
  have hnan' : ¬ (Value.trace t).HoldsNaN s' := fun hx => hnan (h.holdsNaN_of_keeps hkeeps hx)
  refine ⟨u, s', hcopy, (hlater.same_iff (hlooks.finite hlater hanchored)).mpr ?_⟩
  exact (hlooks.rearranged hlater).agrees hnan'

end Value.Finite

/-! ## The equivalence -/

/-- Agreement of finite values is symmetric and transitive, and a value agrees with itself exactly
if nothing in it is not a number.  A trace of which this is true agrees with every rearrangement of
it, and with its copies, whether they can be written to or not. -/
theorem Store.same_equivalence (s : Store) :
    (∀ v w : Value, v.Finite s → w.Finite s → s.same v w = s.same w v) ∧
    (∀ u v w : Value, u.Finite s → v.Finite s → w.Finite s →
      s.same u v = true → s.same v w = true → s.same u w = true) ∧
    (∀ v : Value, v.Finite s → (s.same v v = true ↔ ¬ v.HoldsNaN s)) ∧
    ∀ t : Trace, (Value.trace t).Finite s → ¬ (Value.trace t).HoldsNaN s →
      (∀ w : Value, w.Finite s → s.Rearranged (.trace t) w → s.same (.trace t) w = true) ∧
      ∀ copying ∈ [t.copy, t.frozen, t.thawed],
        ∃ u s', copying s = .ok u s' ∧ s'.same (.trace t) (.trace u) = true := by
  refine ⟨fun v w hv hw => ?_, fun u v w hu hv hw huv hvw => ?_, fun v hv => ?_,
    fun t ht hnan => ⟨fun w hw hrearranged => ?_, ?_⟩⟩
  · rw [Bool.eq_iff_iff, hv.same_iff hw, hw.same_iff hv]
    exact ⟨.symm Value.sameAtom_symm, .symm Value.sameAtom_symm⟩
  · rw [hu.same_iff hw]
    exact ((hu.same_iff hv).mp huv).trans Value.sameAtom_trans ((hv.same_iff hw).mp hvw)
  · rw [hv.same_iff hv, hv.agrees_self]
  · exact (ht.same_iff hw).mpr (hrearranged.agrees hnan)
  · refine List.forall_mem_cons.mpr ⟨ht.same_copyAs hnan (s.isWritable t), ?_⟩
    refine List.forall_mem_cons.mpr ⟨ht.same_copyAs hnan false, ?_⟩
    exact List.forall_mem_singleton.mpr (ht.same_copyAs hnan true)

/-- Two roots over the same leaves, in different order, one with a list and one with a tuple. -/
def shuffled : Store where
  cells := #[
    { value := some (.list [.int 1]),
      children := [(.name "a", .cell 2), (.name "b", .cell 3)] },
    { value := some (.tuple [.int 1]),
      children := [(.name "b", .cell 3), (.name "a", .cell 2)], writable := false },
    { value := some (.text "x") },
    { value := some (.bool true) }]

namespace shuffled

theorem finite_leaf {n : NodeId} (hn : n = 2 ∨ n = 3) :
    (Value.trace (.cell n)).Finite shuffled := by
  rcases hn with rfl | rfl
  all_goals
    refine .ofNode ⟨?_, List.nodup_nil⟩ ?_ ?_
    · rintro _ ⟨⟩
      decide
    · rintro _ ⟨⟩
      exact .ofAtom trivial
    · rintro _ _ ⟨⟩

theorem finite_root {n : NodeId} (hn : n = 0 ∨ n = 1) :
    (Value.trace (.cell n)).Finite shuffled := by
  rcases hn with rfl | rfl
  all_goals
    refine .ofNode ⟨?_, by decide⟩ ?_ ?_
    · rintro _ ⟨⟩
      decide
    · rintro _ ⟨⟩
      exact .ofItems rfl (List.forall_mem_singleton.mpr (.ofAtom trivial))
    · intro k u hu
      rcases List.mem_cons.mp hu with heq | hu
      · cases heq
        exact finite_leaf (by decide)
      · cases List.mem_singleton.mp hu
        exact finite_leaf (by decide)

theorem congruent {A : Value → Value → Prop}
    (hA : ∀ v ∈ [Value.int 1, .text "x", .bool true], A v v) :
    shuffled.Congruent A (.trace (.cell 0)) (.trace (.cell 1)) := by
  obtain ⟨hint, htext, hbool⟩ : A (.int 1) (.int 1) ∧ A (.text "x") (.text "x") ∧
      A (.bool true) (.bool true) := by simpa using hA
  have hleaf {n : NodeId} {v : Value} (hv : v.IsAtom) (hself : A v v)
      (hvalue : shuffled.value? (.cell n) = some v) (hchildren : shuffled.children (.cell n) = []) :
      shuffled.Congruent A (.trace (.cell n)) (.trace (.cell n)) := by
    refine .node rfl (fun hx hy => ?_) (.refl _) fun hx => ?_
    · cases hvalue.symm.trans hx
      cases hvalue.symm.trans hy
      exact .atom hv hv hself
    · rw [hchildren] at hx
      cases hx
  refine .node rfl ?_ (.swap ..) ?_
  · rintro _ _ ⟨⟩ ⟨⟩
    refine .items rfl rfl rfl fun {i x y} hx hy => ?_
    cases hx.symm.trans hy
    cases List.mem_singleton.mp (List.mem_of_getElem? hx)
    exact .atom trivial trivial hint
  · intro k x y hx hy
    have hne : Key.name "a" ≠ .name "b" := by decide
    rcases List.mem_cons.mp hx with heq | hx
    · cases heq
      rcases List.mem_cons.mp hy with heq | hy
      · exact absurd (Prod.ext_iff.mp heq).1 hne
      · cases List.mem_singleton.mp hy
        exact hleaf (v := .text "x") trivial htext rfl rfl
    · cases List.mem_singleton.mp hx
      rcases List.mem_cons.mp hy with heq | hy
      · cases heq
        exact hleaf (v := .bool true) trivial hbool rfl rfl
      · exact absurd (Prod.ext_iff.mp (List.mem_singleton.mp hy)).1 hne.symm

end shuffled

/-- A trace agrees with a rearrangement of it, and with a frozen copy. -/
theorem Store.shuffled_same :
    shuffled.Rearranged (.trace (.cell 0)) (.trace (.cell 1)) ∧
      shuffled.same (.trace (.cell 0)) (.trace (.cell 1)) = true ∧
      ∃ u s', (Trace.cell 0).frozen shuffled = .ok u s' ∧
        s'.same (.trace (.cell 0)) (.trace u) = true := by
  have hfinite := shuffled.finite_root (.inl rfl)
  have hrearranged : shuffled.Rearranged (.trace (.cell 0)) (.trace (.cell 1)) :=
    shuffled.congruent fun _ _ => rfl
  have hagrees : shuffled.Agrees (.trace (.cell 0)) (.trace (.cell 1)) :=
    shuffled.congruent (by decide)
  have hback : shuffled.Agrees (.trace (.cell 1)) (.trace (.cell 0)) :=
    .symm Value.sameAtom_symm hagrees
  have hself : shuffled.Agrees (.trace (.cell 0)) (.trace (.cell 0)) :=
    hagrees.trans Value.sameAtom_trans hback
  obtain ⟨hall, hcopies⟩ :=
    (Store.same_equivalence shuffled).2.2.2 _ hfinite (hfinite.agrees_self.mp hself)
  exact ⟨hrearranged, hall _ (shuffled.finite_root (.inr rfl)) hrearranged,
    hcopies _ (List.mem_cons_of_mem _ List.mem_cons_self)⟩

end ProbTrace
