import Mathlib.Logic.Relation
import ProbTrace.Proofs.Cells
import ProbTrace.Proofs.Frames

/-!
# Reachability

Values refer to their items, traces to their values and children, tags to their
overlays, closures to their source, scope and name, and scopes to what their frames bind.
What can be reached from a thing at the start of a run is all that a run which is given
the thing can find, apart from what the run itself makes.
-/

namespace ProbTrace

/-- The things that refer to others. -/
inductive Item where
  | value (v : Value)
  | trace (t : Trace)
  | scope (c : Scope)

mutual

/-- Whether a value is data through and through: no procedure, no tag and no cell is
part of it. -/
def Value.isData : Value → Bool
  | .list vs => allData vs
  | .tuple vs => allData vs
  | .quoted v => v.isData
  | .brackets vs => allData vs
  | .trace t => t.isData
  | .tag _ _ => false
  | .closure _ _ _ _ => false
  | .builtin _ => false
  | .special _ => false
  | _ => true

/-- Whether all items are data. -/
def allData : List Value → Bool
  | [] => true
  | v :: vs => v.isData && allData vs

/-- Whether a trace is a tree of data. -/
def Trace.isData : Trace → Bool
  | .tree (some v) cs => v.isData && childrenData cs
  | .tree none cs => childrenData cs
  | .cell _ => false

/-- Whether all children are trees of data. -/
def childrenData : List (Key × Trace) → Bool
  | [] => true
  | (_, t) :: rest => t.isData && childrenData rest

end

/-- Whether a thing is data. -/
def Item.isData : Item → Bool
  | .value v => v.isData
  | .trace t => t.isData
  | .scope _ => false

theorem isData_of_mem {v : Value} {vs : List Value} (h : allData vs = true) (hv : v ∈ vs) :
    v.isData = true := by
  induction vs with
  | nil => cases hv
  | cons u vs ih =>
    rw [allData, Bool.and_eq_true] at h
    rcases List.mem_cons.mp hv with rfl | hv
    · exact h.1
    · exact ih h.2 hv

theorem isData_of_mem_children {k : Key} {t : Trace} {cs : List (Key × Trace)}
    (h : childrenData cs = true) (ht : (k, t) ∈ cs) : t.isData = true := by
  induction cs with
  | nil => cases ht
  | cons c cs ih =>
    rw [childrenData, Bool.and_eq_true] at h
    rcases List.mem_cons.mp ht with rfl | ht
    · exact h.1
    · exact ih h.2 ht

/-- Whether a thing is neither a procedure nor a tag. -/
def Item.isPlain : Item → Bool
  | .value (.tag _ _) => false
  | .value (.closure _ _ _ _) => false
  | .value (.builtin _) => false
  | .value (.special _) => false
  | _ => true

namespace Machine

/-- One thing refers to another. -/
inductive Refers (m : Machine) : Item → Item → Prop
  | item {v u : Value} {vs : List Value} :
      v.items? = some vs → u ∈ vs → Refers m (.value v) (.value u)
  | content (t : Trace) : Refers m (.value (.trace t)) (.trace t)
  | overlay {serial : Nat} {o : Overlays Trace} {t : Trace} :
      o.intervene = some t ∨ o.target = some t ∨ o.output = some t →
      Refers m (.value (.tag serial o)) (.trace t)
  | source (serial : Nat) (source : Trace) (c : Scope) (name : Value) :
      Refers m (.value (.closure serial source c name)) (.trace source)
  | scope (serial : Nat) (source : Trace) (c : Scope) (name : Value) :
      Refers m (.value (.closure serial source c name)) (.scope c)
  | name (serial : Nat) (source : Trace) (c : Scope) (name : Value) :
      Refers m (.value (.closure serial source c name)) (.value name)
  | held {t : Trace} {v : Value} : m.store.value? t = some v → Refers m (.trace t) (.value v)
  | child {t u : Trace} {k : Key} :
      (k, u) ∈ m.store.children t → Refers m (.trace t) (.trace u)
  | outer (id : FrameId) (c : Scope) : Refers m (.scope (.frame id c)) (.scope c)
  | bound {id : FrameId} {c : Scope} {a : Address} {v : Value} :
      (a, v) ∈ (m.bindings id).entries → Refers m (.scope (.frame id c)) (.value v)

theorem Refers.isData {m : Machine} {x y : Item} (h : m.Refers x y) (hx : x.isData = true) :
    y.isData = true := by
  cases h with
  | @item v u vs hitems hu =>
    cases v with
    | list us | tuple us =>
      cases hitems
      exact isData_of_mem hx hu
    | quoted w =>
      cases hitems
      cases List.mem_singleton.mp hu
      exact hx
    | brackets us =>
      cases hitems
      cases List.mem_singleton.mp hu
      exact hx
    | _ => cases hitems
  | content t => exact hx
  | overlay _ => cases hx
  | source _ _ _ _ => cases hx
  | scope _ _ _ _ => cases hx
  | name _ _ _ _ => cases hx
  | @held t v hv =>
    cases t with
    | cell n => cases hx
    | tree value cs =>
      cases hv
      exact (Bool.and_eq_true _ _ ▸ hx : _ ∧ _).1
  | @child t u k hu =>
    cases t with
    | cell n => cases hx
    | tree value cs =>
      cases value with
      | none => exact isData_of_mem_children hx hu
      | some v => exact isData_of_mem_children (Bool.and_eq_true _ _ ▸ hx : _ ∧ _).2 hu
  | outer _ _ => cases hx
  | bound _ => cases hx

/-- A tree refers to its value and to its children. -/
theorem Refers.tree_cases {m : Machine} {value : Option Value} {cs : List (Key × Trace)} {y : Item}
    (h : m.Refers (.trace (.tree value cs)) y) :
    (∃ v ∈ value, y = .value v) ∨ ∃ k u, (k, u) ∈ cs ∧ y = .trace u := by
  cases h with
  | held hv => exact .inl ⟨_, hv, rfl⟩
  | child hu => exact .inr ⟨_, _, hu, rfl⟩

theorem isData_find? {s : Store} {t u : Trace} {a : Address} (ht : t.isData = true)
    (hu : s.find? t a = some u) : u.isData = true :=
  Store.find?_inherits (P := fun t => t.isData = true)
    (fun {t _ u} ht hu => Refers.isData (m := { store := s }) (x := .trace t) (y := .trace u)
      (.child hu) ht) ht hu

/-- One thing can be reached from another. -/
def Reaches (m : Machine) : Item → Item → Prop :=
  Relation.ReflTransGen m.Refers

/-- From a thing no captured tag can be reached. -/
def TagFree (m : Machine) (x : Item) : Prop :=
  ∀ serial o, ¬ m.Reaches x (.value (.tag serial o))

/-- All cells and frames that can be reached from a thing are there. -/
structure Anchored (m : Machine) (x : Item) : Prop where
  cell : ∀ n, m.Reaches x (.trace (.cell n)) → n < m.store.cells.size
  frame : ∀ id c, m.Reaches x (.scope (.frame id c)) → id < m.frames.size

/-- A thing from which no tag can be reached and below which nothing is missing. -/
def Sound (m : Machine) (x : Item) : Prop :=
  m.TagFree x ∧ m.Anchored x

variable {m : Machine} {x y : Item}

theorem Sound.refers (h : m.Sound x) (hxy : m.Refers x y) : m.Sound y := by
  obtain ⟨htag, hcell, hframe⟩ := h
  refine ⟨fun serial o hy => htag serial o (hy.head hxy), fun n hy => hcell n (hy.head hxy),
    fun id c hy => hframe id c (hy.head hxy)⟩

theorem Sound.not_tag {serial : Nat} {o : Overlays Trace} (h : m.Sound (.value (.tag serial o))) :
    False :=
  h.1 serial o .refl

theorem Sound.cell_lt {n : NodeId} (h : m.Sound (.trace (.cell n))) : n < m.store.cells.size :=
  h.2.cell n .refl

theorem Sound.frame_lt {id : FrameId} {c : Scope} (h : m.Sound (.scope (.frame id c))) :
    id < m.frames.size :=
  h.2.frame id c .refl

/-- A thing is sound if it is in order itself and refers to sound things only. -/
theorem Sound.intro (htag : ∀ serial o, x ≠ .value (.tag serial o))
    (hcell : ∀ n, x = .trace (.cell n) → n < m.store.cells.size)
    (hframe : ∀ id c, x = .scope (.frame id c) → id < m.frames.size)
    (hnext : ∀ y, m.Refers x y → m.Sound y) : m.Sound x := by
  have hreach {y : Item} (h : m.Reaches x y) : x = y ∨ ∃ z, m.Refers x z ∧ m.Reaches z y :=
    h.cases_head
  refine ⟨fun serial o h => ?_, fun n h => ?_, fun id c h => ?_⟩
  · rcases hreach h with rfl | ⟨z, hz, hzy⟩
    · exact htag serial o rfl
    · exact (hnext z hz).1 serial o hzy
  · rcases hreach h with rfl | ⟨z, hz, hzy⟩
    · exact hcell n rfl
    · exact (hnext z hz).2.cell n hzy
  · rcases hreach h with rfl | ⟨z, hz, hzy⟩
    · exact hframe id c rfl
    · exact (hnext z hz).2.frame id c hzy

theorem Sound.tree {value : Option Value} {cs : List (Key × Trace)}
    (hvalue : ∀ v ∈ value, m.Sound (.value v)) (hcs : ∀ k u, (k, u) ∈ cs → m.Sound (.trace u)) :
    m.Sound (.trace (.tree value cs)) := by
  refine .intro (fun _ _ h => nomatch h) (fun _ h => nomatch h) (fun _ _ h => nomatch h)
    fun y hy => ?_
  rcases hy.tree_cases with ⟨v, hv, rfl⟩ | ⟨k, u, hu, rfl⟩
  · exact hvalue v hv
  · exact hcs k u hu

theorem Sound.find? {t u : Trace} {a : Address} (h : m.Sound (.trace t))
    (hu : m.store.find? t a = some u) : m.Sound (.trace u) :=
  Store.find?_inherits (P := fun t => m.Sound (.trace t)) (fun h hu => h.refers (.child hu)) h hu

theorem Sound.top : m.Sound (.scope .top) :=
  .intro (fun _ _ h => nomatch h) (fun _ h => nomatch h) (fun _ _ h => nomatch h)
    fun _ h => nomatch h

/-- Data are sound in every machine. -/
theorem Sound.ofData (h : x.isData = true) : m.Sound x := by
  have hreach : ∀ {y}, m.Reaches x y → y.isData = true := by
    intro y hy
    induction hy with
    | refl => exact h
    | tail _ hstep ih => exact hstep.isData ih
  refine ⟨fun serial o hy => ?_, fun n hy => ?_, fun id c hy => ?_⟩
  · cases hreach hy
  · cases hreach hy
  · cases hreach hy

theorem Sound.empty : m.Sound (.trace .empty) :=
  .ofData rfl

/-- A property of things that is passed on to all that they refer to. -/
def Hereditary (m : Machine) (K : Item → Prop) : Prop :=
  ∀ {x y}, K x → m.Refers x y → K y

theorem sound_hereditary : m.Hereditary m.Sound :=
  Sound.refers

/-- Everything that can be reached from a thing has a property. -/
def Throughout (m : Machine) (P : Item → Prop) (x : Item) : Prop :=
  ∀ y, m.Reaches x y → P y

namespace Throughout

variable {P Q : Item → Prop}

theorem self (h : m.Throughout P x) : P x :=
  h x .refl

theorem hereditary : m.Hereditary (m.Throughout P) :=
  fun h hxy z hz => h z (hz.head hxy)

/-- A property holds throughout a thing if it holds of the thing and throughout all that the
thing refers to. -/
theorem intro (h : P x) (hnext : ∀ y, m.Refers x y → m.Throughout P y) : m.Throughout P x := by
  intro y hy
  rcases hy.cases_head with rfl | ⟨z, hz, hzy⟩
  · exact h
  · exact hnext z hz y hzy

theorem ofData (hP : ∀ {y : Item}, y.isData = true → P y) (h : x.isData = true) :
    m.Throughout P x := by
  intro y hy
  refine hP ?_
  induction hy with
  | refl => exact h
  | tail _ hstep ih => exact hstep.isData ih

end Throughout

/-- No procedure and no tag can be reached from a thing, and below it nothing is missing. -/
def Plain (m : Machine) (x : Item) : Prop :=
  m.Throughout (fun y => y.isPlain = true) x ∧ m.Anchored x

namespace Plain

theorem sound (h : m.Plain x) : m.Sound x :=
  ⟨fun serial o hy => Bool.false_ne_true (h.1 (.value (.tag serial o)) hy), h.2⟩

theorem refers (h : m.Plain x) (hxy : m.Refers x y) : m.Plain y :=
  ⟨Throughout.hereditary h.1 hxy, (h.sound.refers hxy).2⟩

theorem ofData (h : x.isData = true) : m.Plain x := by
  refine ⟨Throughout.ofData (fun {y} hy => ?_) h, (Sound.ofData h).2⟩
  rcases y with (_ | _) | _ | _ <;> first | rfl | cases hy

theorem find? {t u : Trace} {a : Address} (h : m.Plain (.trace t))
    (hu : m.store.find? t a = some u) : m.Plain (.trace u) :=
  Store.find?_inherits (P := fun t => m.Plain (.trace t)) (fun h hu => h.refers (.child hu)) h hu

end Plain

/-- A frame of a scope with a property, or one that was opened since. -/
def Admits (m : Machine) (K : Item → Prop) (i j : FrameId) : Prop :=
  i = j ∧ (m.frames.size ≤ i ∨ ∃ c, K (.scope (.frame i c)))

variable {K : Item → Prop}

theorem Hereditary.scopesAlike (hK : m.Hereditary K) {c : Scope} (h : K (.scope c)) :
    ScopesAlike (m.Admits K) c c := by
  induction c with
  | top => exact .top
  | absent => exact .absent
  | frame id c ih => exact .frame ⟨rfl, .inr ⟨c, h⟩⟩ (ih (hK h (.outer id c)))

/-- A likeness that admits all values in a machine with a hereditary property. -/
structure Covers (m : Machine) (K : Item → Prop) (L : Likeness) : Prop where
  inherited : m.Hereditary K
  trace : ∀ t, K (.trace t) → L.trace t
  tag : ∀ serial o, K (.value (.tag serial o)) → L.tag serial o serial o
  closure : ∀ serial source c name, K (.value (.closure serial source c name)) →
    L.closure source name serial c serial c
  special : ∀ s, K (.value (.special s)) → L.special s
  undefined : ∀ serial, K (.value (.undefined serial)) → L.undefined serial serial

variable {L : Likeness}

/-- Nothing plain is a procedure or a tag. -/
theorem Plain.covers (htrace : ∀ t, m.Plain (.trace t) → L.trace t)
    (hundefined : ∀ serial, m.Plain (.value (.undefined serial)) → L.undefined serial serial) :
    m.Covers m.Plain L where
  inherited := Plain.refers
  trace := htrace
  tag _ _ h := nomatch h.1.self
  closure _ _ _ _ h := nomatch h.1.self
  special _ h := nomatch h.1.self
  undefined := hundefined

mutual

theorem Covers.alike (hL : m.Covers K L) : ∀ v : Value, K (.value v) → Value.Alike L v v
  | .null, _ => .null
  | .bool b, _ => .bool b
  | .int i, _ => .int i
  | .float x, _ => .float x
  | .undefined serial, h => .undefined (hL.undefined serial h)
  | .text s, _ => .text s
  | .symbol s, _ => .symbol s
  | .list vs, h => .ofList (hL.itemsAlike vs fun _ hu => hL.inherited h (.item rfl hu))
  | .tuple vs, h => .ofTuple (hL.itemsAlike vs fun _ hu => hL.inherited h (.item rfl hu))
  | .quoted v, h => .quoted (hL.alike v (hL.inherited h (.item rfl List.mem_cons_self)))
  | .brackets vs, h => by
    have hlist : K (.value (.list vs)) := hL.inherited h (.item rfl List.mem_cons_self)
    have hitems := hL.itemsAlike vs fun _ hu => hL.inherited hlist (.item rfl hu)
    exact .brackets rfl (List.forall₂_iff_zip.mp hitems).2
  | .trace t, h => .trace (hL.trace t (hL.inherited h (.content t)))
  | .tag serial o, h => .tag (hL.tag serial o h)
  | .closure serial source c name, h => .closure (hL.closure serial source c name h)
  | .builtin b, _ => .builtin b
  | .special s, h => .special (hL.special s h)

theorem Covers.itemsAlike (hL : m.Covers K L) :
    ∀ vs : List Value, (∀ u ∈ vs, K (.value u)) → ItemsAlike L vs vs
  | [], _ => .nil
  | v :: vs, h =>
    .cons (hL.alike v (h v List.mem_cons_self))
      (hL.itemsAlike vs fun u hu => h u (List.mem_cons_of_mem v hu))

end

theorem Covers.frameAlike (hL : m.Covers K L) {i j : FrameId} (h : m.Admits K i j) :
    FrameAlike L (m.bindings i) (m.bindings j) := by
  obtain ⟨rfl, hnew | ⟨c, hc⟩⟩ := h
  · rw [bindings_of_size_le hnew]
    exact .empty
  · exact .refl _ fun a v hmem => hL.alike v (hL.inherited hc (.bound hmem))

end Machine
end ProbTrace
