import ProbTrace.Proofs.Binding
import ProbTrace.Proofs.Reachability

/-!
# What is mentioned was given out

Serial numbers, frames and cells are given out one after the other.  A machine is closed if
the values in its cells and frames mention only those that were given out.  Then nothing else
can be reached from a thing that mentions only such numbers.

Evaluation keeps a machine closed, whatever the code and the overlays are.  What an evaluation
is given mentions numbers of the machine at its start, and what it gives mentions numbers of
the machine at its end, which has given out more.
-/

namespace ProbTrace

/-- The number that a thing itself mentions was given out. -/
def Item.IsGiven (m : Machine) : Item → Prop
  | .value (.undefined serial) => serial < m.serials
  | .value (.tag serial _) => serial < m.serials
  | .value (.closure serial _ _ _) => serial < m.serials
  | .trace (.cell n) => n < m.store.cells.size
  | .scope (.frame id _) => id < m.frames.size
  | _ => True

namespace Machine

/-- All numbers that are mentioned in a thing were given out.  This does not look into cells
and frames. -/
def Knows (m : Machine) : Item → Prop :=
  ({} : Machine).Throughout (Item.IsGiven m)

/-- What is in the cells and frames of a machine mentions what was given out only. -/
structure Closed (m : Machine) : Prop where
  held : ∀ {n v}, (m.store.cell n).value = some v → m.Knows (.value v)
  child : ∀ {n k t}, (k, t) ∈ (m.store.cell n).children → m.Knows (.trace t)
  bound : ∀ {id a v}, (a, v) ∈ (m.bindings id).entries → m.Knows (.value v)

/-- A machine that has given out more. -/
structure Precedes (m m' : Machine) : Prop where
  serials : m.serials ≤ m'.serials
  frames : m.frames.size ≤ m'.frames.size
  cells : m.store.cells.size ≤ m'.store.cells.size

theorem Precedes.refl (m : Machine) : m.Precedes m :=
  ⟨Nat.le_refl _, Nat.le_refl _, Nat.le_refl _⟩

theorem Precedes.trans {m m' m'' : Machine} (h : m.Precedes m') (h' : m'.Precedes m'') :
    m.Precedes m'' :=
  ⟨Nat.le_trans h.serials h'.serials, Nat.le_trans h.frames h'.frames,
    Nat.le_trans h.cells h'.cells⟩

end Machine

theorem Item.IsGiven.mono {m m' : Machine} (h : m.Precedes m') {x : Item} (hx : x.IsGiven m) :
    x.IsGiven m' := by
  rcases x with v | t | c
  · cases v with
    | undefined _ => exact Nat.lt_of_lt_of_le hx h.serials
    | tag _ _ => exact Nat.lt_of_lt_of_le hx h.serials
    | closure _ _ _ _ => exact Nat.lt_of_lt_of_le hx h.serials
    | _ => trivial
  · cases t with
    | cell n => exact Nat.lt_of_lt_of_le hx h.cells
    | tree _ _ => trivial
  · cases c with
    | frame id _ => exact Nat.lt_of_lt_of_le hx h.frames
    | _ => trivial

/-- Values that mention what was given out, each alike to itself only. -/
def Likeness.known (m : Machine) : Likeness where
  trace t := m.Knows (.trace t)
  tag i o j p := i = j ∧ o = p ∧ m.Knows (.value (.tag i o))
  closure source name i c j d := i = j ∧ c = d ∧ m.Knows (.value (.closure i source c name))
  special _ := True
  undefined i j := i = j ∧ i < m.serials

variable {m m' : Machine} {x y : Item} {v v' : Value} {vs : List Value} {c : Scope}
variable {t u : Trace} {a : Address} {o : Overlays Trace}

theorem Likeness.known_eq (h : Value.Alike (.known m) v v') : v = v' :=
  h.eq (L := .known m) (fun ht => ⟨ht.1, ht.2.1⟩) (fun hc => ⟨hc.1, hc.2.1⟩) And.left

namespace Machine.Knows

theorem refers (h : m.Knows x) (hxy : ({} : Machine).Refers x y) : m.Knows y :=
  Throughout.hereditary h hxy

theorem mono (h : m.Knows x) (hm : m.Precedes m') : m'.Knows x :=
  fun y hy => (h y hy).mono hm

theorem alike (h : m.Knows (.value v)) : Value.Alike (.known m) v v := by
  have hcovers : ({} : Machine).Covers m.Knows (.known m) :=
    { inherited := Throughout.hereditary
      trace := fun _ h => h
      tag := fun _ _ h => ⟨rfl, rfl, h⟩
      closure := fun _ _ _ _ h => ⟨rfl, rfl, h⟩
      special := fun _ _ => trivial
      undefined := fun _ h => ⟨rfl, h.self⟩ }
  exact hcovers.alike v h

/-- A value without parts. -/
theorem atom (h : (Item.value v).IsGiven m) (hpart : ∀ y, ¬ ({} : Machine).Refers (.value v) y) :
    m.Knows (.value v) :=
  .intro h fun y hy => (hpart y hy).elim

theorem undefined {serial : Nat} (h : serial < m.serials) : m.Knows (.value (.undefined serial)) := by
  refine atom h fun y hy => ?_
  cases hy with
  | item hitems _ => cases hitems

theorem list (h : ∀ u ∈ vs, m.Knows (.value u)) : m.Knows (.value (.list vs)) := by
  refine .intro trivial fun y hy => ?_
  cases hy with
  | item hitems hu =>
    cases hitems
    exact h _ hu

/-- What is alike to something mentions what was given out. -/
theorem ofAlike (h : Value.Alike (.known m) v v') : m.Knows (.value v) := by
  have hall {vs ws : List Value} (size : vs.length = ws.length)
      (ih : ∀ {v w}, (v, w) ∈ vs.zip ws → m.Knows (.value v)) : ∀ u ∈ vs, m.Knows (.value u) := by
    intro u hu
    have hforall : List.Forall₂ (fun v _ => m.Knows (.value v)) vs ws :=
      List.forall₂_iff_zip.mpr ⟨size, ih⟩
    clear size ih
    induction hforall with
    | nil => cases hu
    | cons hv _ ih =>
      rcases List.mem_cons.mp hu with rfl | hu
      · exact hv
      · exact ih hu
  induction h with
  | list size _ ih => exact Knows.list (hall size ih)
  | tuple size _ ih =>
    refine .intro trivial fun y hy => ?_
    cases hy with
    | item hitems hu =>
      cases hitems
      exact hall size ih _ hu
  | quoted _ ih =>
    refine .intro trivial fun y hy => ?_
    cases hy with
    | item hitems hu =>
      cases hitems
      cases List.mem_singleton.mp hu
      exact ih
  | brackets size _ ih =>
    refine .intro trivial fun y hy => ?_
    cases hy with
    | item hitems hu =>
      cases hitems
      cases List.mem_singleton.mp hu
      exact Knows.list (hall size ih)
  | trace ht =>
    refine .intro trivial fun y hy => ?_
    cases hy with
    | item hitems _ => cases hitems
    | content _ => exact ht
  | tag ht => exact ht.2.2
  | closure hc => exact hc.2.2
  | undefined hn => exact Knows.undefined hn.2
  | _ =>
    refine .atom trivial fun y hy => ?_
    cases hy with
    | item hitems _ => cases hitems

@[simp] theorem bool (b : Bool) : m.Knows (.value (.bool b)) := .ofAlike (.bool b)

@[simp] theorem float (x : Float) : m.Knows (.value (.float x)) := .ofAlike (.float x)

@[simp] theorem text (s : String) : m.Knows (.value (.text s)) := .ofAlike (.text s)

@[simp] theorem tree_iff {value : Option Value} {cs : List (Key × Trace)} :
    m.Knows (.trace (.tree value cs)) ↔
      (∀ u, value = some u → m.Knows (.value u)) ∧ ∀ c ∈ cs, m.Knows (.trace c.2) := by
  constructor
  · intro h
    exact ⟨fun u hu => h.refers (.held hu), fun c hc => h.refers (.child hc)⟩
  · rintro ⟨hvalue, hchildren⟩
    refine .intro trivial fun y hy => ?_
    cases hy with
    | held hv => exact hvalue _ hv
    | child hu => exact hchildren _ hu

theorem items (h : m.Knows (.value v)) (hv : v.items? = some vs) :
    ∀ u ∈ vs, m.Knows (.value u) :=
  fun _ hu => h.refers (.item hv hu)

theorem itemsAlike (h : ∀ u ∈ vs, m.Knows (.value u)) : ItemsAlike (.known m) vs vs :=
  List.forall₂_same.mpr fun u hu => (h u hu).alike

theorem newFrame (h : m.Knows (.scope c)) {id : FrameId} (hid : id < m.frames.size) :
    m.Knows (.scope (.frame id c)) := by
  refine .intro hid fun y hy => ?_
  cases hy with
  | outer _ _ => exact h
  | bound hv =>
    have hempty : ({} : Machine).bindings id = .empty := rfl
    rw [hempty] at hv
    cases hv

theorem cell {n : NodeId} (hn : n < m.store.cells.size) : m.Knows (.trace (.cell n)) := by
  have hempty : ({} : Machine).store.cell n = {} := rfl
  refine .intro hn fun y hy => ?_
  cases hy with
  | held hv =>
    rw [Store.value?, hempty] at hv
    cases hv
  | child hu =>
    rw [Store.children, hempty] at hu
    cases hu

theorem top : m.Knows (.scope .top) :=
  .intro trivial fun _ h => nomatch h

theorem empty : m.Knows (.trace .empty) := by
  simp [Trace.empty]

end Machine.Knows

namespace Machine.Closed

/-- A machine that has given out nothing. -/
theorem initial : ({} : Machine).Closed where
  held hv := nomatch hv
  child ht := nomatch ht
  bound hv := nomatch hv

/-- In a closed machine all that can be reached mentions what was given out. -/
theorem hereditary (h : m.Closed) : m.Hereditary m.Knows := by
  intro x y hx hxy
  cases hxy with
  | item hitems hu => exact hx.refers (.item hitems hu)
  | content t => exact hx.refers (.content t)
  | overlay ho => exact hx.refers (.overlay ho)
  | source serial source c name => exact hx.refers (.source serial source c name)
  | scope serial source c name => exact hx.refers (.scope serial source c name)
  | name serial source c name => exact hx.refers (.name serial source c name)
  | @held t v hv =>
    cases t with
    | tree _ _ => exact hx.refers (.held hv)
    | cell n => exact h.held hv
  | @child t u k hu =>
    cases t with
    | tree _ _ => exact hx.refers (.child hu)
    | cell n => exact h.child hu
  | outer id c => exact hx.refers (.outer id c)
  | bound hv => exact h.bound hv

theorem throughout (h : m.Closed) (hx : m.Knows x) : m.Throughout (Item.IsGiven m) x := by
  intro y hy
  have hknows : m.Knows y := by
    induction hy with
    | refl => exact hx
    | tail _ hstep ih => exact h.hereditary ih hstep
  exact hknows.self

theorem frameAlike (h : m.Closed) (id : FrameId) :
    FrameAlike (.known m) (m.bindings id) (m.bindings id) :=
  .refl _ fun _ _ hv => (h.bound hv).alike

theorem find? (h : m.Closed) (ht : m.Knows (.trace t)) (hu : m.store.find? t a = some u) :
    m.Knows (.trace u) :=
  Store.find?_inherits (P := fun t => m.Knows (.trace t)) (fun ht hu => h.hereditary ht (.child hu))
    ht hu

theorem valueAt? (h : m.Closed) (ht : m.Knows (.trace t)) (hv : m.store.valueAt? t a = some v) :
    m.Knows (.value v) := by
  obtain ⟨u, hu, hv⟩ := Option.bind_eq_some_iff.mp hv
  exact h.hereditary (h.find? ht hu) (.held hv)

theorem outline (h : m.Closed) (ht : m.Knows (.trace t)) :
    m.Knows (.trace (m.store.outline t)) := by
  refine Store.Outlines.outline (K := fun t => m.Knows (.trace t))
    (Q := fun t => m.Knows (.trace t)) ⟨?_, id, ?_⟩ ht
  · exact fun ht hu => h.hereditary ht (.child hu)
  · intro t cs ht hcs
    exact Machine.Knows.tree_iff.mpr ⟨fun u hu => h.hereditary ht (.held hu),
      fun c hc => hcs c.1 c.2 hc⟩

/-- A machine that has given out more serial numbers and nothing else. -/
theorem renumbered (h : m.Closed) (hquiet : m.Quiet m') (hserials : m.serials ≤ m'.serials) :
    m.Precedes m' ∧ m'.Closed := by
  have hm : m.Precedes m' := by
    refine ⟨hserials, Nat.le_of_eq ?_, Nat.le_of_eq ?_⟩
    · rw [hquiet.frames]
    · rw [hquiet.store]
  refine ⟨hm, fun {n v} hv => ?_, fun {n k t} ht => ?_, fun {id a v} hv => ?_⟩
  · rw [hquiet.store] at hv
    exact (h.held hv).mono hm
  · rw [hquiet.store] at ht
    exact (h.child ht).mono hm
  · unfold Machine.bindings at hv
    rw [hquiet.frames] at hv
    exact (h.bound hv).mono hm

/-! ## Edits -/

theorem setValue (h : m.Closed) (n : NodeId) (hv : m.Knows (.value v)) :
    let m' : Machine := { m with store := m.store.setValue n (some v) }
    m.Precedes m' ∧ m'.Closed := by
  intro m'
  have hm : m.Precedes m' :=
    ⟨Nat.le_refl _, Nat.le_refl _, Nat.le_of_eq (Store.size_setValue ..).symm⟩
  refine ⟨hm, fun {i x} hx => ?_, fun {i k t} ht => ?_, fun hv => (h.bound hv).mono hm⟩
  · rw [Store.cell_setValue] at hx
    split at hx
    · cases hx
      exact hv.mono hm
    · exact (h.held hx).mono hm
  · change (k, t) ∈ (m.store.setValue n (some v)).children (.cell i) at ht
    rw [Store.children_setValue] at ht
    exact (h.child ht).mono hm

theorem put (h : m.Closed) (hv : m.Knows (.value v)) {s : Store}
    (hput : t.put (some v) m.store = .ok () s) :
    let m' : Machine := { m with store := s }
    m.Precedes m' ∧ m'.Closed := by
  rcases t.put_cases (some v) m.store with ⟨n, -, -, hok⟩ | ⟨-, herror⟩
  · rw [hok] at hput
    cases hput
    exact h.setValue n hv
  · rw [herror] at hput
    cases hput

theorem grow (h : m.Closed) (n : NodeId) (k : Key) :
    let m' : Machine := { m with store := m.store.grow n k }
    m.Precedes m' ∧ m'.Closed ∧ m'.Knows (.trace (.cell m.store.cells.size)) := by
  intro m'
  have hsize : m'.store.cells.size = m.store.cells.size + 1 := Store.size_grow ..
  have hm : m.Precedes m' := ⟨Nat.le_refl _, Nat.le_refl _, hsize ▸ Nat.le_succ _⟩
  have hnew : m'.Knows (.trace (.cell m.store.cells.size)) := .cell (hsize ▸ Nat.lt_succ_self _)
  refine ⟨hm, ⟨fun {i x} hx => ?_, fun {i j t} ht => ?_, fun hv => (h.bound hv).mono hm⟩, hnew⟩
  · have hvalue : m'.store.value? (.cell i) = m.store.value? (.cell i) := Store.value?_grow ..
    exact (h.held (hvalue.symm.trans hx)).mono hm
  · rw [Store.cell_grow] at ht
    split at ht
    · rcases Store.mem_insertChild ht with heq | ht
      · cases heq
        exact hnew
      · exact (h.child ht).mono hm
    · exact (h.child ht).mono hm

theorem reach (h : m.Closed) (ht : m.Knows (.trace t)) {s : Store}
    (hreach : t.reach a m.store = .ok u s) :
    let m' : Machine := { m with store := s }
    m.Precedes m' ∧ m'.Closed ∧ m'.Knows (.trace u) := by
  induction a generalizing m t with
  | nil =>
    cases hreach
    exact ⟨.refl m, h, ht⟩
  | cons k a ih =>
    cases hchild : m.store.child? t k with
    | some x =>
      rw [Trace.reach_found hchild] at hreach
      exact ih h (h.hereditary ht (.child (mem_of_childAt? hchild))) hreach
    | none =>
      cases hw : m.store.isWritable t with
      | false =>
        rw [Trace.reach_readOnly hchild hw] at hreach
        cases hreach
      | true =>
        cases t with
        | tree _ _ => cases hw
        | cell n =>
          rw [Trace.reach_missing hchild hw] at hreach
          obtain ⟨hm, hclosed, hnew⟩ := h.grow n k
          obtain ⟨hm', hclosed', hu⟩ := ih hclosed hnew hreach
          exact ⟨hm.trans hm', hclosed', hu⟩

end Machine.Closed

namespace Integrity

/-! ## Computations that keep a machine closed -/

/-- If a computation returns, then it leaves the machine closed, and its result is as said in
view of the machine that it leaves. -/
def Closes {α : Type} (m : Machine) (x : Run α) (P : Machine → α → Prop) : Prop :=
  m.Closed → ∀ {a m'}, x m = .ok a m' → m.Precedes m' ∧ m'.Closed ∧ P m' a

/-- The computation gives a value, with a score. -/
abbrev GivesValue {β : Type} (m : Machine) (r : Value × β) : Prop :=
  m.Knows (.value r.1)

/-- Overlays that mention what was given out. -/
def Sited (m : Machine) (o : Overlays Trace) : Prop :=
  ∀ t, o.intervene = some t ∨ o.target = some t ∨ o.output = some t → m.Knows (.trace t)

theorem Sited.mono (h : Sited m o) (hm : m.Precedes m') : Sited m' o :=
  fun t ht => (h t ht).mono hm

namespace Closes

variable {α β : Type} {P : Machine → α → Prop} {Q : Machine → β → Prop}

theorem pure {b : α} (h : P m b) : Closes m (Pure.pure b) P := by
  intro hm a m' hx
  cases hx
  exact ⟨.refl m, hm, h⟩

theorem bind {x : Run α} {f : α → Run β} (hx : Closes m x P)
    (hf : ∀ m' a, m.Precedes m' → P m' a → Closes m' (f a) Q) : Closes m (x >>= f) Q := by
  intro hm b m'' h
  obtain ⟨a, m', ha, hb⟩ := Run.exists_of_bind h
  obtain ⟨hm', hclosed, hP⟩ := hx hm ha
  obtain ⟨hm'', hclosed', hQ⟩ := hf m' a hm' hP hclosed hb
  exact ⟨hm'.trans hm'', hclosed', hQ⟩

theorem withStore {g : Store → Run α} (h : m.Closed → Closes m (g m.store) P) :
    Closes m (Run.store >>= g) P :=
  fun hm => h hm hm

theorem withMachine {g : Machine → Run α} (h : m.Closed → Closes m (g m) P) :
    Closes m (get >>= g) P :=
  fun hm => h hm hm

theorem ofExcept {x : Except Fault α} (h : ∀ a, x = .ok a → P m a) :
    Closes m (Run.ofExcept x) P := by
  intro hm a m' hx
  obtain ⟨ha, rfl⟩ := Run.eq_of_ofExcept hx
  exact ⟨.refl _, hm, h a ha⟩

theorem raise (f : Fault) : Closes m (Run.raise f : Run α) P := by
  intro hm a m' hx
  cases hx

theorem edit {e : Edit α} (h : m.Closed → ∀ {a s}, e m.store = .ok a s →
    m.Precedes { m with store := s } ∧ ({ m with store := s } : Machine).Closed ∧
      P { m with store := s } a) : Closes m (Run.edit e) P := by
  intro hm a m' hx
  cases he : e m.store with
  | error f s =>
    rw [Run.edit_error he] at hx
    cases hx
  | ok b s =>
    rw [Run.edit_ok he] at hx
    cases hx
    exact h hm he

/-- A step that leaves the store and the frames. -/
theorem quiet {x : Run α} (h : ∀ {a m'}, x m = .ok a m' →
    m.Quiet m' ∧ m.serials ≤ m'.serials ∧ P m' a) : Closes m x P := by
  intro hm a m' hx
  obtain ⟨hquiet, hserials, hP⟩ := h hx
  obtain ⟨hm', hclosed⟩ := hm.renumbered hquiet hserials
  exact ⟨hm', hclosed, hP⟩

end Closes

/-! ## Numbers -/

theorem fresh : Closes m Run.fresh fun m' i => i < m'.serials := by
  refine .quiet fun hx => ?_
  cases hx
  exact ⟨⟨rfl, rfl⟩, Nat.le_succ _, Nat.lt_succ_self _⟩

theorem enroll (hv : m.Knows (.value v)) :
    Closes m (Run.enroll v) fun m' u => m'.Knows (.value u) := by
  refine .quiet fun {u m'} hx => ?_
  have hstep : Run.enroll v m = .ok (v.enroll m.serials).1
      { m with serials := (v.enroll m.serials).2 } := rfl
  rw [hstep] at hx
  by_cases hnan : ∃ x : Float, v = .float x ∧ x.isNaN = true
  · obtain ⟨x, rfl, hnan⟩ := hnan
    rw [Value.enroll, if_pos hnan] at hx
    cases hx
    exact ⟨⟨rfl, rfl⟩, Nat.le_succ _, .undefined (Nat.lt_succ_self _)⟩
  · have henroll : v.enroll m.serials = (v, m.serials) := by
      cases v with
      | float x => rw [Value.enroll, if_neg fun hx => hnan ⟨x, rfl, hx⟩]
      | _ => rfl
    rw [henroll] at hx
    cases hx
    exact ⟨⟨rfl, rfl⟩, Nat.le_refl _, hv⟩

theorem notify (n : Notice) : Closes m (Run.notify n) fun _ _ => True := by
  refine .quiet fun hx => ?_
  cases hx
  exact ⟨⟨rfl, rfl⟩, Nat.le_refl _, trivial⟩

theorem compose (vs : List Value) : Closes m (Run.compose vs) fun _ _ => True := by
  refine .quiet fun hx => ?_
  rcases Run.compose_cases vs m with h | h
  · cases h.symm.trans hx
    exact ⟨⟨rfl, rfl⟩, Nat.le_refl _, trivial⟩
  · cases h.symm.trans hx

/-- A text is composed and a notice is given, and then there is a fault. -/
theorem reject {α : Type} {P : Machine → α → Prop} (vs : List Value) (notice : Store → Notice)
    (f : Fault) : Closes m (do
      Run.compose vs
      Run.notify (notice (← Run.store))
      Run.raise f : Run α) P :=
  .bind (compose vs) fun _ _ _ _ => .withStore fun _ => .bind (notify _) fun _ _ _ _ => .raise f

theorem draw (ctx : Context) : Closes m (Run.draw ctx) fun _ _ => True := by
  refine .quiet fun hx => ?_
  cases hx
  exact ⟨⟨rfl, rfl⟩, Nat.le_refl _, trivial⟩

theorem deviate (ctx : Context) : Closes m (Random.deviate ctx) fun _ _ => True := by
  have hspare (m : Machine) (z : Option Float) :
      Closes m (modify fun m => { m with spare := z }) fun _ _ => True := by
    refine .quiet fun hx => ?_
    cases hx
    exact ⟨⟨rfl, rfl⟩, Nat.le_refl _, trivial⟩
  refine .withMachine fun _ => .bind (hspare m none) fun m₁ _ _ _ => ?_
  cases m.spare with
  | some z => exact .pure trivial
  | none =>
    refine .bind (draw ctx) fun m₂ turn _ _ => .bind (draw ctx) fun m₃ u _ _ => ?_
    refine .bind (P := fun _ _ => True) (.ofExcept fun _ _ => trivial) fun m₄ radius _ _ => ?_
    exact .bind (hspare m₄ _) fun m₅ _ _ _ => .pure trivial

/-! ## Frames -/

theorem newFrame (hc : m.Knows (.scope c)) :
    Closes m (Run.newFrame c) fun m' c' => m'.Knows (.scope c') := by
  intro hm a m' hx
  cases hx
  have hpush : m.frames.size < (m.frames.push Trace.empty).size := by simp
  have hm' : m.Precedes { m with frames := m.frames.push .empty } :=
    ⟨Nat.le_refl _, Nat.le_of_lt hpush, Nat.le_refl _⟩
  refine ⟨hm', ⟨fun hv => (hm.held hv).mono hm', fun ht => (hm.child ht).mono hm',
    fun {id a v} hv => ?_⟩, (hc.mono hm').newFrame hpush⟩
  rw [Machine.bindings_push] at hv
  exact (hm.bound hv).mono hm'

/-- Two machines that differ from one in their frames only, with values that are the same. -/
structure Rebound (m : Machine) (w : Pair) : Prop where
  store : w.first.store = m.store
  store' : w.second.store = m.store
  serials : w.first.serials = m.serials
  size : w.first.frames.size = m.frames.size
  size' : w.second.frames.size = m.frames.size
  bindings : ∀ id, FrameAlike (.known m) (w.first.bindings id) (w.second.bindings id)

/-- Binding names gives out nothing. -/
def rebinding (m : Machine) : Simulation where
  like := .known m
  related := Rebound m
  advance _ _ _ := True
  site _ _ _ _ := True
  code _ _ _ _ := True
  parts _ _ _ _ := True
  entered _ _ _ _ := True
  binding _ _ _ _ := True
  walked _ _ _ := True
  assumed _ := True
  lenient := False
  halted _ _ _ _ _ := True

theorem rebinding_basic : (rebinding m).Basic where
  advance_refl _ := trivial
  advance_append _ _ := trivial
  site_later _ _ := trivial
  halted_append _ _ := trivial
  fault _ _ := trivial
  tooDeep _ := trivial
  text hw hv := by rw [Likeness.known_eq hv, hw.store, hw.store']

theorem bindName_runs (ctx : Context) (c : Scope) {name : Value}
    (hname : Value.Alike (.known m) name name) :
    (rebinding m).BindsAlike [] (Run.bindName ctx c name) (Run.bindName ctx c name) := by
  refine Simulation.bindName_runs (F := Eq) rebinding_basic hname ?_ ?_ ?_
  · rintro w i _ hw rfl
    exact hw.bindings i
  · rintro w i _ f g a - hw rfl hfg
    refine ⟨⟨hw.store, hw.store', hw.serials, ?_, ?_, fun id => ?_⟩, trivial⟩
    · simpa [Pair.updated] using hw.size
    · simpa [Pair.updated] using hw.size'
    · simp only [Pair.updated, Machine.bindings_modify, hw.size, hw.size']
      split
      · exact (hw.bindings i).update hfg a
      · exact hw.bindings id
  · cases c with
    | top => exact .top
    | absent => exact .absent
    | frame i c => exact .frame _ _ rfl

theorem Rebound.closed {w : Pair} (hw : Rebound m w) (hm : m.Closed) :
    m.Precedes w.first ∧ w.first.Closed := by
  have hm' : m.Precedes w.first := by
    refine ⟨Nat.le_of_eq hw.serials.symm, Nat.le_of_eq hw.size.symm, Nat.le_of_eq ?_⟩
    rw [hw.store]
  refine ⟨hm', fun {n v} hv => ?_, fun {n k t} ht => ?_, fun {id a v} hv => ?_⟩
  · rw [hw.store] at hv
    exact (hm.held hv).mono hm'
  · rw [hw.store] at ht
    exact (hm.child ht).mono hm'
  · obtain ⟨_, -, halike⟩ := (hw.bindings id).mem_entries hv
    exact (Machine.Knows.ofAlike halike).mono hm'

/-- Patterns that mention what was given out. -/
theorem patterns : (rebinding m).Patterns fun t => m.Knows (.trace t) :=
  rebinding_basic.patterns id (fun ht hu => ht.refers (.child hu))
    fun ht => (ht.refers (.held rfl)).alike

theorem matchBind (ctx : Context) (c : Scope) {pattern : Trace}
    (hpattern : m.Knows (.trace pattern)) (hv : m.Knows (.value v)) :
    Closes m (Run.matchBind ctx c (.trace pattern) v) fun _ _ => True := by
  intro hm a m' hx
  have hruns := Simulation.bindPattern_runs rebinding_basic patterns (m.store.outline pattern)
    (hm.outline hpattern)
    (fun name hmem => bindName_runs ctx c (patterns.names _ (hm.outline hpattern) name hmem))
    (w := ⟨m, m⟩) hv.alike
  have hends := hruns ⟨rfl, rfl, rfl, rfl, rfl, hm.frameAlike⟩ fun _ _ => trivial
  have hrun : (m.store.outline pattern).bindPattern ctx c v m = .ok a m' := hx
  simp only [Watched.run_watch, hrun] at hends
  obtain ⟨hm', hclosed⟩ := hends.2.1.closed hm
  exact ⟨hm', hclosed, trivial⟩

theorem lookup {ctx : Context} (htop : ctx.topLevel = .standard) (c : Scope) {name : Value}
    (hname : m.Knows (.value name)) :
    Closes m (Run.lookup ctx c name) fun m' v => m'.Knows (.value v) := by
  refine .withMachine fun hm => .ofExcept fun v hv => ?_
  have hframe {i j : FrameId} (h : i = j) :
      FrameAlike (.known m) (m.bindings i) (m.bindings j) := by
    subst h
    exact hm.frameAlike i
  have hscopes : ScopesAlike Eq c c := by
    clear hv
    induction c with
    | top => exact .top
    | absent => exact .absent
    | frame _ _ ih => exact .frame rfl ih
  rw [htop] at hv
  exact .ofAlike ((Scope.find_agree hframe
    (TopLevel.resolve_standard_agree (fun _ _ => trivial) hname.alike) hscopes).self_ok hv)

/-! ## Values -/

/-- An operation on known values gives a known one. -/
theorem computed {x : Except Fault Value} (h : Agree (.known m) (Value.Alike (.known m)) x x) :
    Closes m (Run.ofExcept x >>= Run.enroll) fun m' v => m'.Knows (.value v) :=
  .bind (.ofExcept fun _ hv => .ofAlike (h.self_ok hv)) fun _ _ _ hv => enroll hv

theorem sample (ctx : Context) (d : Distribution) (hvs : ∀ v ∈ vs, m.Knows (.value v)) :
    Closes m (d.sample ctx vs) fun m' v => m'.Knows (.value v) := by
  cases d with
  | flip =>
    rcases vs with _ | ⟨p, _ | ⟨_, _⟩⟩
    · exact .raise _
    · exact .bind (draw ctx) fun m₁ u _ _ => .bind (P := fun _ _ => True)
        (.ofExcept fun _ _ => trivial) fun m₂ b _ _ => .pure (.bool b)
    · exact .raise _
  | uniform =>
    rcases vs with _ | ⟨low, _ | ⟨high, _ | ⟨_, _⟩⟩⟩
    · exact .raise _
    · exact .raise _
    · rw [List.forall_mem_cons, List.forall_mem_singleton] at hvs
      obtain ⟨hlow, hhigh⟩ := hvs
      refine .bind (P := fun m' width => m'.Knows (.value width)) ?_ fun m₁ width hm₁ hwidth => ?_
      · exact .ofExcept fun _ h => .ofAlike ((hhigh.alike.subtract hlow.alike).self_ok h)
      refine .bind (draw ctx) fun m₂ u hm₂ _ => computed ?_
      have hlow := (hlow.mono hm₁).mono hm₂
      exact ((hwidth.mono hm₂).alike.multiply (.float u)).bind fun _ _ h => hlow.alike.add h
    · exact .raise _
  | gaussian =>
    rcases vs with _ | ⟨mean, _ | ⟨deviation, _ | ⟨_, _⟩⟩⟩
    · exact .raise _
    · exact .raise _
    · rw [List.forall_mem_cons, List.forall_mem_singleton] at hvs
      refine .bind (deviate ctx) fun m₁ z hm₁ _ => computed ?_
      have hmean := hvs.1.mono hm₁
      have hdeviation := hvs.2.mono hm₁
      exact ((Value.Alike.float z).multiply hdeviation.alike).bind fun _ _ h => hmean.alike.add h
    · exact .raise _

theorem callBuiltin (b : Builtin) (hvs : ∀ v ∈ vs, m.Knows (.value v)) :
    Closes m (b.call vs) fun m' v => m'.Knows (.value v) := by
  have halike := Machine.Knows.itemsAlike hvs
  by_cases hb : b = .note
  · subst hb
    refine .quiet fun hx => ?_
    cases hx
    have hlast : m.Knows (.value (vs.getLast?.getD .null)) := .ofAlike (halike.getLast?_getD .null)
    exact ⟨⟨rfl, rfl⟩, Nat.le_refl _, hlast.mono ⟨Nat.le_refl _, Nat.le_refl _, Nat.le_refl _⟩⟩
  · rw [Builtin.call_eq hb]
    refine .withStore fun _ => computed ?_
    cases hcompares : b.compares with
    | false => exact Builtin.compute_agree _ _ hcompares halike
    | true =>
      refine Builtin.compute_compares hcompares halike (fun hv hx => ?_) fun r _ _ _ _ hv hx => ?_
      · rw [Likeness.known_eq hv, Likeness.known_eq hx]
      · rw [Likeness.known_eq hv, Likeness.known_eq hx]

/-! ## Overlays -/

theorem record (output : Option Trace) (hv : m.Knows (.value v)) :
    Closes m (Evaluator.record output v) fun _ _ => True := by
  cases output with
  | none => exact .pure trivial
  | some t =>
    refine .edit fun hm {_ s} hput => ?_
    obtain ⟨hm', hclosed⟩ := hm.put hv hput
    exact ⟨hm', hclosed, trivial⟩

/-- A value is recorded and given. -/
theorem recorded (output : Option Trace) (hv : m.Knows (.value v)) (score : Float) :
    Closes m (Evaluator.record output v >>= fun _ => Pure.pure (v, score)) GivesValue :=
  .bind (record output hv) fun _ _ hm' _ => .pure (hv.mono hm')

theorem below (a : Address) (ho : Sited m o) : Closes m (Run.edit (o.below a)) Sited := by
  refine .edit fun hm {_ s} hx => ?_
  have hfound {overlay : Option Trace} (h : ∀ t, overlay = some t → m.Knows (.trace t)) {u : Trace}
      (hu : overlay.bind (m.store.find? · a) = some u) : m.Knows (.trace u) := by
    obtain ⟨t, ht, hu⟩ := Option.bind_eq_some_iff.mp hu
    exact hm.find? (h t ht) hu
  have hintervene {u : Trace} := hfound (fun _ h => ho _ (.inl h)) (u := u)
  have htarget {u : Trace} := hfound (fun _ h => ho _ (.inr (.inl h))) (u := u)
  cases houtput : o.output with
  | none =>
    rw [Overlays.below_absent houtput] at hx
    cases hx
    refine ⟨.refl m, hm, fun u hu => ?_⟩
    rcases hu with hu | hu | hu
    · exact hintervene hu
    · exact htarget hu
    · cases hu
  | some t =>
    cases hreach : t.reach a m.store with
    | error f s =>
      rw [Overlays.below_fails houtput hreach] at hx
      cases hx
    | ok x s =>
      rw [Overlays.below_reach houtput hreach] at hx
      cases hx
      obtain ⟨hm', hclosed, hknows⟩ := hm.reach (ho _ (.inr (.inr houtput))) hreach
      refine ⟨hm', hclosed, fun u hu => ?_⟩
      rcases hu with hu | hu | hu
      · exact (hintervene hu).mono hm'
      · exact (htarget hu).mono hm'
      · cases hu
        exact hknows

theorem resolveTag (hv : m.Knows (.value v)) : Closes m (Run.edit v.resolveTag) Sited := by
  cases hquasi : v.quasiAddress with
  | error f =>
    rw [Value.edit_resolveTag_error hquasi]
    exact .raise f
  | ok r =>
    obtain ⟨⟨_, _, -, -, htag⟩, -⟩ := hv.alike.quasiAddress_agree.self_ok hquasi
    rw [Value.resolveTag_ok hquasi]
    exact below r.2 fun _ ht => htag.refers (.overlay ht)

theorem overlaid (hm : m.Closed) {overlay : Option Trace}
    (h : ∀ t, overlay = some t → m.Knows (.trace t)) (a : Address)
    (hv : overlay.bind (m.store.valueAt? · a) = some v) : m.Knows (.value v) := by
  obtain ⟨t, ht, hv⟩ := Option.bind_eq_some_iff.mp hv
  exact hm.valueAt? (h t ht) hv

theorem warnMismatch (ctx : Context) (target intervention proc : Value) (callee : String) :
    Closes m (Evaluator.warnMismatch ctx target intervention proc callee) fun _ _ => True := by
  unfold Evaluator.warnMismatch
  split
  · exact .bind (compose _) fun _ _ _ _ => .withStore fun _ => notify _
  · exact .pure trivial

theorem settle (ctx : Context) (f : Value) (ho : Sited m o) (hv : m.Knows (.value v))
    (score : Float) : Closes m (Evaluator.settle ctx f o v score) GivesValue := by
  refine .withStore fun hm => ?_
  cases hu : Evaluator.overlayValue? m.store o.target with
  | none =>
    cases hx : Evaluator.overlayValue? m.store o.intervene with
    | none => exact recorded _ hv score
    | some x =>
      have hknows : m.Knows (.value x) := overlaid hm (fun _ h => ho _ (.inl h)) [] hx
      exact recorded _ hknows score
  | some u =>
    have hknows : m.Knows (.value u) := overlaid hm (fun _ h => ho _ (.inr (.inl h))) [] hu
    cases Evaluator.overlayValue? m.store o.intervene with
    | none => exact recorded _ hknows score
    | some x =>
      dsimp only
      split
      · exact .bind (warnMismatch ctx _ _ _ _) fun _ _ hm₁ _ => recorded _ (hknows.mono hm₁) _
      · exact recorded _ hknows _

theorem applyRandom (ctx : Context) (d : Distribution) (hvs : ∀ v ∈ vs, m.Knows (.value v))
    (ho : Sited m o) : Closes m (Evaluator.applyRandom ctx d vs o) GivesValue := by
  refine .withStore fun hm => ?_
  cases hu : Evaluator.overlayValue? m.store o.target with
  | some u =>
    have hknows : m.Knows (.value u) := overlaid hm (fun _ h => ho _ (.inr (.inl h))) [] hu
    have hscored : Closes m (do
        let score ← Run.ofExcept (d.logDensity m.store (u :: vs))
        Evaluator.record o.output u
        return (u, score)) GivesValue :=
      .bind (P := fun _ _ => True) (.ofExcept fun _ _ => trivial) fun _ score hm₁ _ =>
        recorded _ (hknows.mono hm₁) score
    cases Evaluator.overlayValue? m.store o.intervene with
    | none => exact hscored
    | some x =>
      dsimp only
      split
      · exact hscored
      · exact .bind (warnMismatch ctx _ _ _ _) fun _ _ hm₁ _ => recorded _ (hknows.mono hm₁) _
  | none =>
    cases hx : Evaluator.overlayValue? m.store o.intervene with
    | some x =>
      have hknows : m.Knows (.value x) := overlaid hm (fun _ h => ho _ (.inl h)) [] hx
      exact recorded _ hknows _
    | none => exact .bind (sample ctx d hvs) fun _ _ _ hv => recorded _ hv _

/-! ## Recursion -/

/-- Recursive calls that keep machines closed. -/
structure KeepsClosed (calls : Evaluator.Calls) : Prop where
  walk : ∀ {m : Machine} {e : Trace} {c : Scope} {a : Address} {o : Overlays Trace},
    m.Knows (.trace e) → m.Knows (.scope c) → Sited m o →
    Closes m (calls.walk e c a o) GivesValue
  apply : ∀ {m : Machine} {f v : Value} {o : Overlays Trace},
    m.Knows (.value f) → m.Knows (.value v) → Sited m o →
    Closes m (calls.apply f v o) GivesValue

section Recursion

variable {ctx : Context} {calls : Evaluator.Calls} {e : Trace} {f : Value}

theorem part (k : Key) (he : m.Knows (.trace e)) :
    Closes m (Evaluator.part e k) fun m' u => m'.Knows (.trace u) := by
  refine .withStore fun hm => .ofExcept fun u hu => ?_
  unfold Store.getChild at hu
  rw [Value.key?_toValue, Option.bind_some] at hu
  split at hu
  · rename_i x hx
    cases hu
    exact hm.hereditary he (.child (mem_of_childAt? hx))
  · cases hu

variable (hcalls : KeepsClosed calls)
include hcalls

theorem mapItems (hf : m.Knows (.value f)) (ho : Sited m o) (i : Nat) (total : Float)
    (hvs : ∀ v ∈ vs, m.Knows (.value v)) :
    Closes m (Evaluator.mapItems calls f o i total vs)
      fun m' r => ∀ v ∈ r.1, m'.Knows (.value v) := by
  induction vs generalizing m i total with
  | nil => exact .pure nofun
  | cons v vs ih =>
    rw [List.forall_mem_cons] at hvs
    refine .bind (below [.index i] ho) fun m₁ below hm₁ hbelow => ?_
    have hinput : m₁.Knows (.value (.list [v])) := by
      refine .list fun u hu => ?_
      cases List.mem_singleton.mp hu
      exact hvs.1.mono hm₁
    refine .bind (hcalls.apply (hf.mono hm₁) hinput hbelow) fun m₂ r hm₂ hr => ?_
    refine .bind (P := fun _ _ => True) (.ofExcept fun _ _ => trivial) fun m₃ sum hm₃ _ => ?_
    have hm := (hm₁.trans hm₂).trans hm₃
    refine .bind (ih (hf.mono hm) (ho.mono hm) (i + 1) sum fun u hu => (hvs.2 u hu).mono hm) ?_
    intro m₄ q hm₄ hq
    exact .pure (List.forall_mem_cons.mpr ⟨(Machine.Knows.mono hr hm₃).mono hm₄, hq⟩)

theorem applySpecial (s : Special) (hvs : ∀ v ∈ vs, m.Knows (.value v)) (ho : Sited m o) :
    Closes m (Evaluator.applySpecial ctx calls s vs o) GivesValue := by
  cases s with
  | apply =>
    rcases vs with _ | ⟨f, _ | ⟨v, _ | ⟨_, _⟩⟩⟩
    · exact .raise _
    · exact .raise _
    · rw [List.forall_mem_cons, List.forall_mem_singleton] at hvs
      exact hcalls.apply hvs.1 hvs.2 ho
    · exact .raise _
  | map =>
    rcases vs with _ | ⟨f, _ | ⟨v, _ | ⟨_, _⟩⟩⟩
    · exact .raise _
    · exact .raise _
    · rw [List.forall_mem_cons, List.forall_mem_singleton] at hvs
      cases hitems : v.items? with
      | none =>
        simp only [Evaluator.applySpecial, hitems]
        exact .raise _
      | some items =>
        simp only [Evaluator.applySpecial, hitems]
        refine .bind (mapItems hcalls hvs.1 ho 0 0.0 (hvs.2.items hitems)) ?_
        intro m₁ r hm₁ hr
        have hresult : m₁.Knows (.value (v.sameKind r.1)) :=
          .ofAlike ((hvs.2.mono hm₁).alike.sameKind (Machine.Knows.itemsAlike hr))
        exact .bind (record _ hresult) fun m₂ _ hm₂ _ => .pure (hresult.mono hm₂)
    · exact .raise _
  | random d => exact .bind (applyRandom ctx d hvs ho) fun m₁ r _ hr => .pure hr
  | scored =>
    rcases vs with _ | ⟨v, _ | ⟨_, _⟩⟩
    · exact .raise _
    · exact .raise _
    · exact .pure (hvs v List.mem_cons_self)

theorem evalFrom (he : m.Knows (.trace e)) (hc : m.Knows (.scope c)) (ho : Sited m o) :
    Closes m (Evaluator.evalFrom calls e c o) GivesValue :=
  .withStore fun _ => .bind (P := fun _ _ => True) (.ofExcept fun _ _ => trivial)
    fun _ _ hm₁ _ => hcalls.walk (he.mono hm₁) (hc.mono hm₁) (ho.mono hm₁)

theorem applyClosure (he : m.Knows (.trace e)) (hc : m.Knows (.scope c)) (hv : m.Knows (.value v))
    (ho : Sited m o) : Closes m (Evaluator.applyClosure ctx calls e c v o) GivesValue := by
  refine .bind (newFrame hc) fun m₁ frame hm₁ hframe => ?_
  refine .bind (part _ (he.mono hm₁)) fun m₂ pattern hm₂ hpattern => ?_
  refine .bind (matchBind ctx frame hpattern ((hv.mono hm₁).mono hm₂)) fun m₃ _ hm₃ _ => ?_
  have hm := (hm₁.trans hm₂).trans hm₃
  refine .bind (part _ (he.mono hm)) fun m₄ body hm₄ hbody => ?_
  exact evalFrom hcalls hbody (hframe.mono ((hm₂.trans hm₃).trans hm₄)) (ho.mono (hm.trans hm₄))

theorem applyWith (hf : m.Knows (.value f)) (hv : m.Knows (.value v)) (ho : Sited m o) :
    Closes m (Evaluator.applyWith ctx calls f v o) GivesValue := by
  refine .bind (P := fun m' items => ∀ u ∈ items, m'.Knows (.value u)) ?_ ?_
  · refine .ofExcept fun items h => ?_
    unfold Evaluator.checkInputs at h
    split at h
    · rename_i hitems
      cases h
      exact hv.items hitems
    · cases h
  · intro m₁ items hm₁ hitems
    refine .withStore fun _ => .bind (P := fun _ _ => True) (.ofExcept fun _ _ => trivial) ?_
    intro m₂ _ hm₂ _
    have hm := hm₁.trans hm₂
    have hf := hf.mono hm
    have ho := ho.mono hm
    have hitems : ∀ u ∈ items, m₂.Knows (.value u) := fun u hu => (hitems u hu).mono hm₂
    cases f with
    | special s => exact applySpecial hcalls s hitems ho
    | closure serial source c name =>
      refine .bind (applyClosure hcalls (hf.refers (.source _ _ _ _)) (hf.refers (.scope _ _ _ _))
        (hv.mono hm) ho) fun m₃ r hm₃ hr => ?_
      exact .bind (settle ctx _ (ho.mono hm₃) hr _) fun m₄ q _ hq => .pure hq
    | builtin b =>
      refine .bind (callBuiltin b hitems) fun m₃ u hm₃ hu => ?_
      exact .bind (settle ctx _ (ho.mono hm₃) hu _) fun m₄ q _ hq => .pure hq
    | _ => exact reject _ _ _

/-! ## Forms -/

theorem walkParts (he : m.Knows (.trace e)) (hc : m.Knows (.scope c)) (ho : Sited m o)
    (left i : Nat) (total : Float) :
    Closes m (Evaluator.walkParts calls e c a o left i total)
      fun m' r => ∀ v ∈ r.1, m'.Knows (.value v) := by
  induction left generalizing m i total with
  | zero => exact .pure nofun
  | succ left ih =>
    refine .bind (part _ he) fun m₁ sub hm₁ hsub => ?_
    refine .bind (hcalls.walk hsub (hc.mono hm₁) (ho.mono hm₁)) fun m₂ r hm₂ hr => ?_
    have hm := hm₁.trans hm₂
    refine .bind (ih (he.mono hm) (hc.mono hm) (ho.mono hm) (i + 1) _) fun m₃ q hm₃ hq => ?_
    exact .pure (List.forall_mem_cons.mpr ⟨Machine.Knows.mono hr hm₃, hq⟩)

theorem walkApplication (he : m.Knows (.trace e)) (hc : m.Knows (.scope c)) (ho : Sited m o) :
    Closes m (Evaluator.walkApplication calls e c a o) GivesValue := by
  refine .withStore fun _ => .bind (walkParts hcalls he hc ho _ 0 0.0) fun m₁ r hm₁ hr => ?_
  refine .bind (part _ (he.mono hm₁)) fun m₂ operator hm₂ _ => .withStore fun _ => ?_
  refine .bind (P := fun _ _ => True) (.ofExcept fun _ _ => trivial) fun m₃ key hm₃ _ => ?_
  refine .bind (compose _) fun m₃' _ hm₃' _ => ?_
  have hm := (hm₂.trans hm₃).trans hm₃'
  refine .bind (below _ (ho.mono (hm₁.trans hm))) fun m₄ below hm₄ hbelow => ?_
  have hall : ∀ v ∈ r.1, m₄.Knows (.value v) := fun v hv => (hr v hv).mono (hm.trans hm₄)
  have hhead : m₄.Knows (.value (r.1.headD .null)) := by
    cases hvs : r.1 with
    | nil => exact .ofAlike .null
    | cons v vs => exact hall v (hvs ▸ List.mem_cons_self)
  have htail : m₄.Knows (.value (.list r.1.tail)) :=
    .list fun v hv => hall v (List.mem_of_mem_tail hv)
  refine .bind (hcalls.apply hhead htail hbelow) fun m₅ q hm₅ hq => ?_
  exact .bind (P := fun _ _ => True) (.ofExcept fun _ _ => trivial) fun m₆ _ hm₆ _ =>
    .pure (Machine.Knows.mono hq hm₆)

theorem walkConditional (he : m.Knows (.trace e)) (hc : m.Knows (.scope c)) (ho : Sited m o) :
    Closes m (Evaluator.walkConditional calls e c a o) GivesValue := by
  refine .bind (part _ he) fun m₁ predicate hm₁ hpredicate => ?_
  refine .bind (hcalls.walk hpredicate (hc.mono hm₁) (ho.mono hm₁)) fun m₂ r hm₂ _ => ?_
  refine .bind (compose _) fun m₂' _ hm₂' _ => ?_
  have hm := (hm₁.trans hm₂).trans hm₂'
  refine .bind (part _ (he.mono hm)) fun m₃ branch hm₃ hbranch => ?_
  refine .bind (hcalls.walk hbranch (hc.mono (hm.trans hm₃)) (ho.mono (hm.trans hm₃))) ?_
  exact fun m₄ q _ hq => .pure hq

theorem walkBlock (he : m.Knows (.trace e)) (hc : m.Knows (.scope c)) (ho : Sited m o) :
    Closes m (Evaluator.walkBlock calls e c a o) GivesValue := by
  refine .bind (newFrame hc) fun m₁ frame hm₁ hframe => .withStore fun _ => ?_
  refine .bind (walkParts hcalls (he.mono hm₁) hframe (ho.mono hm₁) _ 0 0.0) fun m₂ r _ hr => ?_
  refine .pure ?_
  show m₂.Knows (.value (r.1.getLast?.getD (.trace .empty)))
  cases hlast : r.1.getLast? with
  | none => exact .ofAlike (.trace (L := .known m₂) .empty)
  | some v => exact hr v (List.mem_of_getLast? hlast)

theorem walkDefinition (he : m.Knows (.trace e)) (hc : m.Knows (.scope c)) (ho : Sited m o) :
    Closes m (Evaluator.walkDefinition ctx calls e c a o) GivesValue := by
  refine .bind (part _ he) fun m₁ pattern hm₁ hpattern => .withStore fun _ => ?_
  refine .bind (P := fun _ _ => True) (.ofExcept fun _ _ => trivial) fun m₂ key hm₂ _ => ?_
  have hm := hm₁.trans hm₂
  refine .bind (part _ (he.mono hm)) fun m₃ rhs hm₃ hrhs => ?_
  have hm := hm.trans hm₃
  refine .bind (hcalls.walk hrhs (hc.mono hm) (ho.mono hm)) fun m₄ r hm₄ hr => ?_
  have hpattern := hpattern.mono ((hm₂.trans hm₃).trans hm₄)
  refine .bind (matchBind ctx c hpattern hr) fun m₅ _ hm₅ _ => ?_
  have hr : m₅.Knows (.value r.1) := Machine.Knows.mono hr hm₅
  have ho := ho.mono ((hm.trans hm₄).trans hm₅)
  -- The value is also recorded below the output, unless it is the address of a tag.
  cases houtput : o.output with
  | none => exact .pure hr
  | some t =>
    dsimp only
    split
    · exact .pure hr
    · refine .bind (P := fun _ _ => True) (.edit fun hm {_ s} hedit => ?_) fun _ _ hm₆ _ =>
        .pure (hr.mono hm₆)
      cases hreach : t.reach (a ++ [key]) m₅.store with
      | error f s' =>
        rw [Trace.reach_put_error hreach] at hedit
        cases hedit
      | ok u s' =>
        rw [Trace.reach_put hreach] at hedit
        obtain ⟨hm₆, hclosed, -⟩ := hm.reach (ho _ (.inr (.inr houtput))) hreach
        obtain ⟨hm₇, hclosed⟩ := hclosed.put (hr.mono hm₆) hedit
        exact ⟨hm₆.trans hm₇, hclosed, trivial⟩

theorem walkWithAddress (he : m.Knows (.trace e)) (hc : m.Knows (.scope c)) (ho : Sited m o) :
    Closes m (Evaluator.walkWithAddress calls e c a o) GivesValue := by
  refine .bind (part _ he) fun m₁ tag hm₁ htag => ?_
  refine .bind (hcalls.walk htag (hc.mono hm₁) (ho.mono hm₁)) fun m₂ r hm₂ hr => ?_
  refine .bind (resolveTag hr) fun m₃ resolved hm₃ hresolved => ?_
  have hm := (hm₁.trans hm₂).trans hm₃
  refine .bind (part _ (he.mono hm)) fun m₄ body hm₄ hbody => ?_
  refine .bind (evalFrom hcalls hbody (hc.mono (hm.trans hm₄)) (hresolved.mono hm₄)) ?_
  exact fun m₅ q _ hq => .pure hq

omit hcalls in
theorem getAt (hm : m.Closed) (he : m.Knows (.trace e)) {address : Value}
    (hv : m.store.getAt e address = .ok v) : m.Knows (.value v) := by
  unfold Store.getAt at hv
  split at hv
  · rename_i x hx
    cases hv
    obtain ⟨t, ht, hvalue⟩ := Option.bind_eq_some_iff.mp hx
    obtain ⟨a, -, hfind⟩ := Option.bind_eq_some_iff.mp ht
    exact hm.hereditary (hm.find? he hfind) (.held hvalue)
  · cases hv

theorem walkKind (htop : ctx.topLevel = .standard) (kind : Expression.Kind)
    (he : m.Knows (.trace e)) (hc : m.Knows (.scope c)) (ho : Sited m o) :
    Closes m (Evaluator.walkKind ctx calls kind e c a o) GivesValue := by
  cases kind with
  | application => exact walkApplication hcalls he hc ho
  | reference =>
    refine .withStore fun hm => .bind (P := fun m' name => m'.Knows (.value name))
      (.ofExcept fun name hname => getAt hm he hname) ?_
    exact fun m₁ name _ hname => .bind (lookup htop c hname) fun m₂ v _ hv => .pure hv
  | literal =>
    exact .withStore fun hm => .bind (.ofExcept fun v hv => getAt hm he hv) fun m₁ v _ hv => .pure hv
  | gen =>
    refine .withStore fun hm => .bind (compose _) fun m₁ _ hm₁ _ => ?_
    refine .bind fresh fun m₂ serial hm₂ hserial => .pure (.intro hserial fun y hy => ?_)
    have hm' := hm₁.trans hm₂
    have hname : m.Knows (.value ((m.store.valueAt? e [Pattern.nameKey]).getD .null)) := by
      cases h : m.store.valueAt? e [Pattern.nameKey] with
      | none => exact .ofAlike .null
      | some name => exact hm.valueAt? he h
    cases hy with
    | source _ _ _ _ => exact he.mono hm'
    | scope _ _ _ _ => exact hc.mono hm'
    | name _ _ _ _ => exact hname.mono hm'
    | item hitems _ => cases hitems
  | conditional => exact walkConditional hcalls he hc ho
  | block => exact walkBlock hcalls he hc ho
  | definition => exact walkDefinition hcalls he hc ho
  | this =>
    refine .bind (P := fun m' v => m'.Knows (.value v)) ?_ fun m₁ v _ hv => .pure hv
    refine .bind fresh fun m₁ serial hm₁ hserial => .pure (.intro hserial fun y hy => ?_)
    cases hy with
    | overlay ht => exact (ho _ ht).mono hm₁
    | item hitems _ => cases hitems
  | withAddress => exact walkWithAddress hcalls he hc ho

theorem walkWith (htop : ctx.topLevel = .standard) (he : m.Knows (.trace e))
    (hc : m.Knows (.scope c)) (ho : Sited m o) :
    Closes m (Evaluator.walkWith ctx calls e c a o) GivesValue := by
  refine .withStore fun _ => ?_
  split
  · exact reject _ _ _
  · refine .bind (walkKind hcalls htop _ he hc ho) fun m₁ r hm₁ hr => .withStore fun hm => ?_
    have ho := ho.mono hm₁
    cases hv : o.intervene.bind (m₁.store.valueAt? · a) with
    | none => exact .pure hr
    | some v => exact .pure (overlaid hm (fun _ h => ho _ (.inl h)) a hv)

end Recursion

/-! ## Whole runs -/

theorem keepsClosed {ctx : Context} (htop : ctx.topLevel = .standard) (depth : Nat) :
    KeepsClosed (Evaluator.callsAt ctx depth) := by
  have htooDeep {α : Type} {m : Machine} {P : Machine → α → Prop} :
      Closes m (throw .tooDeep) P := by
    intro hm a m' hx
    cases hx
  induction depth with
  | zero =>
    constructor
    · intro m e c a o _ _ _
      simp only [Evaluator.callsAt, Evaluator.walkAt]
      exact htooDeep
    · intro m f v o _ _ _
      simp only [Evaluator.callsAt, Evaluator.applyAt]
      exact htooDeep
  | succ depth ih =>
    constructor
    · intro m e c a o he hc ho
      simp only [Evaluator.callsAt, Evaluator.walkAt]
      exact walkWith ih htop he hc ho
    · intro m f v o hf hv ho
      simp only [Evaluator.callsAt, Evaluator.applyAt]
      exact applyWith ih hf hv ho

/-- An evaluation without overlays keeps a machine closed, and gives a value that mentions
what was given out. -/
theorem eval {ctx : Context} (htop : ctx.topLevel = .standard) {e : Trace}
    (he : m.Knows (.trace e)) (hc : m.Knows (.scope c)) :
    Closes m (Evaluator.eval ctx (.trace e) c none none .null) GivesValue := by
  refine .withStore fun _ => .bind (P := Sited) (.ofExcept fun o ho => ?_) fun _ _ hm' ho =>
    (keepsClosed htop Evaluator.depthLimit).walk (he.mono hm') (hc.mono hm') ho
  cases ho
  rintro t (h | h | h) <;> cases h

end Integrity
end ProbTrace
