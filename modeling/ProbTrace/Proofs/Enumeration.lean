import Mathlib.Data.List.Nodup
import ProbTrace.Proofs.Editing
import ProbTrace.Proofs.Unfolding

/-!
# Enumerating a trace and making it again

The entries of a trace without cycles are its values with their addresses, each once.  A trace that
is made of entries holds the latest of the values listed for an address, and has no nodes but those
on the way to a listed address.  One step sets one value; what a whole list makes follows by
induction on the list.

So a trace made of the entries of another one has the same values always, and the same nodes if no
node without children is without a value.
-/

namespace ProbTrace

/-! ## The entries of a tree -/

theorem mem_childEntries {cs : List (Key × Trace)} {a : Address} {v : Value} :
    (a, v) ∈ childEntries cs ↔ ∃ k u b, (k, u) ∈ cs ∧ (b, v) ∈ u.entries ∧ a = k :: b := by
  induction cs with
  | nil => simp [childEntries]
  | cons c cs ih =>
    obtain ⟨j, t⟩ := c
    rw [childEntries, List.mem_append, ih]
    constructor
    · rintro (h | ⟨k, u, b, hu, hb, rfl⟩)
      · obtain ⟨⟨b, w⟩, hb, heq⟩ := List.mem_map.mp h
        cases heq
        exact ⟨j, t, b, List.mem_cons_self, hb, rfl⟩
      · exact ⟨k, u, b, List.mem_cons_of_mem _ hu, hb, rfl⟩
    · rintro ⟨k, u, b, hu, hb, rfl⟩
      rcases List.mem_cons.mp hu with heq | hu
      · cases heq
        exact .inl (List.mem_map.mpr ⟨(b, v), hb, rfl⟩)
      · exact .inr ⟨k, u, b, hu, hb, rfl⟩

/-- Below different keys are different addresses. -/
theorem nodup_childEntries {cs : List (Key × Trace)} (hkeys : (cs.map Prod.fst).Nodup)
    (h : ∀ c ∈ cs, (c.2.entries.map Prod.fst).Nodup) :
    ((childEntries cs).map Prod.fst).Nodup := by
  induction cs with
  | nil => exact List.nodup_nil
  | cons c cs ih =>
    obtain ⟨k, t⟩ := c
    obtain ⟨hnew, hkeys⟩ := List.nodup_cons.mp hkeys
    obtain ⟨hfirst, hrest⟩ := List.forall_mem_cons.mp h
    have hbelow : (t.entries.map fun e => (k :: e.1, e.2)).map Prod.fst =
        (t.entries.map Prod.fst).map (k :: ·) := by
      rw [List.map_map, List.map_map]
      rfl
    rw [childEntries, List.map_append, hbelow, List.nodup_append]
    refine ⟨hfirst.map List.cons_injective, ih hkeys hrest, ?_⟩
    rintro _ ha _ hb rfl
    obtain ⟨b, -, rfl⟩ := List.mem_map.mp ha
    obtain ⟨⟨_, v⟩, hv, hab⟩ := List.mem_map.mp hb
    obtain ⟨j, u, c, hu, -, rfl⟩ := mem_childEntries.mp hv
    cases hab
    exact hnew (List.mem_map.mpr ⟨(k, u), hu, rfl⟩)

namespace Trace

/-- No node of a trace has two children under one key. -/
def Keyed (s : Store) (t : Trace) : Prop :=
  ∀ {a u}, s.find? t a = some u → ((s.children u).map Prod.fst).Nodup

variable {s : Store} {t u : Trace} {k : Key} {a : Address} {v : Value}

theorem Keyed.child (h : t.Keyed s) (hu : (k, u) ∈ s.children t) : u.Keyed s := by
  intro a x hx
  have hchild : s.child? t k = some u := childAt?_of_mem (h (a := []) rfl) hu
  refine h (a := k :: a) ?_
  rw [Store.find?, hchild]
  exact hx

/-- Traces that look the same have the same keys. -/
theorem Keyed.of_seen (h : t.Keyed s) (hseen : ∀ a, s.seenAt? u a = s.seenAt? t a) :
    u.Keyed s := by
  intro a x hx
  have hx' : s.seenAt? t a = some (s.value? x, (s.children x).map Prod.fst) := by
    rw [← hseen, Store.seenAt?, hx, Option.map_some]
  obtain ⟨y, hy, heq⟩ := Option.map_eq_some_iff.mp hx'
  have hkeys : (s.children y).map Prod.fst = (s.children x).map Prod.fst := congrArg Prod.snd heq
  rw [← hkeys]
  exact h hy

/-- The entries of a tree are its values. -/
theorem Solid.mem_entries (h : t.Solid) (hkeys : t.Keyed s) :
    (a, v) ∈ t.entries ↔ s.valueAt? t a = some v := by
  induction h generalizing a with
  | @tree w cs hcs ih =>
    have hentries : (a, v) ∈ (Trace.tree w cs).entries ↔
        a = [] ∧ w = some v ∨ (a, v) ∈ childEntries cs := by
      cases w with
      | none => simp [Trace.entries]
      | some w => simp [Trace.entries, eq_comm]
    rw [hentries, mem_childEntries]
    cases a with
    | nil => simp [Store.valueAt?, Store.find?, Store.value?]
    | cons j b =>
      have hstep : s.valueAt? (.tree w cs) (j :: b) =
          (childAt? cs j).bind fun u => s.valueAt? u b := by
        rw [Store.valueAt?, Store.find?, Store.child?, Store.children]
        cases childAt? cs j <;> rfl
      have hnodup : (cs.map Prod.fst).Nodup := hkeys (a := []) rfl
      rw [hstep, Option.bind_eq_some_iff]
      constructor
      · rintro (⟨hnil, -⟩ | ⟨k, u, c, hu, hc, heq⟩)
        · cases hnil
        · cases heq
          exact ⟨u, childAt?_of_mem hnodup hu, (ih _ hu (hkeys.child hu)).mp hc⟩
      · rintro ⟨u, hu, hv⟩
        have hmem := mem_of_childAt? hu
        exact .inr ⟨j, u, b, hmem, (ih _ hmem (hkeys.child hmem)).mpr hv, rfl⟩

theorem Solid.nodup_entries (h : t.Solid) (hkeys : t.Keyed s) :
    (t.entries.map Prod.fst).Nodup := by
  induction h with
  | @tree w cs hcs ih =>
    have hchildren : ((childEntries cs).map Prod.fst).Nodup := by
      refine nodup_childEntries (hkeys (a := []) rfl) fun c hc => ?_
      exact ih c hc (hkeys.child (k := c.1) hc)
    cases w with
    | none => exact hchildren
    | some w =>
      refine List.nodup_cons.mpr ⟨fun hmem => ?_, hchildren⟩
      obtain ⟨⟨_, x⟩, hx, heq⟩ := List.mem_map.mp hmem
      obtain ⟨k, u, b, -, -, rfl⟩ := mem_childEntries.mp hx
      cases heq

/-- Some node of a tree has no children. -/
theorem Solid.exists_childless (h : t.Solid) (s : Store) : ∃ a v, s.seenAt? t a = some (v, []) := by
  induction h with
  | @tree w cs _ ih =>
    cases cs with
    | nil => exact ⟨[], w, rfl⟩
    | cons c cs =>
      obtain ⟨a, v, ha⟩ := ih c List.mem_cons_self
      have hchild : s.child? (.tree w (c :: cs)) c.1 = some c.2 := by
        rw [Store.child?, Store.children, childAt?_cons, if_pos rfl]
      refine ⟨c.1 :: a, v, ?_⟩
      rw [Store.seenAt?_cons, hchild, Option.bind_some, ha]

namespace Acyclic

/-- The entries of a trace without cycles are its values. -/
theorem mem_entries (h : t.Acyclic s) (hkeys : t.Keyed s) :
    (a, v) ∈ s.entries t ↔ s.valueAt? t a = some v := by
  have hseen := h.unfolds.seen
  rw [Store.entries, h.unfolds.solid.mem_entries (hkeys.of_seen hseen), Store.valueAt?_eq_seenAt?,
    Store.valueAt?_eq_seenAt?, hseen]

theorem nodup_entries (h : t.Acyclic s) (hkeys : t.Keyed s) :
    ((s.entries t).map Prod.fst).Nodup :=
  h.unfolds.solid.nodup_entries (hkeys.of_seen h.unfolds.seen)

/-- Below every node of a trace without cycles is one without children. -/
theorem exists_childless (h : t.Acyclic s) (hu : (s.find? t a).isSome) :
    ∃ b x, a <+: b ∧ s.find? t b = some x ∧ s.children x = [] := by
  rw [← Store.isSome_seenAt?, ← h.unfolds.seen, Store.isSome_seenAt?,
    Option.isSome_iff_exists] at hu
  obtain ⟨o, ho⟩ := hu
  have hsolid : o.Solid := Store.find?_inherits (P := Trace.Solid) Solid.child h.unfolds.solid ho
  obtain ⟨b, w, hb⟩ := hsolid.exists_childless s
  have hleaf : s.seenAt? t (a ++ b) = some (w, []) := by
    rw [← h.unfolds.seen, Store.seenAt?_append, ho, Option.bind_some, hb]
  obtain ⟨x, hx, heq⟩ := Option.map_eq_some_iff.mp hleaf
  refine ⟨a ++ b, x, List.prefix_append _ _, hx, ?_⟩
  exact List.map_eq_nil_iff.mp (congrArg Prod.snd heq)

end Acyclic

end Trace

/-! ## A trace made of entries -/

/-- The latest value that is listed for an address. -/
def latest? (entries : List (Value × Value)) (a : Address) : Option Value :=
  (entries.filter fun e => e.1.address? = some a).getLast?.map Prod.snd

theorem latest?_concat (entries : List (Value × Value)) (e : Value × Value) (a : Address) :
    latest? (entries ++ [e]) a = if e.1.address? = some a then some e.2 else latest? entries a := by
  rw [latest?, latest?, List.filter_append]
  by_cases h : e.1.address? = some a
  · simp [h]
  · simp [h]

theorem mem_of_latest? {entries : List (Value × Value)} {a : Address} {v : Value}
    (h : latest? entries a = some v) : ∃ x, (x, v) ∈ entries ∧ x.address? = some a := by
  obtain ⟨⟨x, w⟩, hlast, rfl⟩ := Option.map_eq_some_iff.mp h
  have hmem := List.mem_filter.mp (List.mem_of_getLast? hlast)
  exact ⟨x, hmem.1, by simpa using hmem.2⟩

theorem isSome_latest? {entries : List (Value × Value)} {e : Value × Value} {a : Address}
    (he : e ∈ entries) (ha : e.1.address? = some a) : (latest? entries a).isSome := by
  have hmem : e ∈ entries.filter fun e => e.1.address? = some a :=
    List.mem_filter.mpr ⟨he, by simpa using ha⟩
  rw [latest?, Option.isSome_map, List.getLast?_isSome]
  exact List.ne_nil_of_mem hmem

namespace Store

/-- A tree that was made of entries. -/
structure Lists (s : Store) (t : Trace) (entries : List (Value × Value)) : Prop where
  editable : t.Editable s
  value : ∀ a, s.valueAt? t a = latest? entries a
  present : ∀ b, (s.find? t b).isSome ↔
    b = [] ∨ ∃ e ∈ entries, ∃ a, e.1.address? = some a ∧ b <+: a

/-- A new node lists nothing. -/
theorem lists_alloc (s : Store) : (s.alloc {}).1.Lists (.cell s.cells.size) [] := by
  have hcell : (s.alloc {}).1.cell s.cells.size = {} := by
    rw [cell_alloc, if_pos rfl]
  have hfind : ∀ {a u}, (s.alloc {}).1.find? (.cell s.cells.size) a = some u →
      a = [] ∧ u = .cell s.cells.size := by
    intro a u hu
    cases a with
    | nil => exact ⟨rfl, (Option.some.inj hu).symm⟩
    | cons k a => simp [find?, child?, children, hcell] at hu
  constructor
  · constructor
    · intro a u hu
      obtain ⟨rfl, rfl⟩ := hfind hu
      refine ⟨_, rfl, ?_, ?_⟩
      · rw [size_alloc]
        exact Nat.lt_succ_self _
      · rw [isWritable, hcell]
    · intro a b n ha hb
      rw [(hfind ha).1, (hfind hb).1]
  · intro a
    cases hu : (s.alloc {}).1.find? (.cell s.cells.size) a with
    | none => rw [valueAt?, hu]; rfl
    | some u =>
      rw [valueAt?, hu, (hfind hu).2, Option.bind_some, value?, hcell]
      rfl
  · intro b
    constructor
    · intro hb
      obtain ⟨u, hu⟩ := Option.isSome_iff_exists.mp hb
      exact .inl (hfind hu).1
    · rintro (rfl | ⟨e, he, -⟩)
      · rfl
      · cases he

namespace Lists

variable {s : Store} {t : Trace} {entries later : List (Value × Value)}

/-- One more entry. -/
theorem putAt (h : s.Lists t entries) {e : Value × Value} {a : Address}
    (ha : e.1.address? = some a) :
    ∃ s', t.putAt e.1 e.2 s = .ok () s' ∧ s'.Lists t (entries ++ [e]) := by
  obtain ⟨s', hput, hedit, hreached, hvalue⟩ := h.editable.putAt ha e.2
  refine ⟨s', hput, hedit, ?_, ?_⟩
  · intro c
    rw [hvalue, h.value, latest?_concat, ha]
    simp only [Option.some.injEq, eq_comm]
  · intro b
    rw [hreached.present, h.present]
    constructor
    · rintro ((hb | ⟨d, hd, hb⟩) | hb)
      · exact .inl hb
      · exact .inr ⟨d, List.mem_append_left _ hd, hb⟩
      · exact .inr ⟨e, by simp, a, ha, hb⟩
    · rintro (hb | ⟨d, hd, c, hc, hb⟩)
      · exact .inl (.inl hb)
      · rcases List.mem_append.mp hd with hd | hd
        · exact .inl (.inr ⟨d, hd, c, hc, hb⟩)
        · rw [List.mem_singleton.mp hd, ha] at hc
          cases hc
          exact .inr hb

/-- All entries of a list, one after the other. -/
theorem putAll (h : s.Lists t entries) (hlater : ∀ e ∈ later, (e.1.address?).isSome) :
    ∃ s', (later.forM fun e => t.putAt e.1 e.2) s = .ok () s' ∧ s'.Lists t (entries ++ later) := by
  induction later generalizing s entries with
  | nil =>
    rw [List.append_nil]
    exact ⟨s, rfl, h⟩
  | cons e later ih =>
    obtain ⟨he, hlater⟩ := List.forall_mem_cons.mp hlater
    obtain ⟨a, ha⟩ := Option.isSome_iff_exists.mp he
    obtain ⟨s', hput, hlists⟩ := h.putAt ha
    obtain ⟨s'', hall, hlists⟩ := ih hlists hlater
    rw [List.append_assoc] at hlists
    refine ⟨s'', ?_, hlists⟩
    simp only [List.forM, bind, EStateM.bind, hput]
    exact hall

end Lists

end Store

theorem Trace.lists_ofEntries {entries : List (Value × Value)}
    (h : ∀ e ∈ entries, (e.1.address?).isSome) (s : Store) :
    ∃ t s', Trace.ofEntries entries s = .ok t s' ∧ s'.Lists t entries := by
  obtain ⟨s', hput, hlists⟩ := s.lists_alloc.putAll h
  refine ⟨_, s', ?_, hlists⟩
  show ((entries.forM fun e => (Trace.cell s.cells.size).putAt e.1 e.2) >>=
    fun _ => pure (Trace.cell s.cells.size)) (s.alloc {}).1 = _
  simp only [bind, EStateM.bind]
  rw [hput]
  rfl

namespace Store

/-- The entries of a trace, with their addresses as values. -/
def listing (s : Store) (t : Trace) : List (Value × Value) :=
  (s.entries t).map fun e => (e.1.toValue, e.2)

variable {s : Store} {t : Trace} {a : Address} {v : Value}

theorem mem_listing {x : Value} :
    (x, v) ∈ s.listing t ↔ ∃ a, (a, v) ∈ s.entries t ∧ a.toValue = x := by
  simp [listing]

theorem toValue_mem_listing (h : (a, v) ∈ s.entries t) : (a.toValue, v) ∈ s.listing t :=
  mem_listing.mpr ⟨a, h, rfl⟩

theorem address?_listing : ∀ e ∈ s.listing t, (e.1.address?).isSome := by
  rintro ⟨x, v⟩ he
  obtain ⟨a, -, rfl⟩ := mem_listing.mp he
  rw [Value.address?_toValue]
  rfl

end Store

namespace Trace

namespace Acyclic

variable {s : Store} {t : Trace}

/-- The latest value listed for an address is the value there. -/
theorem latest?_listing (h : t.Acyclic s) (hkeys : t.Keyed s) (a : Address) :
    latest? (s.listing t) a = s.valueAt? t a := by
  have hlisted : ∀ {v}, latest? (s.listing t) a = some v → s.valueAt? t a = some v := by
    intro v hv
    obtain ⟨x, hx, ha⟩ := mem_of_latest? hv
    obtain ⟨b, hb, rfl⟩ := Store.mem_listing.mp hx
    rw [Value.address?_toValue] at ha
    cases ha
    exact (h.mem_entries hkeys).mp hb
  cases hlast : latest? (s.listing t) a with
  | some v => exact (hlisted hlast).symm
  | none =>
    by_contra hne
    obtain ⟨v, hv⟩ := Option.ne_none_iff_exists'.mp (Ne.symm hne)
    have hmem := Store.toValue_mem_listing ((h.mem_entries hkeys).mpr hv)
    have hsome := isSome_latest? hmem (Value.address?_toValue a)
    rw [hlast] at hsome
    cases hsome

/-- The nodes on the way to a value are all nodes if those without children hold values. -/
theorem leaves_hold_iff (h : t.Acyclic s) :
    (∀ b, b ≠ [] → (s.find? t b).isSome → ∃ a v, b <+: a ∧ s.valueAt? t a = some v) ↔
      ∀ b u, b ≠ [] → s.find? t b = some u → s.children u = [] → (s.value? u).isSome := by
  constructor
  · intro hway b u hb hu hleaf
    obtain ⟨_, v, ⟨c, rfl⟩, hv⟩ := hway b hb (by rw [hu]; rfl)
    rw [Store.valueAt?, Store.find?_append, hu, Option.bind_some] at hv
    cases c with
    | nil => exact Option.isSome_iff_exists.mpr ⟨v, hv⟩
    | cons k c => simp [Store.find?, Store.child?, hleaf] at hv
  · intro hleaves b hb hu
    obtain ⟨a, x, hbelow, hx, hchildless⟩ := h.exists_childless hu
    have ha : a ≠ [] := by
      rintro rfl
      exact hb (List.prefix_nil.mp hbelow)
    obtain ⟨v, hv⟩ := Option.isSome_iff_exists.mp (hleaves a x ha hx hchildless)
    refine ⟨a, v, hbelow, ?_⟩
    rw [Store.valueAt?, hx, Option.bind_some, hv]

/-- The nodes on the way to a listed address are those on the way to a value. -/
theorem exists_listing_iff (h : t.Acyclic s) (hkeys : t.Keyed s) (b : Address) :
    (∃ e ∈ s.listing t, ∃ a, e.1.address? = some a ∧ b <+: a) ↔
      ∃ a v, b <+: a ∧ s.valueAt? t a = some v := by
  constructor
  · rintro ⟨⟨x, v⟩, he, a, ha, hb⟩
    obtain ⟨c, hc, rfl⟩ := Store.mem_listing.mp he
    rw [Value.address?_toValue] at ha
    cases ha
    exact ⟨a, v, hb, (h.mem_entries hkeys).mp hc⟩
  · rintro ⟨a, v, hb, hv⟩
    have hmem := Store.toValue_mem_listing ((h.mem_entries hkeys).mpr hv)
    exact ⟨_, hmem, a, Value.address?_toValue a, hb⟩

/-- Entries are exact.  Those of a trace without cycles are its values, each once; a trace made of
entries holds the latest for each address and nothing else; and a trace made of the entries of
another one looks the same at every address just when all nodes without children, the root apart,
hold values. -/
theorem listed_and_rebuilt {s : Store} {t : Trace} (h : t.Acyclic s) (hkeys : t.Keyed s) :
    ((s.entries t).map Prod.fst).Nodup ∧
    (∀ (a : Address) v, (a, v) ∈ s.entries t ↔
      s.hasAt t a.toValue = true ∧ s.getAt t a.toValue = .ok v) ∧
    (∀ entries : List (Value × Value), (∀ e ∈ entries, (e.1.address?).isSome) → ∀ s₀,
      ∃ u s', Trace.ofEntries entries s₀ = .ok u s' ∧ s'.Lists u entries) ∧
    ∃ u s', Trace.ofEntries (s.listing t) s = .ok u s' ∧
      ((∀ a, (s'.find? u a).isSome = (s.find? t a).isSome ∧ s'.valueAt? u a = s.valueAt? t a) ↔
        ∀ b x, b ≠ [] → s.find? t b = some x → s.children x = [] → (s.value? x).isSome) := by
  refine ⟨h.nodup_entries hkeys, ?_, fun _ hentries => Trace.lists_ofEntries hentries, ?_⟩
  · intro a v
    rw [h.mem_entries hkeys, Store.asked_iff (Value.address?_toValue a)]
  · obtain ⟨u, s', hmade, hlists⟩ := Trace.lists_ofEntries Store.address?_listing s
    refine ⟨u, s', hmade, ?_⟩
    -- What is rebuilt has the nodes on the ways to values, and no others.
    have hpresent : ∀ b, (s'.find? u b).isSome ↔
        b = [] ∨ ∃ a v, b <+: a ∧ s.valueAt? t a = some v := by
      intro b
      rw [hlists.present, h.exists_listing_iff hkeys]
    rw [← h.leaves_hold_iff]
    constructor
    · intro hsame b hb hu
      rw [← (hsame b).1, hpresent] at hu
      exact hu.resolve_left hb
    · intro hway a
      constructor
      · rw [Bool.eq_iff_iff, hpresent]
        constructor
        · rintro (rfl | ⟨c, v, hc, hv⟩)
          · rfl
          · have hthere : (s.find? t c).isSome := Option.isSome_of_isSome_bind
              (Option.isSome_iff_exists.mpr ⟨v, hv⟩)
            exact Store.find?_isSome_mono hthere hc
        · intro hu
          by_cases ha : a = []
          · exact .inl ha
          · exact .inr (hway a ha hu)
      · rw [hlists.value, h.latest?_listing hkeys]

end Acyclic

theorem sprout_acyclic : (Trace.cell 0).Acyclic sprout := by
  refine acyclic_of_lt fun {n k u} hu => ?_
  rcases n with _ | _ | n
  · cases List.mem_singleton.mp hu
    exact ⟨1, rfl, Nat.zero_lt_one⟩
  · cases hu
  · cases hu

theorem sprout_keyed : (Trace.cell 0).Keyed sprout := by
  intro a u hu
  rcases sprout_find? hu with ⟨-, rfl⟩ | ⟨-, rfl⟩
  · exact List.nodup_singleton _
  · exact List.nodup_nil

/-- The one value is listed, and a trace made of it has both nodes. -/
theorem sprout_rebuilt :
    (([.name "b"], .int 7) : Address × Value) ∈ sprout.entries (.cell 0) ∧
      ∃ u s', Trace.ofEntries (sprout.listing (.cell 0)) sprout = .ok u s' ∧
        ∀ a, (s'.find? u a).isSome = (sprout.find? (.cell 0) a).isSome ∧
          s'.valueAt? u a = sprout.valueAt? (.cell 0) a := by
  obtain ⟨-, hexact, -, u, s', hmade, hsame⟩ := sprout_acyclic.listed_and_rebuilt sprout_keyed
  refine ⟨(hexact _ _).mpr ⟨rfl, rfl⟩, u, s', hmade, hsame.mpr fun b x hb hx _ => ?_⟩
  rcases sprout_find? hx with ⟨rfl, -⟩ | ⟨-, rfl⟩
  · exact (hb rfl).elim
  · rfl

end Trace
end ProbTrace
