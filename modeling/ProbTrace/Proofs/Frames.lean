import ProbTrace.Proofs.Binding
import ProbTrace.Proofs.Cells

/-!
# Frames side by side

The frames of two runs are alike when they bind the same names in the same order to
values that are alike.  Looking up a name then gives values that are alike, and binding
a name keeps the frames alike.
-/

namespace ProbTrace

/-- Trees of bindings with one structure, whose values are alike. -/
inductive FrameAlike (L : Likeness) : Trace → Trace → Prop
  | tree {v w : Option Value} {cs ds : List (Key × Trace)} :
      Option.Rel (Value.Alike L) v w → cs.map Prod.fst = ds.map Prod.fst →
      (∀ {p q}, (p, q) ∈ cs.zip ds → FrameAlike L p.2 q.2) →
      FrameAlike L (.tree v cs) (.tree w ds)
  | cell (n : NodeId) : FrameAlike L (.cell n) (.cell n)

/-- Children of frames under the same keys in the same order, which are alike. -/
abbrev ChildrenAlike (L : Likeness) : List (Key × Trace) → List (Key × Trace) → Prop :=
  KeyedAlike (FrameAlike L)

variable {L : Likeness}

namespace FrameAlike

theorem ofChildren {v w : Option Value} {cs ds : List (Key × Trace)}
    (hvalue : Option.Rel (Value.Alike L) v w) (h : ChildrenAlike L cs ds) :
    FrameAlike L (.tree v cs) (.tree w ds) :=
  .tree hvalue h.map_fst fun hmem => ((List.forall₂_iff_zip.mp h).2 hmem).2

theorem children {v w : Option Value} {cs ds : List (Key × Trace)}
    (h : FrameAlike L (.tree v cs) (.tree w ds)) : ChildrenAlike L cs ds := by
  cases h with
  | tree _ hkeys hitems =>
    have hlength : cs.length = ds.length := by
      simpa using congrArg List.length hkeys
    have heq : List.Forall₂ Eq (cs.map Prod.fst) (ds.map Prod.fst) := by
      rw [List.forall₂_eq_eq_eq]
      exact hkeys
    rw [List.forall₂_map_left_iff, List.forall₂_map_right_iff] at heq
    exact List.forall₂_iff_zip.mpr ⟨hlength, fun hmem =>
      ⟨(List.forall₂_iff_zip.mp heq).2 hmem, hitems hmem⟩⟩

theorem empty : FrameAlike L .empty .empty :=
  ofChildren .none .nil

theorem mono {M : Likeness} (hLM : ∀ {v w}, Value.Alike L v w → Value.Alike M v w) {t u : Trace}
    (h : FrameAlike L t u) : FrameAlike M t u := by
  induction h with
  | cell n => exact .cell n
  | tree hvalue hkeys _ ih =>
    refine .tree ?_ hkeys ih
    cases hvalue with
    | none => exact .none
    | some hv => exact .some (hLM hv)

theorem keys {t u : Trace} (h : FrameAlike L t u) : t.keys = u.keys := by
  cases h with
  | tree _ hkeys _ => exact hkeys
  | cell n => rfl

theorem valueAt? {t u : Trace} (h : FrameAlike L t u) (a : Address) :
    Option.Rel (Value.Alike L) (t.valueAt? a) (u.valueAt? a) := by
  induction a generalizing t u with
  | nil =>
    cases h with
    | tree hvalue _ _ => exact hvalue
    | cell n => exact .none
  | cons k a ih =>
    cases h with
    | cell n => exact .none
    | tree hvalue hkeys hitems =>
      have hchildren := (FrameAlike.tree hvalue hkeys hitems).children
      simp only [Trace.valueAt?]
      rcases hchildren.childAt? k with ⟨hn, hn'⟩ | ⟨t, u, ht, hu, htu⟩
      · rw [hn, hn']
        exact .none
      · rw [ht, hu]
        exact ih htu

theorem update {f g : Option Value → Option Value}
    (hfg : ∀ {x y}, Option.Rel (Value.Alike L) x y → Option.Rel (Value.Alike L) (f x) (g y))
    {t u : Trace} (h : FrameAlike L t u) (a : Address) :
    FrameAlike L (Trace.update f a t) (Trace.update g a u) := by
  induction a generalizing t u with
  | nil =>
    cases h with
    | tree hvalue hkeys hitems => exact .tree (hfg hvalue) hkeys hitems
    | cell n => exact .cell n
  | cons k a ih =>
    cases h with
    | cell n => exact .cell n
    | tree hvalue hkeys hitems =>
      have hchildren := (FrameAlike.tree hvalue hkeys hitems).children
      refine ofChildren hvalue (hchildren.insertChild k (ih ?_))
      rcases hchildren.childAt? k with ⟨hn, hn'⟩ | ⟨t, u, ht, hu, htu⟩
      · rw [hn, hn']
        exact empty
      · rw [ht, hu]
        exact htu

/-- If only equal values are alike, then so are trees of bindings. -/
theorem eq (heq : ∀ {v w}, Value.Alike L v w → v = w) {t u : Trace} (h : FrameAlike L t u) :
    t = u := by
  induction h with
  | cell n => rfl
  | @tree v w cs ds hvalue hkeys hitems ih =>
    have hchildren : cs = ds := by
      have hsize := List.forall₂_iff_zip.mp (FrameAlike.tree hvalue hkeys hitems).children
      rw [← List.forall₂_eq_eq_eq]
      exact List.forall₂_iff_zip.mpr ⟨hsize.1, fun hmem =>
        Prod.ext (hsize.2 hmem).1 (ih hmem)⟩
    have hvw : v = w := by
      cases hvalue with
      | none => rfl
      | some hv => rw [heq hv]
    rw [hvw, hchildren]

/-- What a tree of bindings holds is alike to what the other one holds. -/
theorem mem_entries {t u : Trace} (h : FrameAlike L t u) {a : Address} {v : Value}
    (hv : (a, v) ∈ t.entries) : ∃ w, (a, w) ∈ u.entries ∧ Value.Alike L v w := by
  induction h generalizing a with
  | cell n => cases hv
  | @tree x y cs ds hvalue hkeys hitems ih =>
    have hall := (FrameAlike.tree hvalue hkeys hitems).children
    have hchildren : (a, v) ∈ childEntries cs →
        ∃ w, (a, w) ∈ childEntries ds ∧ Value.Alike L v w := by
      clear hvalue hkeys hitems hv
      -- The children are gone through in turn; what the outer induction gives holds of each.
      induction hall with
      | nil => exact fun hv => nomatch hv
      | @cons p q cs ds hpq _ ihs =>
        obtain ⟨k, t⟩ := p
        obtain ⟨k', u⟩ := q
        obtain ⟨rfl, htu⟩ : k = k' ∧ FrameAlike L t u := hpq
        intro hv
        rw [childEntries] at hv ⊢
        rcases List.mem_append.mp hv with hv | hv
        · obtain ⟨⟨b, x⟩, hx, heq⟩ := List.mem_map.mp hv
          cases heq
          obtain ⟨w, hw, hvw⟩ := ih List.mem_cons_self hx
          exact ⟨w, List.mem_append_left _ (List.mem_map.mpr ⟨(b, w), hw, rfl⟩), hvw⟩
        · obtain ⟨w, hw, hvw⟩ := ihs (fun hmem => ih (List.mem_cons_of_mem _ hmem)) hv
          exact ⟨w, List.mem_append_right _ hw, hvw⟩
    cases hvalue with
    | none => exact hchildren hv
    | some hxy =>
      rcases List.mem_cons.mp hv with heq | hv
      · cases heq
        exact ⟨_, List.mem_cons_self, hxy⟩
      · obtain ⟨w, hw, hvw⟩ := hchildren hv
        exact ⟨w, List.mem_cons_of_mem _ hw, hvw⟩

end FrameAlike

mutual

/-- A tree of bindings is alike to itself if all its values are. -/
theorem FrameAlike.refl : ∀ (t : Trace), (∀ a v, (a, v) ∈ t.entries → Value.Alike L v v) →
    FrameAlike L t t
  | .cell n, _ => .cell n
  | .tree v cs, h => by
    refine .ofChildren ?_ (ChildrenAlike.refl cs ?_)
    · cases v with
      | none => exact .none
      | some v => exact .some (h [] v (by simp [Trace.entries]))
    · intro a u hmem
      refine h a u ?_
      cases v with
      | none => simpa [Trace.entries] using hmem
      | some v => simpa [Trace.entries] using Or.inr hmem

theorem ChildrenAlike.refl : ∀ (cs : List (Key × Trace)),
    (∀ a v, (a, v) ∈ childEntries cs → Value.Alike L v v) → ChildrenAlike L cs cs
  | [], _ => .nil
  | (k, t) :: rest, h => by
    refine .cons ⟨rfl, FrameAlike.refl t fun a v hmem => h (k :: a) v ?_⟩
      (ChildrenAlike.refl rest fun a v hmem => h a v ?_)
    · rw [childEntries]
      exact List.mem_append_left _ (List.mem_map_of_mem (f := fun e => (k :: e.1, e.2)) hmem)
    · rw [childEntries]
      exact List.mem_append_right _ hmem

end

theorem FrameAlike.left (hself : ∀ {v w}, Value.Alike L v w → Value.Alike L v v) {t u : Trace}
    (h : FrameAlike L t u) : FrameAlike L t t :=
  .refl t fun _ _ hv => by
    obtain ⟨_, -, hvw⟩ := h.mem_entries hv
    exact hself hvw

/-! ## Scopes -/

/-- Chains of frames that correspond one by one, to the same end. -/
inductive ScopesAlike (F : FrameId → FrameId → Prop) : Scope → Scope → Prop
  | top : ScopesAlike F .top .top
  | absent : ScopesAlike F .absent .absent
  | frame {i j : FrameId} {c d : Scope} :
      F i j → ScopesAlike F c d → ScopesAlike F (.frame i c) (.frame j d)

/-- Scopes that correspond by the identity are equal. -/
theorem ScopesAlike.eq {F : FrameId → FrameId → Prop} (hF : ∀ {i j}, F i j → i = j)
    {c d : Scope} (h : ScopesAlike F c d) : c = d := by
  induction h with
  | top => rfl
  | absent => rfl
  | frame hij _ ih => rw [hF hij, ih]

/-- Scopes whose innermost frames correspond, whatever is further out. -/
inductive InnermostAlike (F : FrameId → FrameId → Prop) : Scope → Scope → Prop
  | top : InnermostAlike F .top .top
  | absent : InnermostAlike F .absent .absent
  | frame {i j : FrameId} (c d : Scope) : F i j → InnermostAlike F (.frame i c) (.frame j d)

theorem ScopesAlike.innermost {F : FrameId → FrameId → Prop} {c d : Scope}
    (h : ScopesAlike F c d) : InnermostAlike F c d := by
  cases h with
  | top => exact .top
  | absent => exact .absent
  | frame hij _ => exact .frame _ _ hij

/-- The values of the top level that every program can use. -/
theorem TopLevel.resolve_standard_agree (hspecial : ∀ s, s ≠ .scored → L.special s)
    {name : Value} (hname : Value.Alike L name name) :
    Agree L (Value.Alike L) (TopLevel.standard.resolve name) (TopLevel.standard.resolve name) := by
  have hstandard : ∀ entry ∈ TopLevel.standardNames,
      (∃ b, entry.2 = .builtin b) ∨ ∃ s, s ≠ .scored ∧ entry.2 = .special s := by
    intro entry hmem
    rcases List.mem_append.mp hmem with h | h
    · obtain ⟨⟨name, b⟩, -, rfl⟩ := List.mem_map.mp h
      exact .inl ⟨b, rfl⟩
    · obtain ⟨s, hs, rfl⟩ := List.mem_map.mp h
      exact .inr ⟨s, by rintro rfl; simp at hs, rfl⟩
  simp only [TopLevel.standard, TopLevel.resolve]
  split
  · split
    · split
      · rename_i s v hlookup
        obtain ⟨front, back, hnames, -⟩ := List.lookup_eq_some_iff.mp hlookup
        rcases hstandard (_, v) (hnames ▸ List.mem_append_right _ List.mem_cons_self) with
          ⟨b, rfl⟩ | ⟨s, hs, rfl⟩
        · exact .ok (.builtin b)
        · exact .ok (.special (hspecial s hs))
      · exact .error (.same (.cons hname .nil))
    · exact .error (.same (.cons hname .nil))
  · exact .plain rfl

theorem TopLevel.mem_of_resolve {x : String} {v : Value}
    (h : TopLevel.standard.resolve (.text x) = .ok v) : x ∈ TopLevel.standardNames.map Prod.fst := by
  have hlookup : TopLevel.standardNames.lookup x = some v := by
    simp only [TopLevel.standard, TopLevel.resolve, Value.isHashable, if_true] at h
    split at h
    · cases h
      assumption
    · cases h
  obtain ⟨front, back, hnames, -⟩ := List.lookup_eq_some_iff.mp hlookup
  rw [hnames, List.map_append]
  exact List.mem_append_right _ List.mem_cons_self

section Find

variable {top : TopLevel} {m : Machine} {i : FrameId} {x : String} {v : Value} (c : Scope)

theorem Scope.find_bound (h : (m.bindings i).valueAt? [.name x] = some v) :
    (Scope.frame i c).find top m (.text x) = .ok v := by
  have haddress : (Value.text x).address? = some [.name x] := rfl
  simp only [Scope.find, haddress, Option.bind_some, h]

theorem Scope.find_unbound (h : (m.bindings i).valueAt? [.name x] = none) :
    (Scope.frame i c).find top m (.text x) = c.find top m (.text x) := by
  have haddress : (Value.text x).address? = some [.name x] := rfl
  simp only [Scope.find, haddress, Option.bind_some, h]

end Find

theorem Scope.find_agree {F : FrameId → FrameId → Prop} {top : TopLevel} {m n : Machine}
    {name : Value}
    (hframe : ∀ {i j}, F i j → FrameAlike L (m.bindings i) (n.bindings j))
    (htop : Agree L (Value.Alike L) (top.resolve name) (top.resolve name))
    {c d : Scope} (h : ScopesAlike F c d) :
    Agree L (Value.Alike L) (c.find top m name) (d.find top n name) := by
  induction h with
  | top => exact htop
  | absent => exact .plain rfl
  | frame hij _ ih =>
    simp only [Scope.find]
    cases name.address? with
    | none => exact ih
    | some a =>
      rcases rel_cases ((hframe hij).valueAt? a) with ⟨hn, hn'⟩ | ⟨v, w, hv, hw, hvw⟩
      · simp only [Option.bind_some, hn, hn']
        exact ih
      · simp only [Option.bind_some, hv, hw]
        exact .ok hvw

namespace Machine

variable (m : Machine)

theorem bindings_of_size_le {m : Machine} {i : FrameId} (h : m.frames.size ≤ i) :
    m.bindings i = .empty := by
  unfold bindings
  rw [Array.getElem?_eq_none h]
  rfl

/-- Machines with as many frames that bind the same have the same frames. -/
theorem frames_eq {m n : Machine} (hsize : m.frames.size = n.frames.size)
    (h : ∀ id, m.bindings id = n.bindings id) : m.frames = n.frames := by
  refine Array.ext hsize fun i hi hi' => ?_
  have heq := h i
  simpa only [bindings, Array.getElem?_eq_getElem hi, Array.getElem?_eq_getElem hi',
    Option.getD_some] using heq

/-- A new frame is empty, as are the frames that are not there. -/
theorem bindings_push (i : FrameId) :
    ({ m with frames := m.frames.push .empty } : Machine).bindings i = m.bindings i := by
  simp only [bindings, Array.getElem?_push]
  split
  · rename_i h
    rw [Array.getElem?_eq_none (Nat.le_of_eq h.symm)]
    rfl
  · rfl

theorem bindings_modify (id : FrameId) (f : Trace → Trace) (i : FrameId) :
    ({ m with frames := m.frames.modify id f } : Machine).bindings i =
      if i = id ∧ id < m.frames.size then f (m.bindings id) else m.bindings i := by
  simp only [bindings, Array.getElem?_modify]
  by_cases hi : i = id
  · subst hi
    by_cases hsize : i < m.frames.size
    · simp [hsize]
    · simp [hsize]
  · simp [hi, Ne.symm hi]

end Machine

/-- Machines in which a value of a frame each is changed. -/
def Pair.updated (w : Pair) (i j : FrameId) (a : Address) (f g : Option Value → Option Value) :
    Pair where
  first := { w.first with frames := w.first.frames.modify i (Trace.update f a) }
  second := { w.second with frames := w.second.frames.modify j (Trace.update g a) }

namespace Simulation

variable {S : Simulation} {ctx : Context} {A : Address} {F : FrameId → FrameId → Prop}

/-- Binding a name in frames that correspond runs alike, if changing a value in both
keeps the machines related. -/
theorem bindName_runs (hS : S.Basic) {name : Value} (hname : S.Alike name name)
    (hframe : ∀ {w i j}, S.related w → F i j →
      FrameAlike S.like (w.first.bindings i) (w.second.bindings j))
    (hupdate : ∀ {w i j f g a}, a = (Address.ofValues name.addressItems).1 → S.related w → F i j →
      (∀ {x y}, Option.Rel S.Alike x y → Option.Rel S.Alike (f x) (g y)) →
      S.related (w.updated i j a f g) ∧ S.advance w [] (w.updated i j a f g))
    {c d : Scope} (h : InnermostAlike F c d) :
    S.BindsAlike A (Run.bindName ctx c name) (Run.bindName ctx d name) := by
  intro w v v' hv
  cases h with
  | top => exact Runs.withMachine fun _ => hS.raise (.same (.cons hname .nil))
  | absent => exact Runs.withMachine fun _ => hS.raise (.same (.cons hname .nil))
  | @frame i j c d hij =>
    show S.Runs A w (.watch (Run.defineIn i name v)) (.watch (Run.defineIn j name v')) _
    unfold Run.defineIn
    cases name.isText reservedName with
    | true =>
      refine Runs.withMachine fun hw => ?_
      rw [(hframe hw hij).keys]
      exact hS.raise (.same (Value.Alike.ofKeys _))
    | false =>
      have hbad := (Address.ofValues_alike hname.addressItems).2
      rcases hkeys : Address.ofValues name.addressItems with ⟨keys, bad⟩
      rw [hkeys] at hupdate hbad
      cases bad with
      | none =>
        intro hw _
        obtain ⟨hrel, hadv⟩ := hupdate (f := fun _ => some v) (g := fun _ => some v') rfl hw hij
          fun _ => .some hv
        exact ⟨hadv, hrel, trivial⟩
      | some key =>
        -- The name is refused only after the nodes for the keys in front of it were made.
        intro hw _
        obtain ⟨hrel, hadv⟩ := hupdate (f := id) (g := id) rfl hw hij id
        have hfault : Fault.Alike S.like (.invalidKey .inTrace key name)
            (.invalidKey .inTrace key name) := by
          cases hbad with
          | some hkey => exact .invalidKey _ hkey hname
        have hraised := hfault.raised (hS.text (w := w.updated i j keys id id) hrel)
        exact .inr (hS.halted_append hadv (hS.fault hrel hraised))

end Simulation

end ProbTrace
