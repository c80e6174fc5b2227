import ProbTrace.Proofs.Editing
import ProbTrace.Proofs.Growth
import ProbTrace.Proofs.Reachability
import ProbTrace.Proofs.Unfolding

/-!
# Comparing values in two stores

Agreement sees of a closure or a tag nothing but its serial number, and the text of a value
shows of a closure nothing but its name.  So values that are alike compare alike and have texts
alike, in two different stores, as long as serial numbers correspond and the stores agree on the
traces inside the values.

The outline and the content of a trace are taken to a depth that grows with the store.
They do not depend on it: a path that meets no cell twice is no longer than the number of
cells that it can meet.  Adding a node without a value gives no value a text and takes none
away, if the key of the node has a text.
-/

namespace ProbTrace

theorem items?_expand (f : NodeId → Trace) (v : Value) :
    (v.expand f).items? = v.items?.map (expandItems f) := by
  cases v <;> simp [Value.expand, Value.items?, expandItems]

theorem sameAtom_expand (f g : NodeId → Trace) (v w : Value) :
    (v.expand f).sameAtom (w.expand g) = v.sameAtom w := by
  cases v <;> cases w <;> rfl

/-! ## Equality and order -/

/-- What has a serial number in two likenesses is told apart alike on both sides. -/
structure Likeness.Matches (L M : Likeness) : Prop where
  tag : ∀ {i o j p k q l r}, L.tag i o j p → M.tag k q l r → (i == k) = (j == l)
  closure : ∀ {source name i c j d source' name' k c' l d'},
    L.closure source name i c j d → M.closure source' name' k c' l d' → (i == k) = (j == l)
  undefined : ∀ {i j k l}, L.undefined i j → M.undefined k l → (i == k) = (j == l)

/-- What has the same serial number on both sides is told apart alike. -/
theorem Likeness.Matches.ofEq {L : Likeness} (htag : ∀ {i o j p}, L.tag i o j p → i = j)
    (hclosure : ∀ {source name i c j d}, L.closure source name i c j d → i = j)
    (hundefined : ∀ {i j}, L.undefined i j → i = j) : L.Matches L where
  tag h h' := by rw [htag h, htag h']
  closure h h' := by rw [hclosure h, hclosure h']
  undefined h h' := by rw [hundefined h, hundefined h']

/-- Two stores compare the traces of two likenesses alike. -/
def ComparesAlike (L M : Likeness) (s s' : Store) : Prop :=
  ∀ {t u}, L.trace t → M.trace u → s.same (.trace t) (.trace u) = s'.same (.trace t) (.trace u)

namespace Value.Alike

variable {L M : Likeness} {s s' : Store} {v v' u u' : Value}

theorem identical_congr (h : L.Matches M) (hv : Alike L v v') (hu : Alike M u u') :
    v.identical u = v'.identical u' := by
  cases hv with
  | @trace t _ => cases t <;> cases hu <;> rfl
  | undefined hv =>
    cases hu with
    | undefined hu => exact h.undefined hv hu
    | _ => rfl
  | _ => cases hu <;> rfl

theorem sameAtom_congr (h : L.Matches M) (hv : Alike L v v') (hu : Alike M u u') :
    v.sameAtom u = v'.sameAtom u' := by
  cases hv with
  | tag hv =>
    cases hu with
    | tag hu => exact h.tag hv hu
    | _ => rfl
  | closure hv =>
    cases hu with
    | closure hu => exact h.closure hv hu
    | _ => rfl
  | _ => cases hu <;> rfl

/-- Values that agree alike with whatever is alike. -/
def SameAlike (M : Likeness) (s s' : Store) (v v' : Value) : Prop :=
  ∀ {u u'}, Alike M u u' → s.same v u = s'.same v' u'

theorem sameItems_congr {vs vs' us us' : List Value}
    (hvs : List.Forall₂ (SameAlike M s s') vs vs') (hus : ItemsAlike M us us') :
    sameItems (expandItems (s.contentAt s.depth []) vs)
        (expandItems (s.contentAt s.depth []) us) =
      sameItems (expandItems (s'.contentAt s'.depth []) vs')
        (expandItems (s'.contentAt s'.depth []) us') := by
  induction hvs generalizing us us' with
  | nil => cases hus <;> simp only [expandItems, sameItems]
  | cons hv _ ih =>
    cases hus with
    | nil => simp only [expandItems, sameItems]
    | cons hu hus =>
      simp only [expandItems, sameItems, ih hus]
      exact congrArg (· && _) (hv hu)

theorem same_congr (h : L.Matches M) (htrace : ComparesAlike L M s s') (hv : Alike L v v')
    (hu : Alike M u u') : s.same v u = s'.same v' u' := by
  have hitems {vs vs' : List Value} (size : vs.length = vs'.length)
      (ih : ∀ {v v'}, (v, v') ∈ vs.zip vs' → ∀ {u u'}, Alike M u u' →
        s.same v u = s'.same v' u') : List.Forall₂ (SameAlike M s s') vs vs' :=
    List.forall₂_iff_zip.mpr ⟨size, ih⟩
  have hatom {v v' : Value} (hv : Alike L v v') {u u' : Value} (hu : Alike M u u') :
      (v.expand (s.contentAt s.depth [])).sameAtom (u.expand (s.contentAt s.depth [])) =
        (v'.expand (s'.contentAt s'.depth [])).sameAtom (u'.expand (s'.contentAt s'.depth [])) := by
    rw [sameAtom_expand, sameAtom_expand, sameAtom_congr h hv hu]
  unfold Store.same Store.view
  -- The second pair varies in the induction, since items are compared with items.
  induction hv generalizing u u' with
  | trace ht =>
    cases hu with
    | trace hu => exact htrace ht hu
    | _ => simp only [Value.expand, Value.same]
  | list size items ih =>
    simp only [Value.expand, Value.same, items?_expand]
    rcases hu.items?_cases with ⟨hn, hn'⟩ | ⟨us, us', hus, hus', hall⟩
    · simp only [hn, hn', Option.map_none]
    · rw [hus, hus']
      exact sameItems_congr (hitems size ih) hall
  | tuple size items ih =>
    simp only [Value.expand, Value.same, items?_expand]
    rcases hu.items?_cases with ⟨hn, hn'⟩ | ⟨us, us', hus, hus', hall⟩
    · simp only [hn, hn', Option.map_none]
    · rw [hus, hus']
      exact sameItems_congr (hitems size ih) hall
  | quoted _ ih =>
    simp only [Value.expand, Value.same, items?_expand]
    rcases hu.items?_cases with ⟨hn, hn'⟩ | ⟨us, us', hus, hus', hall⟩
    · simp only [hn, hn', Option.map_none]
    · rw [hus, hus']
      rcases hall with _ | ⟨hx, _ | ⟨_, _⟩⟩
      · rfl
      · exact ih hx
      · rfl
  | brackets size items ih =>
    simp only [Value.expand, Value.same, items?_expand]
    rcases hu.items?_cases with ⟨hn, hn'⟩ | ⟨us, us', hus, hus', hall⟩
    · simp only [hn, hn', Option.map_none]
    · rw [hus, hus']
      rcases hall with _ | ⟨hx, _ | ⟨_, _⟩⟩
      · rfl
      · simp only [Option.map_some, expandItems, items?_expand]
        rcases hx.items?_cases with ⟨hn, hn'⟩ | ⟨ws, ws', hws, hws', hall⟩
        · simp only [hn, hn', Option.map_none]
        · rw [hws, hws']
          exact sameItems_congr (hitems size ih) hall
      · rfl
  | null => simpa only [Value.expand, Value.same] using hatom .null hu
  | bool b => simpa only [Value.expand, Value.same] using hatom (.bool b) hu
  | int i => simpa only [Value.expand, Value.same] using hatom (.int i) hu
  | float x => simpa only [Value.expand, Value.same] using hatom (.float x) hu
  | undefined hv => simpa only [Value.expand, Value.same] using hatom (.undefined hv) hu
  | text x => simpa only [Value.expand, Value.same] using hatom (.text x) hu
  | symbol x => simpa only [Value.expand, Value.same] using hatom (.symbol x) hu
  | tag hv => simpa only [Value.expand, Value.same] using hatom (.tag hv) hu
  | closure hv => simpa only [Value.expand, Value.same] using hatom (.closure hv) hu
  | builtin b => simpa only [Value.expand, Value.same] using hatom (.builtin b) hu
  | special hv => simpa only [Value.expand, Value.same] using hatom (.special hv) hu

/-- Values that compare alike with whatever is alike. -/
def EqualsAlike (M : Likeness) (s s' : Store) (v v' : Value) : Prop :=
  ∀ {u u'}, Alike M u u' →
    v.identical u = v'.identical u' ∧ v.equals s u = v'.equals s' u'

theorem equalItems_congr {vs vs' us us' : List Value}
    (hvs : List.Forall₂ (EqualsAlike M s s') vs vs') (hus : ItemsAlike M us us') :
    equalItems s vs us = equalItems s' vs' us' := by
  induction hvs generalizing us us' with
  | nil => cases hus <;> simp only [equalItems]
  | cons hv _ ih =>
    cases hus with
    | nil => simp only [equalItems]
    | cons hu hus => simp only [equalItems, (hv hu).1, (hv hu).2, ih hus]

theorem equals_congr (h : L.Matches M) (htrace : ComparesAlike L M s s') (hv : Alike L v v')
    (hu : Alike M u u') : v.equals s u = v'.equals s' u' := by
  have hitems {vs vs' us us' : List Value} (size : vs.length = vs'.length)
      (items : ∀ {v v'}, (v, v') ∈ vs.zip vs' → Alike L v v')
      (ih : ∀ {v v'}, (v, v') ∈ vs.zip vs' → ∀ {u u'}, Alike M u u' →
        v.equals s u = v'.equals s' u')
      (hus : ItemsAlike M us us') : equalItems s vs us = equalItems s' vs' us' :=
    equalItems_congr (List.forall₂_iff_zip.mpr ⟨size, fun hmem _ _ hu =>
      ⟨(items hmem).identical_congr h hu, ih hmem hu⟩⟩) hus
  induction hv generalizing u u' with
  | trace ht =>
    cases hu with
    | trace hu => simp only [Value.equals, htrace ht hu]
    | _ => simp only [Value.equals]
  | list size items ih =>
    cases hu with
    | list size' items' =>
      simp only [Value.equals]
      exact hitems size items ih (List.forall₂_iff_zip.mpr ⟨size', items'⟩)
    | _ => simp only [Value.equals]
  | tuple size items ih =>
    simp only [Value.equals, hu.isTuple_eq]
    rcases hu.items?_cases with ⟨hn, hn'⟩ | ⟨us, us', hus, hus', hall⟩
    · simp only [hn, hn', Option.getD_none, hitems size items ih .nil]
    · simp only [hus, hus', Option.getD_some, hitems size items ih hall]
  | quoted hv ih =>
    simp only [Value.equals, hu.isTuple_eq]
    cases hb : u'.isTuple with
    | false => rfl
    | true =>
      rcases hu.items?_cases with ⟨hn, hn'⟩ | ⟨us, us', hus, hus', hall⟩
      · rw [hn, hn']
      · rw [hus, hus']
        match hall with
        | .nil => rfl
        | .cons hx .nil => simp only [hv.identical_congr h hx, ih hx]
        | .cons _ (.cons _ _) => rfl
  | brackets size items ih =>
    simp only [Value.equals, hu.isTuple_eq]
    cases hb : u'.isTuple with
    | false => rfl
    | true =>
      rcases hu.items?_cases with ⟨hn, hn'⟩ | ⟨us, us', hus, hus', hall⟩
      · rw [hn, hn']
      · rw [hus, hus']
        match hall with
        | .nil => rfl
        | .cons hx .nil =>
          cases hx with
          | list size' items' =>
            simp only [hitems size items ih (List.forall₂_iff_zip.mpr ⟨size', items'⟩)]
          | _ => rfl
        | .cons hx (.cons _ _) => cases hx <;> rfl
  | null => simpa only [Value.equals] using sameAtom_congr h .null hu
  | bool b => simpa only [Value.equals] using sameAtom_congr h (.bool b) hu
  | int i => simpa only [Value.equals] using sameAtom_congr h (.int i) hu
  | float x => simpa only [Value.equals] using sameAtom_congr h (.float x) hu
  | undefined hv => simpa only [Value.equals] using sameAtom_congr h (.undefined hv) hu
  | text s => simpa only [Value.equals] using sameAtom_congr h (.text s) hu
  | symbol s => simpa only [Value.equals] using sameAtom_congr h (.symbol s) hu
  | tag hv => simpa only [Value.equals] using sameAtom_congr h (.tag hv) hu
  | closure hv => simpa only [Value.equals] using sameAtom_congr h (.closure hv) hu
  | builtin b => simpa only [Value.equals] using sameAtom_congr h (.builtin b) hu
  | special hv => simpa only [Value.equals] using sameAtom_congr h (.special hv) hu

theorem equalsItem_congr (h : L.Matches M) (htrace : ComparesAlike L M s s')
    (hv : Alike L v v') (hu : Alike M u u') : v.equalsItem s u = v'.equalsItem s' u' := by
  unfold Value.equalsItem
  rw [hv.identical_congr h hu, hv.equals_congr h htrace hu]

/-- Values that are related alike to whatever is alike. -/
def RelatesAlike (M : Likeness) (s s' : Store) (r : Relation) (v v' : Value) : Prop :=
  ∀ {u u'}, Alike M u u' →
    v.equalsItem s u = v'.equalsItem s' u' ∧ v.relate s r u = v'.relate s' r u'

theorem relateItems_congr {r : Relation} {vs vs' us us' : List Value}
    (hvs : List.Forall₂ (RelatesAlike M s s' r) vs vs') (hus : ItemsAlike M us us') :
    relateItems s r vs us = relateItems s' r vs' us' := by
  induction hvs generalizing us us' with
  | nil => simp only [relateItems, hus.length_eq]
  | cons hv _ ih =>
    cases hus with
    | nil => simp only [relateItems]
    | cons hu hus => simp only [relateItems, (hv hu).1, (hv hu).2, ih hus]

theorem relate_congr (h : L.Matches M) (htrace : ComparesAlike L M s s') (r : Relation)
    (hv : Alike L v v') (hu : Alike M u u') : v.relate s r u = v'.relate s' r u' := by
  have hitems {vs vs' us us' : List Value} (size : vs.length = vs'.length)
      (items : ∀ {v v'}, (v, v') ∈ vs.zip vs' → Alike L v v')
      (ih : ∀ {v v'}, (v, v') ∈ vs.zip vs' → ∀ {u u'}, Alike M u u' →
        v.relate s r u = v'.relate s' r u')
      (hus : ItemsAlike M us us') : relateItems s r vs us = relateItems s' r vs' us' :=
    relateItems_congr (List.forall₂_iff_zip.mpr ⟨size, fun hmem _ _ hu =>
      ⟨(items hmem).equalsItem_congr h htrace hu, ih hmem hu⟩⟩) hus
  induction hv generalizing u u' with
  | list size items ih =>
    cases hu with
    | list size' items' =>
      simp only [Value.relate]
      exact hitems size items ih (List.forall₂_iff_zip.mpr ⟨size', items'⟩)
    | _ => simp only [Value.relate]
  | tuple size items ih =>
    simp only [Value.relate, hu.isTuple_eq]
    rcases hu.items?_cases with ⟨hn, hn'⟩ | ⟨us, us', hus, hus', hall⟩
    · simp only [hn, hn', Option.getD_none, hitems size items ih .nil]
    · simp only [hus, hus', Option.getD_some, hitems size items ih hall]
  | quoted hv ih =>
    simp only [Value.relate, hu.isTuple_eq]
    cases hb : u'.isTuple with
    | false => rfl
    | true =>
      rcases hu.items?_cases with ⟨hn, hn'⟩ | ⟨us, us', hus, hus', hall⟩
      · rw [hn, hn']
      · rw [hus, hus']
        cases hall with
        | nil => rfl
        | cons hx hrest =>
          simp only [hv.equalsItem_congr h htrace hx, ih hx, hrest.length_eq]
  | brackets size items ih =>
    simp only [Value.relate, hu.isTuple_eq]
    cases hb : u'.isTuple with
    | false => rfl
    | true =>
      rcases hu.items?_cases with ⟨hn, hn'⟩ | ⟨us, us', hus, hus', hall⟩
      · rw [hn, hn']
      · rw [hus, hus']
        cases hall with
        | nil => rfl
        | cons hx hrest =>
          cases hx with
          | list size' items' =>
            have hus := List.forall₂_iff_zip.mpr ⟨size', items'⟩
            have hequal := (Alike.list size items).equals_congr h htrace (.list size' items')
            simp only [Value.equals] at hequal
            simp only [hequal, hitems size items ih hus, hrest.length_eq]
          | _ => rfl
  | null => simpa only [Value.relate] using relateAtoms_eq (L := L) .null hu r
  | bool b => simpa only [Value.relate] using relateAtoms_eq (L := L) (.bool b) hu r
  | int i => simpa only [Value.relate] using relateAtoms_eq (L := L) (.int i) hu r
  | float x => simpa only [Value.relate] using relateAtoms_eq (L := L) (.float x) hu r
  | undefined hv => simpa only [Value.relate] using relateAtoms_eq (L := L) (.undefined hv) hu r
  | text s => simpa only [Value.relate] using relateAtoms_eq (L := L) (.text s) hu r
  | symbol s => simpa only [Value.relate] using relateAtoms_eq (L := L) (.symbol s) hu r
  | trace ht => simpa only [Value.relate] using relateAtoms_eq (L := L) (.trace ht) hu r
  | tag hv => simpa only [Value.relate] using relateAtoms_eq (L := L) (.tag hv) hu r
  | closure hv => simpa only [Value.relate] using relateAtoms_eq (L := L) (.closure hv) hu r
  | builtin b => simpa only [Value.relate] using relateAtoms_eq (L := L) (.builtin b) hu r
  | special hv => simpa only [Value.relate] using relateAtoms_eq (L := L) (.special hv) hu r

end Value.Alike

/-! ## Texts -/

mutual

/-- Whether a value has a text depends on the cells only through whether they have texts. -/
theorem hasText_expand_congr {f g : NodeId → Trace} (hfg : ∀ n, (f n).hasText = (g n).hasText) :
    ∀ v : Value, (v.expand f).hasText = (v.expand g).hasText
  | .list vs | .tuple vs | .brackets vs => allHaveText_expand_congr hfg vs
  | .quoted v => hasText_expand_congr hfg v
  | .trace t => hasText_expandTrace_congr hfg t
  | .closure _ _ _ name => hasText_expand_congr hfg name
  | .null | .bool _ | .int _ | .float _ | .undefined _ | .text _ | .symbol _ | .tag _ _
  | .builtin _ | .special _ => rfl

theorem allHaveText_expand_congr {f g : NodeId → Trace}
    (hfg : ∀ n, (f n).hasText = (g n).hasText) :
    ∀ vs : List Value, allHaveText (expandItems f vs) = allHaveText (expandItems g vs)
  | [] => rfl
  | v :: vs => by
    simp only [expandItems, allHaveText]
    rw [hasText_expand_congr hfg v, allHaveText_expand_congr hfg vs]

theorem hasText_expandTrace_congr {f g : NodeId → Trace}
    (hfg : ∀ n, (f n).hasText = (g n).hasText) :
    ∀ t : Trace, (t.expand f).hasText = (t.expand g).hasText
  | .cell n => hfg n
  | .tree none cs => childrenHaveText_expand_congr hfg cs
  | .tree (some v) cs => by
    simp only [Trace.expand, Trace.hasText]
    rw [hasText_expand_congr hfg v, childrenHaveText_expand_congr hfg cs]

theorem childrenHaveText_expand_congr {f g : NodeId → Trace}
    (hfg : ∀ n, (f n).hasText = (g n).hasText) :
    ∀ cs : List (Key × Trace),
      childrenHaveText (expandChildren f cs) = childrenHaveText (expandChildren g cs)
  | [] => rfl
  | (k, t) :: rest => by
    simp only [expandChildren, childrenHaveText]
    rw [hasText_expandTrace_congr hfg t, childrenHaveText_expand_congr hfg rest]

end

section Texts

variable {L : Likeness} {f g : NodeId → Trace} {v v' : Value}

/-- Values that are alike have texts on both sides or on none, if the traces inside them and the
names of their closures do. -/
theorem Value.Alike.hasText_congr
    (htrace : ∀ {t}, L.trace t → (t.expand f).hasText = (t.expand g).hasText)
    (hname : ∀ {source name i c j d}, L.closure source name i c j d →
      (name.expand f).hasText = (name.expand g).hasText) (hv : Value.Alike L v v') :
    (v.expand f).hasText = (v'.expand g).hasText := by
  have hitems {vs vs' : List Value} (size : vs.length = vs'.length)
      (ih : ∀ {v v'}, (v, v') ∈ vs.zip vs' → (v.expand f).hasText = (v'.expand g).hasText) :
      allHaveText (expandItems f vs) = allHaveText (expandItems g vs') := by
    have hall : List.Forall₂ (fun v v' => (v.expand f).hasText = (v'.expand g).hasText) vs vs' :=
      List.forall₂_iff_zip.mpr ⟨size, ih⟩
    clear size ih
    induction hall with
    | nil => rfl
    | cons hv _ ih => simp only [expandItems, allHaveText, hv, ih]
  induction hv with
  | list size _ ih => exact hitems size ih
  | tuple size _ ih => exact hitems size ih
  | quoted _ ih => exact ih
  | brackets size _ ih => exact hitems size ih
  | trace ht => exact htrace ht
  | closure hc =>
    have htext := hname hc
    exact htext
  | _ => rfl

/-- Values that are alike have texts on both sides or on none, if the cells do. -/
theorem Value.Alike.hasText_expand (hfg : ∀ n, (f n).hasText = (g n).hasText)
    (hv : Value.Alike L v v') : (v.expand f).hasText = (v'.expand g).hasText :=
  hv.hasText_congr (fun _ => hasText_expandTrace_congr hfg _) fun _ => hasText_expand_congr hfg _

end Texts

/-- A child with a text more or less makes no difference. -/
theorem hasText_expand_concat {f : NodeId → Trace} {k : Key} {t : Trace} (hk : k.hasText = true)
    (ht : (t.expand f).hasText = true) (value : Option Value) (cs : List (Key × Trace)) :
    ((Trace.tree value (cs ++ [(k, t)])).expand f).hasText =
      ((Trace.tree value cs).expand f).hasText := by
  have hchildren : childrenHaveText (expandChildren f (cs ++ [(k, t)])) =
      childrenHaveText (expandChildren f cs) := by
    induction cs with
    | nil => simp only [List.nil_append, expandChildren, childrenHaveText, hk, ht, Bool.and_self]
    | cons c cs ih => simp only [List.cons_append, expandChildren, childrenHaveText, ih]
  cases value with
  | none => exact hchildren
  | some v => exact congrArg ((v.expand f).hasText && ·) hchildren

namespace Store

variable {s : Store} {n : NodeId} {k : Key}

theorem contentAt_succ {depth : Nat} {path : List NodeId} (h : n ∉ path) :
    s.contentAt (depth + 1) path n =
      (Trace.tree (s.cell n).value (s.cell n).children).expand (s.contentAt depth (n :: path)) := by
  rw [contentAt, if_neg h]
  cases (s.cell n).value <;> rfl

theorem hasText_contentAt_of_size_le (h : s.cells.size ≤ n) {depth : Nat} {path : List NodeId} :
    (s.contentAt depth path n).hasText = true := by
  cases depth with
  | zero => rfl
  | succ depth =>
    rw [contentAt]
    split
    · rfl
    · rw [cell_of_size_le h]
      rfl

/-- A node that is added below a cell changes no text of a cell, if its key has a text. -/
theorem hasText_contentAt_grow (hn : n < s.cells.size)
    (hmissing : s.child? (.cell n) k = none) (hk : k.hasText = true) {depth depth' : Nat}
    {path : List NodeId} (hpath : s.Path path) (hdepth : s.cells.size < depth + path.length)
    (hdepth' : s.cells.size < depth' + path.length) (i : NodeId) :
    ((s.grow n k).contentAt depth path i).hasText = (s.contentAt depth' path i).hasText := by
  induction depth generalizing depth' path i with
  | zero =>
    have := hpath.length_le
    omega
  | succ depth ih =>
    cases depth' with
    | zero =>
      have := hpath.length_le
      omega
    | succ depth' =>
      by_cases hmem : i ∈ path
      · simp only [contentAt, if_pos hmem]
      rw [contentAt_succ hmem, contentAt_succ hmem, cell_grow]
      by_cases hi : i < s.cells.size
      · have hnext (j : NodeId) : ((s.grow n k).contentAt depth (i :: path) j).hasText =
            (s.contentAt depth' (i :: path) j).hasText := by
          refine ih (hpath.cons hi hmem) ?_ ?_ j <;> rw [List.length_cons] <;> omega
        split
        · obtain ⟨rfl, -⟩ := ‹i = n ∧ _›
          show (Trace.expand _ (.tree (s.cell i).value
            (insertChild (s.children (.cell i)) k (.cell s.cells.size)))).hasText = _
          rw [insertChild_of_missing hmissing, hasText_expandTrace_congr hnext]
          refine hasText_expand_concat hk ?_ _ _
          exact hasText_contentAt_of_size_le (Nat.le_refl _)
        · exact hasText_expandTrace_congr hnext _
      · have hout : ¬ (i = n ∧ n < s.cells.size + 1) := fun h => hi (h.1 ▸ hn)
        rw [if_neg hout, cell_of_size_le (Nat.le_of_not_lt hi)]
        rfl

/-- A node that is added below a cell changes no text, if its key has a text. -/
theorem hasText_grow (hn : n < s.cells.size) (hmissing : s.child? (.cell n) k = none)
    (hk : k.hasText = true) (v : Value) : (s.grow n k).hasText v = s.hasText v := by
  refine hasText_expand_congr (hasText_contentAt_grow hn hmissing hk .nil ?_ ?_) v
  · rw [depth, size_grow, List.length_nil]
    omega
  · rw [depth, List.length_nil]
    omega

end Store

/-- The nodes that are added on the way to an address change no text, if the address has one. -/
theorem Trace.hasText_reach {a : Address} (ha : a.hasText = true) {t u : Trace} {s s' : Store}
    (h : t.Writable s) (hreach : t.reach a s = .ok u s') (v : Value) :
    s'.hasText v = s.hasText v := by
  induction a generalizing t s with
  | nil =>
    cases hreach
    rfl
  | cons k a ih =>
    obtain ⟨hk, ha⟩ := Bool.and_eq_true_iff.mp ha
    cases hchild : s.child? t k with
    | some x =>
      rw [reach_found hchild] at hreach
      exact ih ha (h.child hchild) hreach
    | none =>
      obtain ⟨n, rfl, hn, hw⟩ := h [] t rfl
      rw [reach_missing hchild hw] at hreach
      exact (ih ha writable_grow hreach).trans (Store.hasText_grow hn hchild hk v)

/-! ## Outlines and contents in two stores -/

/-- A store that has the cells of a machine as they were, as far as they can be reached from
things with a property. -/
structure Machine.KeptIn (m : Machine) (K : Item → Prop) (s : Store) : Prop where
  inherited : m.Hereditary K
  there : ∀ {n}, K (.trace (.cell n)) → n < m.store.cells.size
  size : m.store.cells.size ≤ s.cells.size
  cell : ∀ {n}, K (.trace (.cell n)) → s.cell n = m.store.cell n

section Depth

variable {m : Machine} {K : Item → Prop}

mutual

theorem outline_congr (hK : m.Hereditary K) {f g : NodeId → Trace}
    (hfg : ∀ n, K (.trace (.cell n)) → f n = g n) :
    ∀ t : Trace, K (.trace t) → t.outline f = t.outline g
  | .cell n, h => hfg n h
  | .tree v cs, h => by
    simp only [Trace.outline]
    rw [outlineChildren_congr hK hfg cs fun k t ht => hK h (.child ht)]

theorem outlineChildren_congr (hK : m.Hereditary K) {f g : NodeId → Trace}
    (hfg : ∀ n, K (.trace (.cell n)) → f n = g n) :
    ∀ cs : List (Key × Trace), (∀ k t, (k, t) ∈ cs → K (.trace t)) →
      outlineChildren f cs = outlineChildren g cs
  | [], _ => rfl
  | (k, t) :: rest, h => by
    simp only [outlineChildren]
    rw [outline_congr hK hfg t (h k t List.mem_cons_self),
      outlineChildren_congr hK hfg rest fun k t ht => h k t (List.mem_cons_of_mem _ ht)]

end

mutual

theorem expand_congr (hK : m.Hereditary K) {f g : NodeId → Trace}
    (hfg : ∀ n, K (.trace (.cell n)) → f n = g n) :
    ∀ v : Value, K (.value v) → v.expand f = v.expand g
  | .list vs, h => by
    simp only [Value.expand]
    rw [expandItems_congr hK hfg vs fun u hu => hK h (.item rfl hu)]
  | .tuple vs, h => by
    simp only [Value.expand]
    rw [expandItems_congr hK hfg vs fun u hu => hK h (.item rfl hu)]
  | .quoted v, h => by
    simp only [Value.expand]
    rw [expand_congr hK hfg v (hK h (.item rfl List.mem_cons_self))]
  | .brackets vs, h => by
    have hlist : K (.value (.list vs)) := hK h (.item rfl List.mem_cons_self)
    simp only [Value.expand]
    rw [expandItems_congr hK hfg vs fun u hu => hK hlist (.item rfl hu)]
  | .trace t, h => by
    simp only [Value.expand]
    rw [expandTrace_congr hK hfg t (hK h (.content t))]
  | .closure serial source c name, h => by
    simp only [Value.expand]
    rw [expand_congr hK hfg name (hK h (.name serial source c name))]
  | .null, _ | .bool _, _ | .int _, _ | .float _, _ | .undefined _, _ | .text _, _
  | .symbol _, _ | .tag _ _, _ | .builtin _, _ | .special _, _ => rfl

theorem expandItems_congr (hK : m.Hereditary K) {f g : NodeId → Trace}
    (hfg : ∀ n, K (.trace (.cell n)) → f n = g n) :
    ∀ vs : List Value, (∀ v ∈ vs, K (.value v)) → expandItems f vs = expandItems g vs
  | [], _ => rfl
  | v :: vs, h => by
    simp only [expandItems]
    rw [expand_congr hK hfg v (h v List.mem_cons_self),
      expandItems_congr hK hfg vs fun u hu => h u (List.mem_cons_of_mem _ hu)]

theorem expandTrace_congr (hK : m.Hereditary K) {f g : NodeId → Trace}
    (hfg : ∀ n, K (.trace (.cell n)) → f n = g n) :
    ∀ t : Trace, K (.trace t) → t.expand f = t.expand g
  | .cell n, h => hfg n h
  | .tree none cs, h => by
    simp only [Trace.expand]
    rw [expandChildren_congr hK hfg cs fun k t ht => hK h (.child ht)]
  | .tree (some v) cs, h => by
    simp only [Trace.expand]
    rw [expand_congr hK hfg v (hK h (.held rfl)),
      expandChildren_congr hK hfg cs fun k t ht => hK h (.child ht)]

theorem expandChildren_congr (hK : m.Hereditary K) {f g : NodeId → Trace}
    (hfg : ∀ n, K (.trace (.cell n)) → f n = g n) :
    ∀ cs : List (Key × Trace), (∀ k t, (k, t) ∈ cs → K (.trace t)) →
      expandChildren f cs = expandChildren g cs
  | [], _ => rfl
  | (k, t) :: rest, h => by
    simp only [expandChildren]
    rw [expandTrace_congr hK hfg t (h k t List.mem_cons_self),
      expandChildren_congr hK hfg rest fun k t ht => h k t (List.mem_cons_of_mem _ ht)]

end

/-- What was there stays when a store grows. -/
theorem Store.Grown.keptIn {s : Store} (h : m.store.Grown s) : m.KeptIn m.Sound s where
  inherited := Machine.sound_hereditary
  there hn := hn.cell_lt
  size := h.size
  cell hn := h.old hn.cell_lt

namespace Machine.KeptIn

variable {s : Store} (h : m.KeptIn K s)
include h

theorem value?_eq {t : Trace} (ht : K (.trace t)) : s.value? t = m.store.value? t := by
  cases t with
  | tree _ _ => rfl
  | cell n => rw [Store.value?, Store.value?, h.cell ht]

theorem children_eq {t : Trace} (ht : K (.trace t)) : s.children t = m.store.children t := by
  cases t with
  | tree _ _ => rfl
  | cell n => rw [Store.children, Store.children, h.cell ht]

theorem refers {x y : Item} (hx : K x) (hxy : ({ m with store := s } : Machine).Refers x y) :
    m.Refers x y := by
  cases hxy with
  | item hitems hu => exact .item hitems hu
  | content t => exact .content t
  | overlay ho => exact .overlay ho
  | source serial source c name => exact .source serial source c name
  | scope serial source c name => exact .scope serial source c name
  | name serial source c name => exact .name serial source c name
  | held hv => exact .held (h.value?_eq hx ▸ hv)
  | child hu => exact .child (h.children_eq hx ▸ hu)
  | outer id c => exact .outer id c
  | bound hv => exact .bound hv

/-- From what is kept nothing else can be reached. -/
theorem reached {x y : Item} (hx : K x) (hy : ({ m with store := s } : Machine).Reaches x y) :
    K y := by
  induction hy with
  | refl => exact hx
  | tail _ hstep ih => exact h.inherited ih (h.refers ih hstep)

theorem find?_eq {t : Trace} (ht : K (.trace t)) (a : Address) :
    s.find? t a = m.store.find? t a := by
  induction a generalizing t with
  | nil => rfl
  | cons k a ih =>
    simp only [Store.find?, Store.child?, h.children_eq ht]
    cases hchild : childAt? (m.store.children t) k with
    | none => rfl
    | some u => exact ih (h.inherited ht (.child (mem_of_childAt? hchild)))

section Overlay

variable {overlay : Option Trace} (hoverlay : ∀ t ∈ overlay, K (.trace t))
include hoverlay

/-- Below an overlay there is what was there. -/
theorem find?_below (A a : Address) :
    (overlay.bind (m.store.find? · A)).bind (s.find? · a) =
      overlay.bind (m.store.find? · (A ++ a)) := by
  rw [← bind_find?_append]
  cases overlay with
  | none => rfl
  | some t =>
    simp only [Option.bind_some]
    cases hu : m.store.find? t A with
    | none => rfl
    | some u =>
      exact h.find?_eq (Store.find?_inherits (P := fun t => K (.trace t))
        (fun h' hu => h.inherited h' (.child hu)) (hoverlay t rfl) hu) a

theorem valueAt?_below (A a : Address) :
    (overlay.bind (m.store.find? · A)).bind (s.valueAt? · a) =
      overlay.bind (m.store.valueAt? · (A ++ a)) := by
  have hbelow : ∀ u ∈ overlay.bind (m.store.find? · (A ++ a)), K (.trace u) := by
    intro u hu
    obtain ⟨t, ht, hu⟩ := Option.bind_eq_some_iff.mp hu
    exact Store.find?_inherits (P := fun t => K (.trace t))
      (fun h' hu => h.inherited h' (.child hu)) (hoverlay t ht) hu
  have hvalue {t? : Option Trace} (ht : ∀ t ∈ t?, K (.trace t)) :
      t?.bind s.value? = t?.bind m.store.value? := by
    cases t? with
    | none => rfl
    | some t => exact h.value?_eq (ht t rfl)
  calc (overlay.bind (m.store.find? · A)).bind (s.valueAt? · a)
      = ((overlay.bind (m.store.find? · A)).bind (s.find? · a)).bind s.value? :=
        (Option.bind_assoc _ _ _).symm
    _ = (overlay.bind (m.store.find? · (A ++ a))).bind m.store.value? := by
        rw [h.find?_below hoverlay, hvalue hbelow]
    _ = overlay.bind (m.store.valueAt? · (A ++ a)) := Option.bind_assoc _ _ _

end Overlay

/-- The outline of a cell is the same to all depths that leave no cell out. -/
theorem outlineAt_eq {depth depth' : Nat} {path : List NodeId} {n : NodeId}
    (hpath : m.store.Path path) (hn : K (.trace (.cell n)))
    (hdepth : m.store.cells.size < depth + path.length)
    (hdepth' : m.store.cells.size < depth' + path.length) :
    s.outlineAt depth path n = m.store.outlineAt depth' path n := by
  induction depth generalizing depth' path n with
  | zero =>
    have := hpath.length_le
    omega
  | succ depth ih =>
    cases depth' with
    | zero =>
      have := hpath.length_le
      omega
    | succ depth' =>
      simp only [Store.outlineAt, h.cell hn]
      split
      · rfl
      · rename_i hmem
        have hnext : ∀ i, K (.trace (.cell i)) →
            s.outlineAt depth (n :: path) i = m.store.outlineAt depth' (n :: path) i := by
          intro i hi
          refine ih (hpath.cons (h.there hn) hmem) hi ?_ ?_ <;> rw [List.length_cons] <;> omega
        have hchildren := outlineChildren_congr h.inherited hnext (m.store.cell n).children
          fun k t ht => h.inherited hn (.child ht)
        rw [hchildren]

theorem contentAt_eq {depth depth' : Nat} {path : List NodeId} {n : NodeId}
    (hpath : m.store.Path path) (hn : K (.trace (.cell n)))
    (hdepth : m.store.cells.size < depth + path.length)
    (hdepth' : m.store.cells.size < depth' + path.length) :
    s.contentAt depth path n = m.store.contentAt depth' path n := by
  induction depth generalizing depth' path n with
  | zero =>
    -- No cell is on a path twice, so that the depth lasts for all cells.
    have := hpath.length_le
    omega
  | succ depth ih =>
    cases depth' with
    | zero =>
      have := hpath.length_le
      omega
    | succ depth' =>
      simp only [Store.contentAt, h.cell hn]
      split
      · rfl
      · rename_i hmem
        have hnext : ∀ i, K (.trace (.cell i)) →
            s.contentAt depth (n :: path) i = m.store.contentAt depth' (n :: path) i := by
          intro i hi
          refine ih (hpath.cons (h.there hn) hmem) hi ?_ ?_ <;> rw [List.length_cons] <;> omega
        have hchildren := expandChildren_congr h.inherited hnext (m.store.cell n).children
          fun k t ht => h.inherited hn (.child ht)
        cases hvalue : (m.store.cell n).value with
        | none => simp only [Option.map_none, hchildren]
        | some v =>
          have hv := expand_congr h.inherited hnext v (h.inherited hn (.held hvalue))
          simp only [Option.map_some, hchildren, hv]

theorem outline_eq {t : Trace} (ht : K (.trace t)) : s.outline t = m.store.outline t := by
  have hsize := h.size
  refine outline_congr h.inherited (fun n hn => h.outlineAt_eq .nil hn ?_ ?_) t ht
  · simp only [Store.depth, List.length_nil]
    omega
  · simp only [Store.depth, List.length_nil]
    omega

/-- Outlines of what is kept are kept, if trees of what is kept are. -/
theorem outlines (htree : ∀ {value cs}, (∀ v ∈ value, K (.value v)) →
      (∀ k u, (k, u) ∈ cs → K (.trace u)) → K (.trace (.tree value cs))) :
    s.Outlines (fun t => K (.trace t)) (fun t => K (.trace t)) where
  child ht hu := h.inherited ht (.child (h.children_eq ht ▸ hu))
  cell hn := hn
  tree ht hcs := htree (fun _ hv => h.inherited ht (.held (h.value?_eq ht ▸ hv))) hcs

/-- The content of a cell that is kept. -/
theorem content_eq {n : NodeId} (hn : K (.trace (.cell n))) :
    s.contentAt s.depth [] n = m.store.contentAt m.store.depth [] n := by
  have hsize := h.size
  refine h.contentAt_eq .nil hn ?_ ?_
  · simp only [Store.depth, List.length_nil]
    omega
  · simp only [Store.depth, List.length_nil]
    omega

theorem view_eq {v : Value} (hv : K (.value v)) : s.view v = m.store.view v :=
  expand_congr h.inherited (fun _ => h.content_eq) v hv

theorem viewTrace_eq {t : Trace} (ht : K (.trace t)) :
    s.view (.trace t) = m.store.view (.trace t) :=
  congrArg Value.trace (expandTrace_congr h.inherited (fun _ => h.content_eq) t ht)

/-- Values that are alike have texts in both stores or in none, if the traces inside them and the
names of their closures are kept. -/
theorem hasText_eq {s' : Store} (h' : m.KeptIn K s') {L : Likeness} {v v' : Value}
    (htrace : ∀ {t}, L.trace t → K (.trace t))
    (hname : ∀ {source name i c j d}, L.closure source name i c j d → K (.value name))
    (hv : Value.Alike L v v') : s.hasText v = s'.hasText v' := by
  refine hv.hasText_congr (fun ht => ?_) fun hc => ?_
  · have ht := htrace ht
    exact congrArg Value.hasText ((h.viewTrace_eq ht).trans (h'.viewTrace_eq ht).symm)
  · have hname := hname hc
    exact congrArg Value.hasText ((h.view_eq hname).trans (h'.view_eq hname).symm)

end Machine.KeptIn

/-- The two stores of values that are alike keep the traces inside the values. -/
structure Machine.KeptBy (m : Machine) (K : Item → Prop) (L : Likeness) (s s' : Store) :
    Prop where
  first : m.KeptIn K s
  second : m.KeptIn K s'
  trace : ∀ {t}, L.trace t → K (.trace t)
  name : ∀ {source name i c j d}, L.closure source name i c j d → K (.value name)
  serials : L.Matches L

namespace Machine.KeptBy

variable {L : Likeness} {s s' : Store} {v v' u u' : Value} (h : m.KeptBy K L s s')
include h

theorem value?_eq {t : Trace} (ht : K (.trace t)) : s.value? t = s'.value? t :=
  (h.first.value?_eq ht).trans (h.second.value?_eq ht).symm

theorem children_eq {t : Trace} (ht : K (.trace t)) : s.children t = s'.children t :=
  (h.first.children_eq ht).trans (h.second.children_eq ht).symm

theorem outline_eq {t : Trace} (ht : K (.trace t)) : s.outline t = s'.outline t :=
  (h.first.outline_eq ht).trans (h.second.outline_eq ht).symm

/-- The same is found below an overlay, and it is kept. -/
theorem find?_overlay {overlay : Option Trace} (hoverlay : ∀ t ∈ overlay, K (.trace t))
    (a : Address) :
    overlay.bind (s.find? · a) = overlay.bind (s'.find? · a) ∧
      ∀ u ∈ overlay.bind (s.find? · a), K (.trace u) := by
  cases overlay with
  | none => exact ⟨rfl, fun u hu => nomatch hu⟩
  | some t =>
    have ht := hoverlay t rfl
    have hfirst := h.first.find?_eq ht a
    refine ⟨hfirst.trans (h.second.find?_eq ht a).symm, fun u hu => ?_⟩
    exact Store.find?_inherits (P := fun t => K (.trace t))
      (fun ht hu => h.first.inherited ht (.child hu)) ht (hfirst.symm.trans hu)

theorem view_eq {t : Trace} (ht : L.trace t) : s.view (.trace t) = s'.view (.trace t) :=
  (h.first.viewTrace_eq (h.trace ht)).trans (h.second.viewTrace_eq (h.trace ht)).symm

theorem comparesAlike : ComparesAlike L L s s' := by
  intro t u ht hu
  unfold Store.same
  rw [h.view_eq ht, h.view_eq hu]

theorem hasText_eq (hv : Value.Alike L v v') : s.hasText v = s'.hasText v' :=
  h.first.hasText_eq h.second h.trace h.name hv

theorem same_eq (hv : Value.Alike L v v') (hu : Value.Alike L u u') :
    s.same v u = s'.same v' u' :=
  hv.same_congr h.serials h.comparesAlike hu

theorem relate_eq (r : Relation) (hv : Value.Alike L v v') (hu : Value.Alike L u u') :
    v.relate s r u = v'.relate s' r u' :=
  hv.relate_congr h.serials h.comparesAlike r hu

end Machine.KeptBy

end Depth

end ProbTrace
