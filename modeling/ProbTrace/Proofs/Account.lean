import ProbTrace.Proofs.Growth
import ProbTrace.Proofs.Log
import ProbTrace.Proofs.Rebinding
import ProbTrace.Proofs.Sites

/-!
# What a log says of the state

A log accounts for what a run leaves behind.  At an address of the output is the value that
was recorded there last, and under a name of a frame is the value that the frame had when a
pattern with the name was bound in it last.  Frames are opened in the order of their numbers.

Where every pattern is bound at a site of the scope that its frame was opened for, a name that
the scope binds at one site only is bound once.
-/

namespace ProbTrace

/-- Where a run keeps values: at the addresses of its output and under the names of its
frames. -/
inductive Location where
  | output (a : Address)
  | frame (id : FrameId) (name : String)

/-- The value at a location. -/
def Machine.look (m : Machine) (output : Trace) : Location → Option Value
  | .output a => m.store.valueAt? output a
  | .frame id x => (m.bindings id).valueAt? [.name x]

/-- Whether a pattern binds a name. -/
def Trace.bindsName (pattern : Trace) (x : String) : Bool :=
  pattern.patternNames.any (·.isText x)

theorem Shape.bindsName_toTrace (p : Shape) (x : String) :
    p.toTrace.bindsName x = true ↔ x ∈ p.names := by
  unfold Trace.bindsName
  rw [p.patternNames_toTrace, List.any_map, List.any_eq_true]
  constructor
  · rintro ⟨y, hy, hyx⟩
    exact of_decide_eq_true hyx ▸ hy
  · exact fun hx => ⟨x, hx, decide_eq_true rfl⟩

/-- What an entry says of a location: nothing, or what is there from then on. -/
def Event.tells (e : Event) : Location → Option (Option Value)
  | .output a =>
    match e.deed with
    | .recorded v => if e.address = a then some (some v) else none
    | _ => none
  | .frame id x =>
    match e.deed with
    | .bound (.frame j _) pattern bindings =>
      if j = id ∧ pattern.bindsName x = true then some (bindings.valueAt? [.name x]) else none
    | _ => none

/-- The values after the entries of a log, given those before. -/
def after (es : List Event) (look : Location → Option Value) : Location → Option Value :=
  es.foldl (fun look e l => (e.tells l).getD (look l)) look

/-- The frame that an entry says was opened. -/
def Event.opened? (e : Event) : Option FrameId :=
  match e.deed with
  | .opened (.frame id _) _ => some id
  | _ => none

/-- The frames that were opened, one after the other. -/
def openings (es : List Event) : List FrameId :=
  es.filterMap Event.opened?

theorem openings_append {es fs : List Event} : openings (es ++ fs) = openings es ++ openings fs :=
  List.filterMap_append

section After

variable {es fs : List Event} {look : Location → Option Value} {l : Location}

theorem after_append : after (es ++ fs) look = after fs (after es look) :=
  List.foldl_append

theorem after_silent {e : Event} (h : ∀ l, e.tells l = none) : after [e] look = look := by
  funext l
  simp only [after, List.foldl_cons, List.foldl_nil, h, Option.getD_none]

/-- What a log says of a location depends on what was there and on nothing else. -/
theorem after_congr {look' : Location → Option Value} (h : look l = look' l) :
    after es look l = after es look' l := by
  induction es generalizing look look' with
  | nil => exact h
  | cons e es ih =>
    refine ih ?_
    show (e.tells l).getD (look l) = (e.tells l).getD (look' l)
    rw [h]

/-- What is at a location is what some entry says, unless none says anything. -/
theorem after_cases (es : List Event) (look : Location → Option Value) (l : Location) :
    ((∀ e ∈ es, e.tells l = none) ∧ after es look l = look l) ∨
      ∃ e ∈ es, e.tells l = some (after es look l) := by
  induction es generalizing look with
  | nil => exact .inl ⟨fun _ he => (List.not_mem_nil he).elim, rfl⟩
  | cons e es ih =>
    show ((∀ e' ∈ e :: es, _) ∧ after es (fun l => (e.tells l).getD (look l)) l = _) ∨
      ∃ e' ∈ e :: es, e'.tells l = some (after es (fun l => (e.tells l).getD (look l)) l)
    rcases ih fun l => (e.tells l).getD (look l) with ⟨hsilent, hkept⟩ | ⟨e', he', htells⟩
    · rw [hkept]
      cases he : e.tells l with
      | none => exact .inl ⟨List.forall_mem_cons.mpr ⟨he, hsilent⟩, rfl⟩
      | some v => exact .inr ⟨e, List.mem_cons_self, he⟩
    · exact .inr ⟨e', List.mem_cons_of_mem e he', htells⟩

theorem tells_output {e : Event} {a : Address} {x : Option Value} (h : e.tells (.output a) = some x) :
    ∃ v, x = some v ∧ e = ⟨a, .recorded v⟩ := by
  obtain ⟨A, d⟩ := e
  cases d with
  | recorded v =>
    simp only [Event.tells] at h
    split at h
    · rename_i hA
      cases h
      exact ⟨v, rfl, hA ▸ rfl⟩
    · cases h
  | _ => cases h

theorem tells_frame {e : Event} {id : FrameId} {x : String} {v : Option Value}
    (h : e.tells (.frame id x) = some v) : ∃ c pattern bindings,
      e = ⟨e.address, .bound (.frame id c) pattern bindings⟩ ∧ pattern.bindsName x = true ∧
        v = bindings.valueAt? [.name x] := by
  obtain ⟨A, d⟩ := e
  cases d with
  | bound c pattern bindings =>
    cases c with
    | frame j c =>
      simp only [Event.tells] at h
      split at h
      · rename_i hx
        obtain ⟨rfl, hx⟩ := hx
        cases h
        exact ⟨c, pattern, bindings, rfl, hx, rfl⟩
      · cases h
    | _ => cases h
  | _ => cases h

/-- The output holds what was recorded, if no address was written to twice. -/
theorem after_output_iff (h : es.Pairwise Event.Compatible) {A : Address} {v : Value} :
    after es (fun _ => none) (.output A) = some v ↔ ⟨A, .recorded v⟩ ∈ es := by
  constructor
  · intro hv
    rcases after_cases es (fun _ => none) (.output A) with ⟨-, hnone⟩ | ⟨e, he, htells⟩
    · rw [hnone] at hv
      cases hv
    · obtain ⟨w, hw, rfl⟩ := tells_output htells
      rw [hv] at hw
      cases hw
      exact he
  · intro hmem
    rcases after_cases es (fun _ => none) (.output A) with ⟨hsilent, -⟩ | ⟨e, he, htells⟩
    · have htells := hsilent _ hmem
      simp [Event.tells] at htells
    · obtain ⟨w, hw, rfl⟩ := tells_output htells
      rw [hw, recorded_unique h hmem he]

end After

/-- A frame is opened by one entry. -/
theorem opened_unique {es : List Event} (h : (openings es).Nodup) {A B : Address} {id : FrameId}
    {c d : Scope} {source source' : Trace} (hA : ⟨A, .opened (.frame id c) source⟩ ∈ es)
    (hB : ⟨B, .opened (.frame id d) source'⟩ ∈ es) : A = B ∧ c = d ∧ source = source' := by
  by_contra hne
  have hpairs := List.pairwise_filterMap.mp h
  have hsymm : Std.Symm fun e f : Event =>
      ∀ i, e.opened? = some i → ∀ j, f.opened? = some j → i ≠ j :=
    ⟨fun _ _ h i hi j hj heq => h j hj i hi heq.symm⟩
  refine hpairs.forall hA hB (fun heq => hne ?_) id rfl id rfl rfl
  cases heq
  exact ⟨rfl, rfl, rfl⟩

/-! ## Steps of a run -/

/-- Entries account for the step from one machine to another: the values at all locations are
as they say, the frames are opened in the order of their numbers, and what was reached in the
output stays. -/
structure Accounts (output : Trace) (es : List Event) (m m' : Machine) : Prop where
  look : m'.look output = after es (m.look output)
  size : m'.frames.size = m.frames.size + (openings es).length
  opened : openings es = List.range' m.frames.size (openings es).length
  reached : ∀ {a t}, m.store.find? output a = some t → m'.store.find? output a = some t

namespace Accounts

variable {output : Trace} {es fs : List Event} {m m' m'' : Machine}

theorem refl : Accounts output [] m m where
  look := rfl
  size := rfl
  opened := rfl
  reached h := h

theorem append (h : Accounts output es m m') (h' : Accounts output fs m' m'') :
    Accounts output (es ++ fs) m m'' where
  look := by rw [after_append, ← h.look, h'.look]
  size := by
    rw [h'.size, h.size, openings_append, List.length_append, Nat.add_assoc]
  opened := by
    rw [openings_append, List.length_append, ← List.range'_append_1, ← h.opened, ← h.size, ← h'.opened]
  reached ht := h'.reached (h.reached ht)

/-- An entry that says nothing. -/
theorem silent {e : Event} (htells : ∀ l, e.tells l = none) (hopened : e.opened? = none) :
    Accounts output [e] m m := by
  have hnone : openings [e] = [] := by
    simp only [openings, List.filterMap_cons, hopened, List.filterMap_nil]
  refine ⟨(after_silent htells).symm, ?_, ?_, id⟩
  · rw [hnone]
    rfl
  · rw [hnone]
    rfl

/-- Machines with the same store and frames. -/
theorem quiet (hstore : m'.store = m.store) (hframes : m'.frames = m.frames) :
    Accounts output [] m m' := by
  refine ⟨?_, ?_, rfl, ?_⟩
  · funext l
    cases l with
    | output a => rw [Machine.look, hstore]; rfl
    | frame id x => simp only [Machine.look, Machine.bindings, hframes]; rfl
  · rw [hframes]
    rfl
  · rw [hstore]
    exact id

theorem newFrame {A : Address} {c : Scope} {source : Trace} :
    Accounts output [⟨A, .opened (.frame m.frames.size c) source⟩] m
      { m with frames := m.frames.push .empty } := by
  refine ⟨?_, Array.size_push Trace.empty, rfl, id⟩
  rw [after_silent fun l => by cases l <;> rfl]
  funext l
  cases l with
  | output a => rfl
  | frame id x => simp only [Machine.look, Machine.bindings_push]

/-- The bindings of the innermost frame after a pattern was bound in it. -/
theorem bound {A : Address} {c : Scope} {p : Shape} (h : m.Rebound c.innermost? p.names m') :
    Accounts output [⟨A, .bound c p.toTrace (c.bindings m')⟩] m m' := by
  have hstore := h.store
  refine ⟨?_, h.size, rfl, ?_⟩
  · funext l
    simp only [after, List.foldl_cons, List.foldl_nil]
    cases l with
    | output a =>
      rw [Machine.look, hstore]
      rfl
    | frame id x =>
      have hother (hid : c.innermost? ≠ some id) :
          (m'.bindings id).valueAt? [.name x] = (m.bindings id).valueAt? [.name x] := by
        rw [h.others hid]
      cases c with
      | top => exact hother nofun
      | absent => exact hother nofun
      | frame j c =>
        simp only [Event.tells, Machine.look, Scope.bindings]
        -- The event tells of the innermost frame, and there of the names of the pattern only.
        by_cases hj : j = id
        · by_cases hx : p.toTrace.bindsName x = true
          · rw [if_pos ⟨hj, hx⟩, hj]
            rfl
          · rw [if_neg (hx ·.2)]
            exact h.unnamed fun hmem => hx ((p.bindsName_toTrace x).mpr hmem)
        · rw [if_neg (hj ·.1)]
          exact hother fun hid => hj (Option.some.inj hid)
  · rw [hstore]
    exact id

theorem reach {s₀ s : Store} (h : s₀.Extends m.store s) :
    Accounts s₀.next [] m { m with store := s } := by
  refine ⟨?_, rfl, rfl, h.find?⟩
  funext l
  cases l with
  | output a => exact h.valueAt? a
  | frame id x => rfl

theorem put {s₀ s : Store} {A : Address} {v : Value} (h : s₀.Written m.store A v s) :
    Accounts s₀.next [⟨A, .recorded v⟩] m { m with store := s } := by
  refine ⟨?_, rfl, rfl, h.find?⟩
  funext l
  simp only [after, List.foldl_cons, List.foldl_nil]
  cases l with
  | output a =>
    simp only [Event.tells, Machine.look, h.valueAt?]
    by_cases ha : a = A
    · rw [if_pos ha, if_pos ha.symm]
      rfl
    · rw [if_neg ha, if_neg fun h => ha h.symm]
      rfl
  | frame id x => rfl

theorem nodup_openings (h : Accounts output es m m') : (openings es).Nodup := by
  rw [h.opened]
  exact List.nodup_range'

end Accounts

namespace Watched

variable {m : Machine} {o : Overlays Trace} {t : Trace} {v : Value} {s : Store}

/-- A call that can write to its output. -/
theorem recordCall_put (ho : o.output = some t) (hput : t.put (some v) m.store = .ok () s)
    (f : Value) (vs : List Value) :
    (recordCall f vs o v).run m = .ok () { m with store := s } ∧
      (recordCall f vs o v).events m = [⟨[], .recorded v⟩, ⟨[], .returned f vs v⟩] := by
  have hrecord : Evaluator.record o.output v m = .ok () { m with store := s } := by
    rw [ho]
    exact Run.edit_ok hput
  constructor
  · rw [run_recordCall, hrecord]
  · unfold recordCall conclude
    rw [events_bind, run_watch, hrecord, ho]
    rfl

/-- A definition that can write to its output. -/
theorem recordDefinition_put {a : Address} (ho : o.output = some t)
    (hput : (t.reach a >>= fun u => u.put (some v)) m.store = .ok () s)
    (hv : v.isTagAddress = false) :
    (recordDefinition a o v).run m = .ok () { m with store := s } ∧
      (recordDefinition a o v).events m = [⟨[], .recorded v⟩] := by
  unfold recordDefinition
  rw [ho]
  dsimp only
  rw [if_neg (by simp [hv]), run_bind_apply, events_bind, run_watch, Run.edit_ok hput]
  exact ⟨rfl, rfl⟩

theorem recordDefinition_tag (ho : o.output = some t) (a : Address) (hv : v.isTagAddress = true) :
    recordDefinition a o v = pure () := by
  unfold recordDefinition
  rw [ho]
  exact if_pos hv

end Watched

/-! ## Sites -/

/-- A frame was opened for an expression, at an address. -/
def OpenedFor (log : List Event) (id : FrameId) (A : Address) (source : Term) : Prop :=
  ∃ c, ⟨A, .opened (.frame id c) source.toTrace⟩ ∈ log

/-- Sites at an address are sites of the scope that they are in, which is that of the
expression its innermost frame was opened for.  Of frames that were there at the start
nothing is said. -/
def Sited (log : List Event) (start : Nat) (A : Address) (sites : List Site) : Scope → Prop
  | .frame id _ => start ≤ id → ∃ B source q, OpenedFor log id B source ∧ A = B ++ q ∧
      ∀ s ∈ sites, (q ++ s.1, s.2) ∈ source.scopeSites
  | _ => True

/-- A pattern is bound at a site of its scope. -/
def Event.Sited (log : List Event) (start : Nat) (e : Event) : Prop :=
  match e.deed with
  | .bound c pattern _ => ∃ p : Shape, pattern = p.toTrace ∧
      ProbTrace.Sited log start e.address [([], p)] c
  | _ => True

section Sited

variable {log : List Event} {start : Nat} {A : Address} {sites sites' : List Site} {c : Scope}

theorem Sited.mono (h : Sited log start A sites c) (hsub : sites' ⊆ sites) :
    Sited log start A sites' c := by
  cases c with
  | frame id c =>
    intro hid
    obtain ⟨B, source, q, hopened, hA, hsites⟩ := h hid
    exact ⟨B, source, q, hopened, hA, fun s hs => hsites s (hsub hs)⟩
  | _ => exact trivial

theorem Sited.descend {k : Key} (h : Sited log start A (Site.below k sites) c) :
    Sited log start (A ++ [k]) sites c := by
  cases c with
  | frame id c =>
    intro hid
    obtain ⟨B, source, q, hopened, rfl, hsites⟩ := h hid
    refine ⟨B, source, q ++ [k], hopened, List.append_assoc B q [k], fun s hs => ?_⟩
    rw [List.append_assoc]
    exact hsites (k :: s.1, s.2) (Term.mem_below hs)
  | _ => exact trivial

/-- The sites of the expression that a frame is opened for. -/
theorem Sited.opened {id : FrameId} {source : Term}
    (h : ⟨A, .opened (.frame id c) source.toTrace⟩ ∈ log) :
    Sited log start A source.scopeSites (.frame id c) :=
  fun _ => ⟨A, source, [], ⟨c, h⟩, (List.append_nil A).symm, fun _ hs => hs⟩

end Sited

/-! ## Logs of whole runs -/

/-- The log of a run that leaves given values, in which every pattern is bound at a site of
its scope.  Nothing is said of the frames that were there at the start. -/
structure Complete (start : Nat) (log : List Event) (look : Location → Option Value) : Prop where
  compatible : log.Pairwise Event.Compatible
  sited : ∀ e ∈ log, e.Sited log start
  opened : (openings log).Nodup
  output : ∀ a, look (.output a) = after log (fun _ => none) (.output a)
  frame : ∀ {id}, start ≤ id → ∀ x, look (.frame id x) = after log (fun _ => none) (.frame id x)

namespace Complete

variable {start : Nat} {log : List Event} {look : Location → Option Value}
variable (h : Complete start log look)
include h

variable {id : FrameId} {B : Address} {source : Term}

/-- A frame is opened for one expression, so a pattern bound in it is bound at a site of that
expression. -/
theorem site (hid : start ≤ id) (hopened : OpenedFor log id B source) {A : Address} {c : Scope}
    {pattern bindings : Trace} (he : ⟨A, .bound (.frame id c) pattern bindings⟩ ∈ log) :
    ∃ p q, pattern = Shape.toTrace p ∧ A = B ++ q ∧ (q, p) ∈ source.scopeSites := by
  obtain ⟨p, rfl, hsited⟩ := h.sited _ he
  obtain ⟨B', source', q, ⟨d, hd⟩, hA, hsites⟩ := hsited hid
  obtain ⟨d', hd'⟩ := hopened
  obtain ⟨rfl, -, hsource⟩ := opened_unique h.opened hd hd'
  cases Term.toTrace_injective hsource
  have hsite := hsites _ (List.mem_singleton.mpr rfl)
  rw [List.append_nil] at hsite
  exact ⟨p, q, rfl, hA, hsite⟩

/-- A frame has names of the scope that it was opened for only. -/
theorem mem_scopeNames (hid : start ≤ id) (hopened : OpenedFor log id B source) {x : String}
    {v : Value} (hv : look (.frame id x) = some v) : x ∈ source.scopeNames := by
  rw [h.frame hid] at hv
  rcases after_cases log (fun _ => none) (.frame id x) with ⟨-, hnone⟩ | ⟨e, he, htells⟩
  · rw [hnone] at hv
    cases hv
  · obtain ⟨c, pattern, bindings, heq, hx, -⟩ := tells_frame htells
    rw [heq] at he
    obtain ⟨p, q, rfl, -, hsite⟩ := h.site hid hopened he
    exact Term.mem_scopeNames hsite ((p.bindsName_toTrace x).mp hx)

/-- A value that is bound in a frame stays, if the scope binds each name at one site. -/
theorem look_bound (hid : start ≤ id) (hopened : OpenedFor log id B source)
    (hnames : source.scopeNames.Nodup) {A : Address} {c : Scope} {p : Shape} {bindings : Trace}
    (he : ⟨A, .bound (.frame id c) p.toTrace bindings⟩ ∈ log) {x : String} (hx : x ∈ p.names) :
    look (.frame id x) = bindings.valueAt? [.name x] := by
  rw [h.frame hid]
  have hbinds := (p.bindsName_toTrace x).mpr hx
  rcases after_cases log (fun _ => none) (.frame id x) with ⟨hsilent, -⟩ | ⟨e, hmem, htells⟩
  · have htells := hsilent _ he
    simp [Event.tells, hbinds] at htells
  · obtain ⟨c', pattern, bindings', heq, hx', hlook⟩ := tells_frame htells
    rw [heq] at hmem
    obtain ⟨p', q', rfl, hA', hsite'⟩ := h.site hid hopened hmem
    obtain ⟨p'', q, hp, hA, hsite⟩ := h.site hid hopened he
    cases Shape.toTrace_injective hp
    -- Both entries bind the name, so they are at one site, and there only one pattern is bound.
    obtain ⟨rfl, rfl⟩ := Term.site_unique hnames hsite hsite' hx ((p'.bindsName_toTrace x).mp hx')
    rw [hA', ← hA] at hmem
    obtain ⟨-, -, rfl⟩ := bound_unique h.compatible he hmem
    exact hlook

end Complete
end ProbTrace
