import ProbTrace.Proofs.Matching

/-!
# Lexical lookup

Frames are made inside one another over the top level, and names are bound in them at any time,
also after other frames were made inside.  A history of such steps is read in two ways.  A world
performs the steps one after the other.  A history only notes which scope each frame has and
which bindings were made.

In every world that steps lead to, a name has the value that was last bound to it in the nearest
frame that ever bound it, and else what the top level makes of it.  A binding shows for one name
only, and only where no nearer frame binds that name.  A binding that is refused changes nothing.
-/

namespace ProbTrace

/-- The frames of a scope, the innermost one first. -/
def Scope.chain : Scope → List FrameId
  | .frame id outer => id :: outer.chain
  | _ => []

namespace TopLevel

/-- What a top level holds under a name, or the fault it raises. -/
def entry : TopLevel → String → Except Fault Value
  | names entries, n => (entries.lookup n).elim (.error .noValue) .ok
  | rule f, n => f (.text n)

/-- What a top level makes of a name: one that is missing is unbound. -/
def settle (top : TopLevel) (n : String) : Except Fault Value :=
  match top.entry n with
  | .ok v => .ok v
  | .error fault => .error (if fault.kind = .missing then .unbound (.text n) else fault)

theorem resolve_text (top : TopLevel) (n : String) : top.resolve (.text n) = top.settle n := by
  cases top with
  | rule f => rfl
  | names entries =>
    simp only [resolve, settle, entry, Value.isHashable, if_true]
    cases entries.lookup n <;> rfl

end TopLevel

/-- What is left of looking up a name once no frame binds it. -/
def Scope.outermost (top : TopLevel) (n : String) : Scope → Except Fault Value
  | .frame _ outer => outer.outermost top n
  | .top => top.settle n
  | .absent => .error .noSuchOperation

namespace Scoping

/-! ## Steps -/

/-- Where a step takes place: outside of all frames, in a frame that was made before, given by
its number, or in something that is no scope. -/
inductive Place where
  | top
  | made (i : Nat)
  | nowhere

/-- The scope at a place, given the scopes of the frames made so far. -/
def Place.scope (scopes : List Scope) : Place → Scope
  | top => .top
  | made i => scopes[i]?.getD .absent
  | nowhere => .absent

/-- A step that makes a frame or binds a name. -/
inductive Step where
  | make (outer : Place)
  | extend (outer : Place)
  | define (place : Place) (name : String) (v : Value)
  | bind (place : Place) (name : String) (v : Value)

namespace Step

/-- Perform a step.  The result is the scope of the frame that it made. -/
def perform (ctx : Context) (scopes : List Scope) : Step → Run (Option Scope)
  | make outer => return some (← Run.newFrame (outer.scope scopes))
  | extend outer => return some (← Run.extend (outer.scope scopes))
  | define place n v => do
    Run.define ctx (place.scope scopes) (.text n) v
    return none
  | bind place n v => do
    Run.bindName ctx (place.scope scopes) (.text n) v
    return none

/-- What a step is to bind, and where. -/
def binding? : Step → Option (Place × String × Value)
  | define place n v => some (place, n, v)
  | bind place n v => some (place, n, v)
  | _ => none

end Step

/-- The state of a run and the scopes of the frames made so far, in order. -/
structure World where
  machine : Machine
  scopes : List Scope := []

namespace World

/-- A world after one more step.  A step that raises a fault leaves what it did up to there. -/
def step (ctx : Context) (w : World) (s : Step) : World :=
  match s.perform ctx w.scopes w.machine with
  | .ok made m => ⟨m, w.scopes ++ made.toList⟩
  | .error _ m => { w with machine := m }

/-- The world that steps lead to. -/
def after (ctx : Context) (m : Machine) (steps : List Step) : World :=
  steps.foldl (step ctx) { machine := m }

end World

/-! ## Histories -/

/-- What steps did: the scopes of the frames they made, in order, and the bindings, the latest one
first. -/
structure History where
  scopes : List Scope := []
  log : List ((FrameId × String) × Value) := []

namespace History

/-- The value last bound to a name in a frame. -/
def latest? (h : History) (id : FrameId) (n : String) : Option Value :=
  h.log.lookup (id, n)

/-- A history with one more frame. -/
def grow (h : History) (first : FrameId) (outer : Scope) : History :=
  { h with scopes := h.scopes ++ [.frame (first + h.scopes.length) outer] }

/-- A history with one more binding. -/
def note (h : History) (id : FrameId) (n : String) (v : Value) : History :=
  { h with log := ((id, n), v) :: h.log }

/-- A history after one more step.  No frame is made inside of nothing by extending it, and a name
is bound in frames only, unless it is reserved. -/
def record (first : FrameId) (h : History) : Step → History
  | .make outer => h.grow first (outer.scope h.scopes)
  | .extend outer =>
    match outer.scope h.scopes with
    | .absent => h
    | c => h.grow first c
  | .define place n v | .bind place n v =>
    match place.scope h.scopes with
    | .frame id _ => if n = reservedName then h else h.note id n v
    | _ => h

/-- The history of steps.  Frames are numbered from the first one on. -/
def after (first : FrameId) (steps : List Step) : History :=
  steps.foldl (record first) {}

/-- The lexical value of a name in a scope: the one last bound in the nearest frame that ever bound
it, and else what the top level makes of it. -/
def value (top : TopLevel) (h : History) (c : Scope) (n : String) : Except Fault Value :=
  match c.chain.findSome? (h.latest? · n) with
  | some v => .ok v
  | none => c.outermost top n

/-- A scope reaches a frame before any other frame that ever bound a name. -/
def Sees (h : History) (c : Scope) (n : String) (id : FrameId) : Prop :=
  ∃ near far, c.chain = near ++ id :: far ∧ ∀ i ∈ near, h.latest? i n = none

theorem latest?_note (h : History) (id i : FrameId) (n k : String) (v : Value) :
    (h.note id n v).latest? i k = if i = id ∧ k = n then some v else h.latest? i k := by
  simp only [latest?, note, List.lookup_cons]
  by_cases heq : i = id ∧ k = n
  · obtain ⟨rfl, rfl⟩ := heq
    simp
  · have hne : (i, k) ≠ (id, n) := by
      simpa [Prod.ext_iff] using heq
    rw [beq_false_of_ne hne, if_neg heq]

/-- Where no nearer frame binds the name, a new binding is what is found. -/
theorem Sees.value_note {h : History} {c : Scope} {n : String} {id : FrameId}
    (hsees : h.Sees c n id) (top : TopLevel) (v : Value) :
    (h.note id n v).value top c n = .ok v := by
  obtain ⟨near, far, hchain, hnear⟩ := hsees
  have hfound : c.chain.findSome? ((h.note id n v).latest? · n) = some v := by
    rw [hchain, List.findSome?_append, List.findSome?_cons, latest?_note, if_pos ⟨rfl, rfl⟩]
    cases hfind : near.findSome? ((h.note id n v).latest? · n) with
    | none => rfl
    | some w =>
      -- The only binding that may be met earlier is the new one itself.
      obtain ⟨i, hi, hw⟩ := List.exists_of_findSome?_eq_some hfind
      rw [latest?_note] at hw
      split at hw
      · exact hw.symm
      · rw [hnear i hi] at hw
        cases hw
  simp only [value, hfound]

/-- Frames other than the one that is bound are searched as before. -/
theorem findSome?_note {h : History} {n k : String} {id : FrameId} {l : List FrameId}
    (hl : k = n → id ∉ l) (v : Value) :
    l.findSome? ((h.note id n v).latest? · k) = l.findSome? (h.latest? · k) := by
  induction l with
  | nil => rfl
  | cons i l ih =>
    have hi : ¬ (i = id ∧ k = n) := fun hboth => hl hboth.2 (hboth.1 ▸ List.mem_cons_self)
    have htail : k = n → id ∉ l := fun hk hmem => hl hk (List.mem_cons_of_mem i hmem)
    rw [List.findSome?_cons, List.findSome?_cons, latest?_note, if_neg hi, ih htail]

/-- Everywhere else, and for every other name, a new binding shows nothing. -/
theorem value_note_of_not_sees {h : History} {c : Scope} {n k : String} {id : FrameId}
    (hnot : ¬ (k = n ∧ h.Sees c n id)) (top : TopLevel) (v : Value) :
    (h.note id n v).value top c k = h.value top c k := by
  have hfound : c.chain.findSome? ((h.note id n v).latest? · k) =
      c.chain.findSome? (h.latest? · k) := by
    by_cases hmem : k = n ∧ id ∈ c.chain
    · obtain ⟨rfl, hmem⟩ := hmem
      obtain ⟨near, far, hchain, hid⟩ := List.eq_append_cons_of_mem hmem
      have hnear : ¬ ∀ i ∈ near, h.latest? i k = none :=
        fun hnear => hnot ⟨rfl, near, far, hchain, hnear⟩
      cases hfind : near.findSome? (h.latest? · k) with
      | none => exact absurd (List.findSome?_eq_none_iff.mp hfind) hnear
      | some w =>
        rw [hchain, List.findSome?_append, List.findSome?_append,
          findSome?_note fun _ => hid, hfind]
        rfl
    · exact findSome?_note (fun hk hid => hmem ⟨hk, hid⟩) v
  simp only [value, hfound]

end History

/-! ## Binding steps -/

namespace Step

variable {ctx : Context} {scopes : List Scope} {s : Step} {p : Place} {n : String} {v : Value}

/-- A name that is not reserved is bound in the frame at the place. -/
theorem perform_bound (hs : s.binding? = some (p, n, v)) {id : FrameId} {outer : Scope}
    (hp : p.scope scopes = .frame id outer) (hn : n ≠ reservedName) (m : Machine) :
    s.perform ctx scopes m = .ok none (m.bindAll id [(n, v)]) := by
  have hdefine := Run.defineIn_text hn id v m
  cases s with
  | make _ => cases hs
  | extend _ => cases hs
  | define place k u =>
    cases hs
    simp only [perform, hp, Run.define, Bind.bind, EStateM.bind, hdefine]
    rfl
  | bind place k u =>
    cases hs
    simp only [perform, hp, Run.bindName, Bind.bind, EStateM.bind, hdefine]
    rfl

/-- Without a frame at the place, and for the reserved name, there is a fault and nothing else. -/
theorem perform_refused (hs : s.binding? = some (p, n, v))
    (hp : ∀ id outer, p.scope scopes = .frame id outer → n = reservedName) (m : Machine)
    (hlegible : ∀ id outer, p.scope scopes = .frame id outer → m.Legible id []) :
    ∃ fault, s.perform ctx scopes m = .error (.fault fault) m ∧
      (fault.kind = .scope ∨
        fault = .noSuchOperation ∧ s = .define p n v ∧ p.scope scopes = .absent) := by
  have hreserved {id : FrameId} {outer : Scope} (hscope : p.scope scopes = .frame id outer) :
      (m.store.raised (.reservedName (m.bindings id).keys)).kind = .scope := by
    rw [Store.raised_of_hasText (hlegible id outer hscope).reservedName]
    rfl
  cases s with
  | make _ => cases hs
  | extend _ => cases hs
  | define place k u =>
    cases hs
    rw [perform]
    cases hscope : p.scope scopes with
    | top => exact ⟨_, rfl, .inl rfl⟩
    | absent => exact ⟨_, rfl, .inr ⟨rfl, rfl, rfl⟩⟩
    | frame id outer =>
      obtain rfl := hp id outer hscope
      exact ⟨_, rfl, .inl (hreserved hscope)⟩
  | bind place k u =>
    cases hs
    rw [perform]
    cases hscope : p.scope scopes with
    | top => exact ⟨_, rfl, .inl rfl⟩
    | absent => exact ⟨_, rfl, .inl rfl⟩
    | frame id outer =>
      obtain rfl := hp id outer hscope
      exact ⟨_, rfl, .inl (hreserved hscope)⟩

end Step

/-! ## Worlds follow their histories -/

/-- A world in which its history shows.  Frames below the first one are not of this history. -/
structure World.Follows (first : FrameId) (w : World) (h : History) : Prop where
  scopes : w.scopes = h.scopes
  size : w.machine.frames.size = first + h.scopes.length
  made : ∀ c ∈ h.scopes, ∀ id ∈ c.chain, first ≤ id ∧ id < w.machine.frames.size
  solid : ∀ id, first ≤ id → (w.machine.bindings id).Solid
  legible : ∀ id, first ≤ id → w.machine.Legible id []
  latest : ∀ id n, first ≤ id → (w.machine.bindings id).valueAt? [.name n] = h.latest? id n

/-- Where every frame of a scope binds a name as a history has it, looking it up gives its
lexical value. -/
theorem find_eq_value {top : TopLevel} {m : Machine} {h : History} {n : String} {c : Scope}
    (hc : ∀ id ∈ c.chain, (m.bindings id).valueAt? [.name n] = h.latest? id n) :
    c.find top m (.text n) = h.value top c n := by
  induction c with
  | top => exact top.resolve_text n
  | absent => rfl
  | frame id outer ih =>
    obtain ⟨hid, houter⟩ := List.forall_mem_cons.mp hc
    have hown : (Value.text n).address?.bind (m.bindings id).valueAt? = h.latest? id n := hid
    simp only [Scope.find, hown, History.value, Scope.chain, List.findSome?_cons]
    cases h.latest? id n with
    | some v => rfl
    | none => exact ih houter

namespace World.Follows

variable {ctx : Context} {first : FrameId} {w : World} {h : History}

theorem chain_scope (hw : w.Follows first h) (p : Place) :
    ∀ id ∈ (p.scope w.scopes).chain, first ≤ id ∧ id < w.machine.frames.size := by
  cases p with
  | top => exact List.forall_mem_nil _
  | nowhere => exact List.forall_mem_nil _
  | made i =>
    rw [hw.scopes, Place.scope]
    cases hi : h.scopes[i]? with
    | none => exact List.forall_mem_nil _
    | some c => exact hw.made c (List.mem_of_getElem? hi)

theorem of_scope (hw : w.Follows first h) {p : Place} {id : FrameId} {outer : Scope}
    (hp : p.scope w.scopes = .frame id outer) : first ≤ id ∧ id < w.machine.frames.size := by
  refine hw.chain_scope p id ?_
  rw [hp]
  exact List.mem_cons_self

/-- The frames of the world bind names, which have texts. -/
theorem legible_scope (hw : w.Follows first h) {p : Place} (id : FrameId) (outer : Scope)
    (hp : p.scope w.scopes = .frame id outer) : w.machine.Legible id [] :=
  hw.legible id (hw.of_scope hp).1

/-- What is looked up in a world is the lexical value. -/
theorem lookup_eq (hw : w.Follows first h) (p : Place) (n : String) :
    Run.lookup ctx (p.scope w.scopes) (.text n) w.machine =
      Run.ofExcept (h.value ctx.topLevel (p.scope w.scopes) n) w.machine := by
  show Run.ofExcept _ w.machine = _
  rw [find_eq_value fun id hid => hw.latest id n (hw.chain_scope p id hid).1]

theorem start (m : Machine) : World.Follows m.frames.size { machine := m } {} where
  scopes := rfl
  size := rfl
  made := List.forall_mem_nil _
  solid id hid := by
    rw [Machine.bindings_of_size_le hid]
    exact .tree (List.forall_mem_nil _)
  legible id hid := by
    refine ⟨List.forall_mem_nil _, ?_⟩
    rw [Machine.bindings_of_size_le hid]
    exact List.forall_mem_nil _
  latest id n hid := by
    rw [Machine.bindings_of_size_le hid]
    rfl

/-- A new frame inside a scope of the world. -/
theorem grow (hw : w.Follows first h) {outer : Scope}
    (houter : ∀ id ∈ outer.chain, first ≤ id ∧ id < w.machine.frames.size) :
    World.Follows first
      ⟨{ w.machine with frames := w.machine.frames.push .empty },
        w.scopes ++ [.frame w.machine.frames.size outer]⟩ (h.grow first outer) where
  scopes := by rw [History.grow, hw.scopes, hw.size]
  size := by
    simp only [History.grow, Array.size_push, List.length_append, List.length_singleton, hw.size]
    omega
  made := by
    intro c hc id hid
    rw [Array.size_push]
    rcases List.mem_append.mp hc with hc | hc
    · exact (hw.made c hc id hid).imp_right Nat.lt_succ_of_lt
    · obtain rfl := List.mem_singleton.mp hc
      rcases List.mem_cons.mp hid with rfl | hid
      · rw [hw.size]
        exact ⟨Nat.le_add_right _ _, Nat.lt_succ_self _⟩
      · exact (houter id hid).imp_right Nat.lt_succ_of_lt
  solid id hid := by
    rw [Machine.bindings_push]
    exact hw.solid id hid
  legible id hid := by
    refine ⟨List.forall_mem_nil _, ?_⟩
    rw [Machine.bindings_push]
    exact (hw.legible id hid).key
  latest id n hid := by
    rw [Machine.bindings_push]
    exact hw.latest id n hid

/-- A new binding in a frame of the world. -/
theorem note (hw : w.Follows first h) {id : FrameId} (hfirst : first ≤ id)
    (hid : id < w.machine.frames.size) (n : String) (v : Value) :
    World.Follows first { w with machine := w.machine.bindAll id [(n, v)] } (h.note id n v) := by
  have hover := Machine.overridden_bindAll hid (hw.solid id hfirst) [(n, v)]
  refine ⟨hw.scopes, hover.size.trans hw.size, ?_, ?_, ?_, ?_⟩
  · intro c hc i hi
    rw [hover.size]
    exact hw.made c hc i hi
  · intro i hi
    by_cases heq : i = id
    · rw [heq]
      exact hover.solid
    · rw [hover.elsewhere i heq]
      exact hw.solid i hi
  · intro i hi
    by_cases heq : i = id
    · rw [heq]
      exact (hw.legible id hfirst).bindAll [(n, v)]
    · refine ⟨List.forall_mem_nil _, ?_⟩
      rw [hover.elsewhere i heq]
      exact (hw.legible i hi).key
  · intro i k hi
    rw [History.latest?_note, ← hw.latest i k hi]
    by_cases heq : i = id
    · subst heq
      rw [hover.named]
      by_cases hk : k = n
      · subst hk
        simp
      · simp [List.lookup_cons, beq_false_of_ne hk, hk]
    · rw [hover.elsewhere i heq, if_neg fun hboth => heq hboth.1]

theorem bind (hw : w.Follows first h) {s : Step} {p : Place} {n : String} {v : Value}
    (hs : s.binding? = some (p, n, v)) :
    (w.step ctx s).Follows first (h.record first s) := by
  have hrecord : h.record first s = match p.scope w.scopes with
      | .frame id _ => if n = reservedName then h else h.note id n v
      | _ => h := by
    rw [hw.scopes]
    cases s with
    | make _ => cases hs
    | extend _ => cases hs
    | define _ _ _ => cases hs; rfl
    | bind _ _ _ => cases hs; rfl
  by_cases hbound : ∃ id outer, p.scope w.scopes = .frame id outer ∧ n ≠ reservedName
  · obtain ⟨id, outer, hp, hn⟩ := hbound
    obtain ⟨hfirst, hsize⟩ := hw.of_scope hp
    have hstep : w.step ctx s = { w with machine := w.machine.bindAll id [(n, v)] } := by
      simp only [World.step, Step.perform_bound hs hp hn, Option.toList_none, List.append_nil]
    rw [hstep, hrecord, hp]
    simp only [if_neg hn]
    exact hw.note hfirst hsize n v
  -- A binding that is refused leaves the machine as it is, and the history does not note it.
  · have hp : ∀ id outer, p.scope w.scopes = .frame id outer → n = reservedName :=
      fun id outer hp => not_not.mp fun hn => hbound ⟨id, outer, hp, hn⟩
    obtain ⟨fault, hfault, -⟩ : ∃ fault,
        s.perform ctx w.scopes w.machine = .error (.fault fault) w.machine ∧ _ :=
      Step.perform_refused hs hp w.machine hw.legible_scope
    have hstep : w.step ctx s = w := by
      simp only [World.step, hfault]
    have hkept : h.record first s = h := by
      rw [hrecord]
      split
      · rename_i id outer hscope
        rw [if_pos (hp id outer hscope)]
      · rfl
    rw [hstep, hkept]
    exact hw

/-- A step keeps the world at its history. -/
theorem step (hw : w.Follows first h) (s : Step) :
    (w.step ctx s).Follows first (h.record first s) := by
  cases s with
  | make outer =>
    show World.Follows first ⟨_, w.scopes ++ [_]⟩ (h.grow first (outer.scope h.scopes))
    rw [← hw.scopes]
    exact hw.grow (hw.chain_scope outer)
  | extend outer =>
    have houter := hw.chain_scope outer
    simp only [World.step, Step.perform, History.record, ← hw.scopes]
    cases hscope : outer.scope w.scopes with
    | absent => exact hw
    | top =>
      rw [hscope] at houter
      exact hw.grow houter
    | frame id c =>
      rw [hscope] at houter
      exact hw.grow houter
  | define place n v => exact hw.bind rfl
  | bind place n v => exact hw.bind rfl

/-- Every world that steps lead to is at their history. -/
theorem foldl (hw : w.Follows first h) (steps : List Step) :
    (steps.foldl (World.step ctx) w).Follows first (steps.foldl (History.record first) h) := by
  induction steps generalizing w h with
  | nil => exact hw
  | cons s steps ih => exact ih (hw.step s)

end World.Follows

/-! ## Lexical lookup -/

/-- A world in which names have their lexical values by a history, whatever is bound next. -/
structure World.Lexical (ctx : Context) (w : World) (h : History) : Prop where
  /-- A name has the value last bound to it in the nearest frame that ever bound it, and else what
  the top level makes of it. -/
  lookup : ∀ (p : Place) (n : String),
    Run.lookup ctx (p.scope w.scopes) (.text n) w.machine =
      Run.ofExcept (h.value ctx.topLevel (p.scope w.scopes) n) w.machine
  /-- In a frame, a name that is not reserved is bound.  The binding shows for this name only, and
  only in scopes that reach the frame before any other one that ever bound the name. -/
  bound : ∀ (s : Step) (p : Place) (n : String) (v : Value) (id : FrameId) (outer : Scope),
    s.binding? = some (p, n, v) → p.scope w.scopes = .frame id outer → n ≠ reservedName →
    ∃ m', s.perform ctx w.scopes w.machine = .ok none m' ∧
      ∀ (q : Place) (k : String),
        (k = n ∧ h.Sees (q.scope w.scopes) n id →
          Run.lookup ctx (q.scope w.scopes) (.text k) m' = .ok v m') ∧
        (¬ (k = n ∧ h.Sees (q.scope w.scopes) n id) →
          Run.lookup ctx (q.scope w.scopes) (.text k) m' =
            Run.ofExcept (h.value ctx.topLevel (q.scope w.scopes) k) m')
  /-- At the top level, where there is no scope, and for the reserved name, there is a fault and
  nothing is changed. -/
  refused : ∀ (s : Step) (p : Place) (n : String) (v : Value),
    s.binding? = some (p, n, v) →
    (∀ id outer, p.scope w.scopes = .frame id outer → n = reservedName) →
    ∃ fault, s.perform ctx w.scopes w.machine = .error (.fault fault) w.machine ∧
      (fault.kind = .scope ∨
        fault = .noSuchOperation ∧ s = .define p n v ∧ p.scope w.scopes = .absent)

/-- Whatever frames were made and whatever was bound in them, names have their lexical values. -/
theorem World.after_lexical (ctx : Context) (m : Machine) (steps : List Step) :
    (World.after ctx m steps).Lexical ctx (History.after m.frames.size steps) := by
  have hw : (World.after ctx m steps).Follows m.frames.size (History.after m.frames.size steps) :=
    (World.Follows.start m).foldl steps
  refine ⟨hw.lookup_eq, ?_, fun s p n v hs hp =>
    Step.perform_refused hs hp _ hw.legible_scope⟩
  intro s p n v id outer hs hp hn
  obtain ⟨hfirst, hsize⟩ := hw.of_scope hp
  have hnext := hw.note hfirst hsize n v
  refine ⟨_, Step.perform_bound hs hp hn _, fun q k => ⟨?_, ?_⟩⟩
  · rintro ⟨rfl, hsees⟩
    have hvalue := hsees.value_note ctx.topLevel v
    exact (hnext.lookup_eq q k).trans (congrArg (Run.ofExcept · _) hvalue)
  · intro hnot
    have hvalue := History.value_note_of_not_sees hnot ctx.topLevel v
    exact (hnext.lookup_eq q k).trans (congrArg (Run.ofExcept · _) hvalue)

/-- A frame inside another one, both of which bind a name. -/
def nested : List Step :=
  [.make .top, .extend (.made 0), .bind (.made 0) "x" (.int 1), .bind (.made 1) "x" (.int 2)]

/-- A new binding in the outer frame shows there and not in the inner one. -/
theorem World.nested_rebound :
    let ctx : Context := { topLevel := .names [], stream := fun _ => 0 }
    ∃ m', (Step.bind (.made 0) "x" (.int 3)).perform ctx (World.after ctx {} nested).scopes
        (World.after ctx {} nested).machine = .ok none m' ∧
      Run.lookup ctx (.frame 0 .top) (.text "x") m' = .ok (.int 3) m' ∧
      Run.lookup ctx (.frame 1 (.frame 0 .top)) (.text "x") m' = .ok (.int 2) m' := by
  intro ctx
  have hlexical := World.after_lexical ctx {} nested
  obtain ⟨m', hm', hlookup⟩ :=
    hlexical.bound (.bind (.made 0) "x" (.int 3)) _ _ _ 0 .top rfl rfl (by decide)
  have hinner : ¬ (History.after 0 nested).Sees (.frame 1 (.frame 0 .top)) "x" 0 := by
    rintro ⟨near, far, hchain, hnear⟩
    cases near with
    | nil => cases hchain
    | cons i near =>
      obtain rfl : 1 = i := (List.cons.inj hchain).1
      cases hnear 1 List.mem_cons_self
  refine ⟨m', hm', (hlookup (.made 0) "x").1 ⟨rfl, [], [], rfl, List.forall_mem_nil _⟩, ?_⟩
  exact (hlookup (.made 1) "x").2 fun hsees => hinner hsees.2

end Scoping
end ProbTrace
