import ProbTrace.Proofs.Parallel
import ProbTrace.Proofs.Rebinding

/-!
# A run of syntax trees beside its copy

A run beside its copy has the same store and the same frames.  What is kept along the run is
that all closures that a program can get at are closures of syntax trees, in scopes of frames
that are seen, and that the frames that are seen bind such values only.
-/

namespace ProbTrace

/-- Procedures are closures of syntax trees or procedures of the standard top level. -/
def Item.IsAuthored : Item → Prop
  | .value (.closure _ source _ _) => ∃ p t name, source = (Term.gen p t name).toTrace
  | .value (.special s) => s ≠ .scored
  | _ => True

/-- All procedures that can be reached from a thing are closures of syntax trees or
procedures of the standard top level. -/
def Machine.Authored (m : Machine) : Item → Prop :=
  m.Throughout Item.IsAuthored

/-- Only closures and special procedures have something to show. -/
theorem Item.isAuthored_of {x : Item}
    (hclosure : ∀ serial source c name, x = .value (.closure serial source c name) →
      ∃ p t name, source = (Term.gen p t name).toTrace)
    (hspecial : ∀ s, x = .value (.special s) → s ≠ .scored) : x.IsAuthored := by
  match x with
  | .value (.closure serial source c name) => exact hclosure serial source c name rfl
  | .value (.special s) => exact hspecial s rfl
  | .value .null | .value (.bool _) | .value (.int _) | .value (.float _) | .value (.undefined _)
  | .value (.text _) | .value (.symbol _) | .value (.list _) | .value (.tuple _)
  | .value (.quoted _) | .value (.brackets _) | .value (.trace _) | .value (.tag _ _)
  | .value (.builtin _) | .trace _ | .scope _ => trivial

theorem Machine.Authored.ofData {m : Machine} {x : Item} (h : x.isData = true) : m.Authored x := by
  refine Machine.Throughout.ofData (fun {y} hy => Item.isAuthored_of ?_ ?_) h
  · rintro serial source c name rfl
    cases hy
  · rintro s rfl
    cases hy

/-- A frame that is seen, and itself. -/
def Seen (F : FrameId → Prop) (i j : FrameId) : Prop :=
  i = j ∧ F i

/-- Values of a run of syntax trees, each alike to itself only. -/
def Likeness.copying (F : FrameId → Prop) (trace : Trace → Prop) (label : Value → Prop)
    (overlays : Overlays Trace → Prop) : Likeness where
  trace := trace
  tag i o j p := i = j ∧ o = p ∧ overlays o
  closure source name i c j d := i = j ∧
    ((∃ p t name, source = (Term.gen p t name).toTrace) ∧ label name) ∧ ScopesAlike (Seen F) c d
  special s := s ≠ .scored

/-- The machines of a run and of its copy, some time after the start. -/
structure Pair.Copies (L : Likeness) (F : FrameId → Prop) (start : Nat) (w : Pair) : Prop
    extends w.Same where
  opened : start ≤ w.first.frames.size
  bindings : ∀ {i}, F i → FrameAlike L (w.first.bindings i) (w.first.bindings i)

variable {F : FrameId → Prop} {T : Trace → Prop} {N : Value → Prop} {Q : Overlays Trace → Prop}
variable {start : Nat} {w : Pair} {c : Scope} {v v' : Value}

theorem Likeness.copying_eq (h : Value.Alike (copying F T N Q) v v') : v = v' :=
  h.eq (L := copying F T N Q) (fun ht => ⟨ht.1, ht.2.1⟩) (fun hc => ⟨hc.1, hc.2.2.eq And.left⟩) id

/-- Authored values without tags are alike to themselves. -/
theorem Machine.Authored.covers {m : Machine} {K : Item → Prop} (hK : m.Hereditary K)
    (hauthored : ∀ {x}, K x → x.IsAuthored) (htrace : ∀ t, K (.trace t) → T t)
    (hlabel : ∀ v, K (.value v) → N v)
    (htag : ∀ serial o, K (.value (.tag serial o)) → Q o)
    (hscope : ∀ i c, K (.scope (.frame i c)) → F i) : m.Covers K (.copying F T N Q) where
  inherited := hK
  trace := htrace
  tag serial o h := ⟨rfl, rfl, htag serial o h⟩
  closure serial source c name h := by
    refine ⟨rfl, ⟨hauthored h, hlabel name (hK h (.name serial source c name))⟩, ?_⟩
    have hc := hK h (.scope serial source c name)
    clear h
    induction c with
    | top => exact .top
    | absent => exact .absent
    | frame i c ih => exact .frame ⟨rfl, hscope i c hc⟩ (ih (hK hc (.outer i c)))
  special s h := hauthored h
  undefined _ _ := rfl

namespace Pair.Copies

section Likeness

variable {L : Likeness} (hw : w.Copies L F start)
include hw

theorem frameAlike {i j : FrameId} (h : Seen F i j) :
    FrameAlike L (w.first.bindings i) (w.second.bindings j) := by
  rw [← hw.toSame.bindings, ← h.1]
  exact hw.bindings h.2

/-- What is not in the frames does not matter. -/
theorem quiet {m n : Machine} (hstep : Pair.InStep ⟨m, n⟩) (hstore : m.store = n.store)
    (hframes : m.frames = w.first.frames) (hframes' : n.frames = w.second.frames) :
    Pair.Copies L F start ⟨m, n⟩ := by
  refine ⟨⟨hstep, hstore, ?_⟩, ?_, fun {i} hi => ?_⟩
  · rw [hframes, hframes', hw.frames]
  · rw [hframes]
    exact hw.opened
  · unfold Machine.bindings
    rw [hframes]
    exact hw.bindings hi

theorem withStore (s : Store) :
    Pair.Copies L F start ⟨{ w.first with store := s }, { w.second with store := s }⟩ :=
  hw.quiet ⟨hw.serials, hw.draws, hw.spare⟩ rfl rfl rfl

theorem newFrame : Pair.Copies L F start
    ⟨{ w.first with frames := w.first.frames.push .empty },
      { w.second with frames := w.second.frames.push .empty }⟩ := by
  refine ⟨⟨⟨hw.serials, hw.draws, hw.spare⟩, hw.store, congrArg (·.push .empty) hw.frames⟩, ?_,
    fun {i} hi => ?_⟩
  · exact Nat.le_trans hw.opened (by simp)
  · rw [Machine.bindings_push]
    exact hw.bindings hi

/-- A new frame is seen by the scope inside it. -/
theorem scopesAlike (hF : ∀ {i}, start ≤ i → F i) (h : ScopesAlike (Seen F) c c) :
    ScopesAlike (Seen F) (.frame w.first.frames.size c) (.frame w.second.frames.size c) :=
  .frame ⟨congrArg Array.size hw.frames, hF hw.opened⟩ h

theorem lookup {ctx : Context} (htop : ctx.topLevel = .standard)
    (hspecial : ∀ s, s ≠ .scored → L.special s) (name : String) {d : Scope}
    (h : ScopesAlike (Seen F) c d) :
    Agree L (Value.Alike L) (c.find ctx.topLevel w.first (.text name))
      (d.find ctx.topLevel w.second (.text name)) := by
  rw [htop]
  exact Scope.find_agree hw.frameAlike (TopLevel.resolve_standard_agree hspecial (.text name)) h

end Likeness

variable (hw : w.Copies (.copying F T N Q) F start)
include hw

theorem hasText_eq (hv : Value.Alike (.copying F T N Q) v v') :
    w.first.store.hasText v = w.second.store.hasText v' := by
  rw [hw.store, Likeness.copying_eq hv]

/-- Binding a pattern in both copies of a frame leaves copies. -/
theorem rebinds {m n : Machine} {names : List String}
    (h : Simulation.Rebinds (.copying F T N Q) w c c names ⟨m, n⟩) :
    Pair.Copies (.copying F T N Q) F start ⟨m, n⟩ := by
  have hfirst : w.first.Rebound c.innermost? names m := h.first
  have hsecond : w.second.Rebound c.innermost? names n := h.second
  have heq (id : FrameId) : m.bindings id = n.bindings id := by
    by_cases hid : c.innermost? = some id
    · exact (h.alike hid hid).eq Likeness.copying_eq
    · rw [hfirst.others hid, hsecond.others hid, hw.toSame.bindings]
  have hsize : m.frames.size = n.frames.size := by
    rw [hfirst.size, hsecond.size, hw.frames]
  have hstep : Pair.InStep ⟨m, n⟩ := by
    rw [hfirst.rest, hsecond.rest]
    exact ⟨hw.serials, hw.draws, hw.spare⟩
  refine ⟨⟨hstep, ?_, Machine.frames_eq hsize heq⟩, ?_, fun {i} hi => ?_⟩
  · rw [hfirst.store, hsecond.store, hw.store]
  · rw [hfirst.size]
    exact hw.opened
  · by_cases hid : c.innermost? = some i
    · have hinner := h.alike hid hid
      rw [← heq] at hinner
      exact hinner
    · rw [hfirst.others hid]
      exact hw.bindings hi

/-- Binding a pattern succeeds on both sides or fails on both, with the stores as before. -/
theorem matchBind_cases (ctx : Context) (p : Shape)
    (hdata : ∀ {v : Value}, v.isData = true → Value.Alike (.copying F T N Q) v v)
    (hscope : ScopesAlike (Seen F) c c) (hv : Value.Alike (.copying F T N Q) v v') :
    (∃ m n, Run.matchBind ctx c (.trace p.toTrace) v w.first = .ok () m ∧
      Run.matchBind ctx c (.trace p.toTrace) v' w.second = .ok () n ∧
      w.first.Rebound c.innermost? p.names m ∧ Pair.Copies (.copying F T N Q) F start ⟨m, n⟩) ∨
    ∃ h k m n, Run.matchBind ctx c (.trace p.toTrace) v w.first = .error h m ∧
      Run.matchBind ctx c (.trace p.toTrace) v' w.second = .error k n ∧
      m.store = w.first.store := by
  have hsize {i j : FrameId} (hij : Seen F i j) :
      i < w.first.frames.size ↔ j < w.second.frames.size := by
    rw [hij.1, hw.frames]
  obtain ⟨m, n, hrebinds, ⟨hok, hok'⟩ | ⟨h, k, -, herror, herror'⟩⟩ :=
    p.matchBind_cases ctx hdata hw.hasText_eq hscope.innermost hw.frameAlike hsize hv
  · exact .inl ⟨m, n, hok, hok', hrebinds.first, hw.rebinds hrebinds⟩
  · exact .inr ⟨h, k, m, n, herror, herror', hrebinds.first.store⟩

end Pair.Copies
end ProbTrace
