import ProbTrace.Proofs.Simulation

/-!
# Runs under corresponding overlays

In a parallel simulation the two runs take the same random numbers and as many serial
numbers, and the values that they find in their overlays are alike.  Then what they compute, draw,
observe and force is alike as well, whatever the overlays are; only the writing of the
output remains to be shown.
-/

namespace ProbTrace

/-- Machines that are about to give out the same serial and random numbers. -/
structure Pair.InStep (w : Pair) : Prop where
  serials : w.first.serials = w.second.serials
  draws : w.first.draws = w.second.draws
  spare : w.first.spare = w.second.spare

/-- Machines that are about to give out the same random numbers, after as many serial numbers
on both sides. -/
structure Pair.Counted (w w' : Pair) : Prop where
  serials : ∃ k, w'.first.serials = w.first.serials + k ∧ w'.second.serials = w.second.serials + k
  draws : w'.first.draws = w'.second.draws
  spare : w'.first.spare = w'.second.spare

theorem Pair.InStep.counted {w w' : Pair} (h : w.InStep) (h' : w.Counted w') : w'.InStep where
  serials := by
    obtain ⟨k, hfirst, hsecond⟩ := h'.serials
    rw [hfirst, hsecond, h.serials]
  draws := h'.draws
  spare := h'.spare

/-- Two machines in the same state but for what was noted and reported. -/
structure Pair.Same (w : Pair) : Prop extends w.InStep where
  store : w.first.store = w.second.store
  frames : w.first.frames = w.second.frames

theorem Pair.Same.bindings {w : Pair} (h : w.Same) (id : FrameId) :
    w.first.bindings id = w.second.bindings id := by
  unfold Machine.bindings
  rw [h.frames]

/-- What a call gives is what its overlays observe, if they observe anything.  Calls of `map`
do not look at their overlays. -/
def Observes (s : Store) (o : Overlays Trace) (proc v : Value) : Prop :=
  proc = .special .map ∨ ∀ u ∈ Evaluator.overlayValue? s o.target, v = u

theorem overlayValue?_eq (s : Store) (overlay : Option Trace) :
    Evaluator.overlayValue? s overlay = overlay.bind (s.valueAt? · []) := by
  cases overlay <;> rfl

namespace Simulation

/-- The laws of a simulation of runs under corresponding overlays. -/
structure Parallel (S : Simulation) : Prop extends S.Basic where
  drawn : ∀ {w}, S.related w → w.first.draws = w.second.draws ∧ w.first.spare = w.second.spare
  numbered : ∀ {w}, S.related w → S.like.undefined w.first.serials w.second.serials
  /-- What is not in the store and the frames is free. -/
  quiet : ∀ {w m n}, S.related w →
    m.store = w.first.store → m.frames = w.first.frames →
    n.store = w.second.store → n.frames = w.second.frames →
    w.Counted ⟨m, n⟩ → S.related ⟨m, n⟩ ∧ S.advance w [] ⟨m, n⟩
  alike_of_walked : ∀ {A v v'}, S.assumed ⟨A, .called⟩ → S.walked A v v' → S.Alike v v'
  force : ∀ {w A B a o p v v'}, A = B ++ a → S.site w B o p → S.Alike v v' →
    S.Runs A w (.force a o v) (.force a p v') fun _ => S.walked A
  gave : ∀ {w A v v'}, S.walked A v v' →
    S.Runs A w (.note (.gave v)) (.note (.gave v')) fun _ _ _ => S.Alike v v'
  forced : ∀ {w A o p}, S.assumed ⟨A, .called⟩ → S.related w → S.site w A o p →
    Option.Rel S.Alike (Evaluator.overlayValue? w.first.store o.intervene)
      (Evaluator.overlayValue? w.second.store p.intervene)
  observed : ∀ {w A o p}, S.assumed ⟨A, .called⟩ → S.related w → S.site w A o p →
    Option.Rel S.Alike (Evaluator.overlayValue? w.first.store o.target)
      (Evaluator.overlayValue? w.second.store p.target)
  same : ∀ {w v v' u u'}, S.related w → S.Alike v v' → S.Alike u u' →
    w.first.store.same v u = w.second.store.same v' u'
  relate : ∀ {w v v' u u'} (r : Relation), S.related w → S.Alike v v' → S.Alike u u' →
    v.relate w.first.store r u = v'.relate w.second.store r u'
  captured : ∀ {w w' B o p}, S.related w' → S.site w B o p →
    S.like.tag w'.first.serials o w'.second.serials p
  remark : ∀ {w A d}, d.isRemark = true → S.related w → S.advance w [⟨A, d⟩] w
  checkOutput : ∀ {w A o p}, S.site w A o p →
    S.Runs A w (.checkOutput o) (.checkOutput p) fun _ _ _ => True
  below : ∀ {w A B o p} (a : Address), S.site w B o p →
    S.Runs A w (.watch (Run.edit (o.below a))) (.watch (Run.edit (p.below a)))
      fun w' q r => S.site w' (B ++ a) q r
  /-- What the call was to observe is known of the machines before it. -/
  recordCall : ∀ {w₀ w A f f' vs vs' o p v v'}, S.Alike f f' → ItemsAlike S.like vs vs' →
    S.related w₀ → S.site w₀ A o p → Observes w₀.first.store o f v → S.site w A o p → S.Alike v v' →
    S.Runs A w (.recordCall f vs o v) (.recordCall f' vs' p v') fun _ _ _ => True
  defined : ∀ {w A} (v : Value), S.related w → S.advance w [⟨A, .defined v⟩] w
  recordDefinition : ∀ {w A B a o p v v'}, A = B ++ a → S.site w B o p → S.Alike v v' →
    S.Runs A w (.recordDefinition a o v) (.recordDefinition a p v') fun _ _ _ => True
  returned : ∀ {w A s} (vs : List Value) (v : Value), s = .apply ∨ s = .scored → S.related w →
    S.like.special s → S.advance w [⟨A, .returned (.special s) vs v⟩] w

variable {S : Simulation} {α β γ δ : Type} {A B : Address} {w : Pair}

/-- What is known of related machines can be used. -/
theorem Runs.withRelated {x : Watched α} {y : Watched β} {P : Pair → α → β → Prop}
    (h : S.related w → S.Runs A w x y P) : S.Runs A w x y P :=
  fun hw => h hw hw

section Basic

variable (hS : S.Basic) {v v' : Value}
include hS

/-- Values that are forced alike on both sides. -/
theorem Basic.force {a : Address} {o p : Overlays Trace}
    (hwalked : ∀ {u u'}, S.Alike u u' → S.walked A u u')
    (hforced : S.related w → Option.Rel S.Alike (o.intervene.bind (w.first.store.valueAt? · a))
      (p.intervene.bind (w.second.store.valueAt? · a))) (hv : S.Alike v v') :
    S.Runs A w (.force a o v) (.force a p v') fun _ => S.walked A := by
  refine Runs.withStore fun hw => hS.pureRun (hwalked ?_)
  rcases rel_cases (hforced hw) with ⟨hi, hi'⟩ | ⟨i, i', hi, hi', hii⟩
  · rw [hi, hi']
    exact hv
  · rw [hi, hi']
    exact hii

omit hS in
theorem gave_runs (hadvance : S.related w → S.advance w [⟨A, .gave v⟩] w) (hv : S.Alike v v') :
    S.Runs A w (.note (.gave v)) (.note (.gave v')) fun _ _ _ => S.Alike v v' :=
  (Runs.note fun hw _ => hadvance hw).mono fun _ _ _ _ _ => hv

end Basic

namespace Parallel

variable (hS : S.Parallel)
include hS

/-! ## Numbers and reports -/

theorem fresh {P : Nat → Nat → Prop} (h : S.related w → P w.first.serials w.second.serials) :
    S.Runs A w (.watch Run.fresh) (.watch Run.fresh) fun _ => P := by
  intro hw _
  obtain ⟨hdraws, hspare⟩ := hS.drawn hw
  have hquiet := hS.quiet hw (m := { w.first with serials := w.first.serials + 1 })
    (n := { w.second with serials := w.second.serials + 1 }) rfl rfl rfl rfl
    ⟨⟨1, rfl, rfl⟩, hdraws, hspare⟩
  exact ⟨hquiet.2, hquiet.1, h hw⟩

theorem notify (r q : Notice) :
    S.Runs A w (.watch (Run.notify r)) (.watch (Run.notify q)) fun _ _ _ => True := by
  intro hw _
  obtain ⟨hdraws, hspare⟩ := hS.drawn hw
  have hquiet := hS.quiet hw (m := { w.first with notices := w.first.notices.push r })
    (n := { w.second with notices := w.second.notices.push q }) rfl rfl rfl rfl
    ⟨⟨0, rfl, rfl⟩, hdraws, hspare⟩
  exact ⟨hquiet.2, hquiet.1, trivial⟩

theorem enroll {v v' : Value} (h : S.Alike v v') :
    S.Runs A w (.watch (Run.enroll v)) (.watch (Run.enroll v')) fun _ => S.Alike := by
  intro hw _
  obtain ⟨hdraws, hspare⟩ := hS.drawn hw
  obtain ⟨hserials, halike⟩ := h.enroll (hS.numbered hw)
  have hquiet := hS.quiet hw (m := { w.first with serials := (v.enroll w.first.serials).2 })
    (n := { w.second with serials := (v'.enroll w.second.serials).2 }) rfl rfl rfl rfl
    ⟨hserials, hdraws, hspare⟩
  exact ⟨hquiet.2, hquiet.1, halike⟩

theorem draw (ctx : Context) :
    S.Runs A w (.watch (Run.draw ctx)) (.watch (Run.draw ctx)) fun _ => Eq := by
  intro hw _
  obtain ⟨hdraws, hspare⟩ := hS.drawn hw
  have hquiet := hS.quiet hw (m := { w.first with draws := w.first.draws + 1 })
    (n := { w.second with draws := w.second.draws + 1 }) rfl rfl rfl rfl
    ⟨⟨0, rfl, rfl⟩, congrArg (· + 1) hdraws, hspare⟩
  exact ⟨hquiet.2, hquiet.1, congrArg ctx.stream hdraws⟩

theorem setSpare (z : Option Float) :
    S.Runs A w (.watch (modify fun m => { m with spare := z }))
      (.watch (modify fun m => { m with spare := z })) fun _ _ _ => True := by
  intro hw _
  obtain ⟨hdraws, -⟩ := hS.drawn hw
  have hquiet := hS.quiet hw (m := { w.first with spare := z })
    (n := { w.second with spare := z }) rfl rfl rfl rfl
    ⟨⟨0, rfl, rfl⟩, hdraws, rfl⟩
  exact ⟨hquiet.2, hquiet.1, trivial⟩

theorem pushNote (vs vs' : List Value) :
    S.Runs A w (.watch (modify fun m => { m with notes := m.notes.push vs }))
      (.watch (modify fun m => { m with notes := m.notes.push vs' })) fun _ _ _ => True := by
  intro hw _
  obtain ⟨hdraws, hspare⟩ := hS.drawn hw
  have hquiet := hS.quiet hw (m := { w.first with notes := w.first.notes.push vs })
    (n := { w.second with notes := w.second.notes.push vs' }) rfl rfl rfl rfl
    ⟨⟨0, rfl, rfl⟩, hdraws, hspare⟩
  exact ⟨hquiet.2, hquiet.1, trivial⟩

theorem warnMismatch (ctx : Context) {t t' i i' f f' : Value} (s s' : String)
    (ht : S.Alike t t') (hi : S.Alike i i') (hf : S.Alike f f') :
    S.Runs A w (.watch (Evaluator.warnMismatch ctx t i f s))
      (.watch (Evaluator.warnMismatch ctx t' i' f' s')) fun _ _ _ => True := by
  unfold Evaluator.warnMismatch
  split
  · refine hS.bindRun (hS.compose (.cons ht (.cons hi (.cons hf .nil)))) ?_
    rintro w₁ - - - -
    exact Runs.withStore fun _ => hS.notify _ _
  · exact hS.pureRun trivial

/-- A computation on values that both sides make, with one result. -/
theorem shared {x : Except Fault α} (hx : FailsPlainly x) :
    S.Runs A w (.watch (Run.ofExcept x)) (.watch (Run.ofExcept x)) fun _ => Eq :=
  hS.ofExcept (.self hx fun _ _ => rfl)

theorem deviate (ctx : Context) :
    S.Runs A w (.watch (Random.deviate ctx)) (.watch (Random.deviate ctx)) fun _ => Eq := by
  refine Runs.withMachine fun hw => ?_
  rw [(hS.drawn hw).2]
  refine hS.bindRun (hS.setSpare none) ?_
  rintro w₁ - - - -
  cases w.second.spare with
  | some z => exact hS.pureRun rfl
  | none =>
    refine hS.bindRun (hS.draw ctx) ?_
    rintro w₂ turn _ - rfl
    refine hS.bindRun (hS.draw ctx) ?_
    rintro w₃ u _ - rfl
    refine hS.bindRun (hS.shared ((logOfFloat_plain _).bind fun _ => Random.squareRoot_plain _)) ?_
    rintro w₄ radius _ - rfl
    refine hS.bindRun (hS.setSpare _) ?_
    rintro w₅ - - - -
    exact hS.pureRun rfl

/-! ## Procedures -/

theorem sample (ctx : Context) (dist : Distribution) {vs vs' : List Value}
    (h : ItemsAlike S.like vs vs') :
    S.Runs A w (.watch (dist.sample ctx vs)) (.watch (dist.sample ctx vs')) fun _ => S.Alike := by
  cases dist with
  | flip =>
    match h with
    | .nil => exact hS.raise (.plain rfl)
    | .cons hp .nil =>
      refine hS.bindRun (hS.draw ctx) ?_
      rintro w₁ u _ - rfl
      rw [(Value.Alike.float (L := S.like) u).relateAtoms_eq hp]
      refine hS.bindRun (hS.shared (Value.relateAtoms_plain _ _ _)) ?_
      rintro w₂ b _ - rfl
      exact hS.pureRun (.bool b)
    | .cons _ (.cons _ _) => exact hS.raise (.plain rfl)
  | uniform =>
    match h with
    | .nil => exact hS.raise (.plain rfl)
    | .cons _ .nil => exact hS.raise (.plain rfl)
    | .cons hlow (.cons hhigh .nil) =>
      refine hS.bindRun (hS.ofExcept (hhigh.subtract hlow)) ?_
      rintro w₁ width width' - hwidth
      refine hS.bindRun (hS.draw ctx) ?_
      rintro w₂ u _ - rfl
      refine hS.bindRun (hS.ofExcept ((hwidth.multiply (.float u)).bind fun _ _ h =>
        hlow.add h)) ?_
      rintro w₃ x x' - hx
      exact hS.enroll hx
    | .cons _ (.cons _ (.cons _ _)) => exact hS.raise (.plain rfl)
  | gaussian =>
    match h with
    | .nil => exact hS.raise (.plain rfl)
    | .cons _ .nil => exact hS.raise (.plain rfl)
    | .cons hmean (.cons hdeviation .nil) =>
      refine hS.bindRun (hS.deviate ctx) ?_
      rintro w₁ z _ - rfl
      refine hS.bindRun (hS.ofExcept (((Value.Alike.float z).multiply hdeviation).bind
        fun _ _ h => hmean.add h)) ?_
      rintro w₂ x x' - hx
      exact hS.enroll hx
    | .cons _ (.cons _ (.cons _ _)) => exact hS.raise (.plain rfl)

theorem compute {vs vs' : List Value} (b : Builtin) (hw : S.related w)
    (h : ItemsAlike S.like vs vs') :
    Agree S.like S.Alike (b.compute w.first.store vs) (b.compute w.second.store vs') := by
  cases hb : b.compares with
  | false => exact Builtin.compute_agree _ _ hb h
  | true => exact Builtin.compute_compares hb h (hS.same hw) (hS.relate · hw)

theorem callBuiltin (b : Builtin) {vs vs' : List Value} (h : ItemsAlike S.like vs vs') :
    S.Runs A w (.watch (b.call vs)) (.watch (b.call vs')) fun _ => S.Alike := by
  unfold Builtin.call
  split
  · refine hS.bindRun (hS.pushNote vs vs') ?_
    rintro w₁ - - - -
    exact hS.pureRun (h.getLast?_getD .null)
  · refine Runs.withStore fun hw => ?_
    refine hS.bindRun (hS.ofExcept (hS.compute _ hw h)) ?_
    rintro w₁ v v' - hv
    exact hS.enroll hv

section Call

variable {o p : Overlays Trace} (hcalled : S.assumed ⟨A, .called⟩)
include hcalled

theorem clashes (hw : S.related w) (hsite : S.site w A o p) :
    Watched.clashes w.first.store o = Watched.clashes w.second.store p := by
  unfold Watched.clashes
  rcases rel_cases (hS.observed hcalled hw hsite) with ⟨ht, ht'⟩ | ⟨t, t', ht, ht', htt⟩
  · rw [ht, ht']
  · rcases rel_cases (hS.forced hcalled hw hsite) with ⟨hi, hi'⟩ | ⟨i, i', hi, hi', hii⟩
    · rw [ht, ht', hi, hi']
    · rw [ht, ht', hi, hi']
      simp only [hS.same hw htt hii]

theorem noteClash (hsite : S.site w A o p) :
    S.Runs A w (.noteClash o) (.noteClash p) fun _ _ _ => True := by
  refine hS.bind (P := fun _ => Eq) (hS.readStore fun hw => hS.clashes hcalled hw hsite) ?_
  rintro w₁ clash _ - rfl
  cases clash with
  | false => exact hS.pure trivial
  | true => exact (Runs.note fun hw _ => hS.remark rfl hw).mono fun _ _ _ _ _ => trivial

theorem verdict (ctx : Context) {f f' v v' : Value} (score : Float) (hf : S.Alike f f')
    (hsite : S.site w A o p) (hv : S.Alike v v') :
    S.Runs A w (.watch (Watched.verdict ctx f o v score))
      (.watch (Watched.verdict ctx f' p v' score)) fun _ r q =>
        S.Alike r.1 q.1 ∧ r.2 = q.2 ∧ Observes w.first.store o f r.1 := by
  refine Runs.withStore fun hw => ?_
  dsimp only
  rcases rel_cases (hS.observed hcalled hw hsite) with ⟨ht, ht'⟩ | ⟨t, t', ht, ht', htt⟩
  · rw [ht, ht']
    refine hS.pureRun ⟨?_, rfl, .inr ?_⟩
    · rcases rel_cases (hS.forced hcalled hw hsite) with ⟨hi, hi'⟩ | ⟨i, i', hi, hi', hii⟩
      · rw [hi, hi']
        exact hv
      · rw [hi, hi']
        exact hii
    · rw [ht]
      nofun
  · have hobserves : Observes w.first.store o f t := by
      refine .inr fun u hu => ?_
      rw [ht] at hu
      exact Option.some.inj hu
    rw [ht, ht']
    rcases rel_cases (hS.forced hcalled hw hsite) with ⟨hi, hi'⟩ | ⟨i, i', hi, hi', hii⟩
    · rw [hi, hi']
      exact hS.pureRun ⟨htt, rfl, hobserves⟩
    · rw [hi, hi']
      simp only [hS.same hw htt hii]
      split
      · refine hS.bindRun (hS.warnMismatch ctx _ _ htt hii hf) ?_
        rintro w₁ - - - -
        exact hS.pureRun ⟨htt, rfl, hobserves⟩
      · exact hS.pureRun ⟨htt, rfl, hobserves⟩

theorem choose (ctx : Context) {dist : Distribution} {vs vs' : List Value}
    (hspecial : S.like.special (.random dist)) (hvs : ItemsAlike S.like vs vs')
    (hsite : S.site w A o p) :
    S.Runs A w (.watch (Watched.choose ctx dist vs o)) (.watch (Watched.choose ctx dist vs' p))
      fun _ r q => S.Alike r.1 q.1 ∧ r.2 = q.2 ∧
        Observes w.first.store o (.special (.random dist)) r.1 := by
  refine Runs.withStore fun hw => ?_
  have hdensity {t t' : Value} (ht : S.Alike t t')
      (hobserves : Observes w.first.store o (.special (.random dist)) t) :
      S.Runs A w (.watch (do
          let score ← Run.ofExcept (dist.logDensity w.first.store (t :: vs))
          pure (t, score)))
        (.watch (do
          let score ← Run.ofExcept (dist.logDensity w.second.store (t' :: vs'))
          pure (t', score))) fun _ r q => S.Alike r.1 q.1 ∧ r.2 = q.2 ∧
            Observes w.first.store o (.special (.random dist)) r.1 := by
    rw [dist.logDensity_eq ht hvs fun hx => ⟨hS.relate _ hw hx ht, hS.relate _ hw ht hx⟩]
    refine hS.bindRun (hS.shared (Distribution.logDensity_plain _ _ _)) ?_
    rintro w₁ score _ - rfl
    exact hS.pureRun ⟨ht, rfl, hobserves⟩
  rcases rel_cases (hS.observed hcalled hw hsite) with ⟨ht, ht'⟩ | ⟨t, t', ht, ht', htt⟩
  · have hobserves (v : Value) : Observes w.first.store o (.special (.random dist)) v := by
      refine .inr ?_
      rw [ht]
      nofun
    rcases rel_cases (hS.forced hcalled hw hsite) with ⟨hi, hi'⟩ | ⟨i, i', hi, hi', hii⟩
    · rw [ht, ht', hi, hi']
      refine hS.bindRun (hS.sample ctx dist hvs) ?_
      rintro w₁ v v' - hv
      exact hS.pureRun ⟨hv, rfl, hobserves v⟩
    · rw [ht, ht', hi, hi']
      exact hS.pureRun ⟨hii, rfl, hobserves i⟩
  · have hobserves : Observes w.first.store o (.special (.random dist)) t := by
      refine .inr fun u hu => ?_
      rw [ht] at hu
      exact Option.some.inj hu
    rcases rel_cases (hS.forced hcalled hw hsite) with ⟨hi, hi'⟩ | ⟨i, i', hi, hi', hii⟩
    · rw [ht, ht', hi, hi']
      exact hdensity htt hobserves
    · rw [ht, ht', hi, hi']
      dsimp only
      rw [hS.same hw htt hii]
      split
      · exact hdensity htt hobserves
      · refine hS.bindRun (hS.warnMismatch ctx _ _ htt hii (.special hspecial)) ?_
        rintro w₁ - - - -
        exact hS.pureRun ⟨htt, rfl, hobserves⟩

theorem settle (ctx : Context) {f f' v v' : Value} {vs vs' : List Value} (score : Float)
    (hf : S.Alike f f') (hvs : ItemsAlike S.like vs vs') (hsite : S.site w A o p)
    (hv : S.Alike v v') :
    S.Runs A w (.settle ctx f vs o v score) (.settle ctx f' vs' p v' score) fun _ r q =>
      S.Alike r.1 q.1 ∧ r.2 = q.2 := by
  refine hS.bind (hS.noteClash hcalled hsite) ?_
  rintro w₁ - - hl₁ -
  have hsite₁ := hS.site_of_later hl₁ hsite
  refine Runs.withRelated fun hw₁ => hS.bind (hS.verdict hcalled ctx score hf hsite₁ hv) ?_
  rintro w₂ r q hl₂ ⟨hr, hscore, hobserves⟩
  refine hS.bind (hS.recordCall hf hvs hw₁ hsite₁ hobserves (hS.site_of_later hl₂ hsite₁) hr) ?_
  rintro w₃ - - - -
  exact hS.pure ⟨hr, hscore⟩

theorem applyRandom (ctx : Context) {dist : Distribution} {vs vs' : List Value}
    (hspecial : S.like.special (.random dist)) (hvs : ItemsAlike S.like vs vs')
    (hsite : S.site w A o p) :
    S.Runs A w (.applyRandom ctx dist vs o) (.applyRandom ctx dist vs' p) fun _ r q =>
      S.Alike r.1 q.1 ∧ r.2 = q.2 := by
  refine hS.bind (hS.noteClash hcalled hsite) ?_
  rintro w₁ - - hl₁ -
  have hsite₁ := hS.site_of_later hl₁ hsite
  refine Runs.withRelated fun hw₁ => hS.bind (hS.choose hcalled ctx hspecial hvs hsite₁) ?_
  rintro w₂ r q hl₂ ⟨hr, hscore, hobserves⟩
  refine hS.bind (Runs.note fun hw _ => hS.remark rfl hw) ?_
  rintro w₃ - - hl₃ -
  refine hS.bind (hS.recordCall (.special hspecial) hvs hw₁ hsite₁ hobserves
    (hS.site_of_later (hS.later_trans hl₂ hl₃) hsite₁) hr) ?_
  rintro w₄ - - - -
  exact hS.pure ⟨hr, hscore⟩

end Call

/-- Under corresponding overlays all laws about overlays hold. -/
theorem overlaid (ctx : Context) : S.Overlaid ctx where
  remark := hS.remark
  rejectExpression a hv := by
    refine hS.bindRun (hS.compose (.cons (.ofAddress a) (.cons hv .nil))) ?_
    rintro w₁ - - - -
    refine Runs.withStore fun _ => hS.bindRun (hS.notify _ _) ?_
    rintro w₂ - - - -
    exact hS.raise (.same (.cons hv .nil))
  capture {w A B o p} hsite := by
    refine hS.bindRun (P := fun _ => S.Alike) (hS.bindRun (hS.fresh
      (P := fun i j => S.like.tag i o j p) fun hw => hS.captured hw hsite) ?_) ?_
    · rintro w₁ i j - htag
      exact hS.pureRun (.tag htag)
    · rintro w₁ v v' - hv
      exact hS.pureRun ⟨hv, rfl⟩
  force := hS.force
  gave := hS.gave
  checkOutput := hS.checkOutput
  settle score _ hcalled hf hvs hsite hv :=
    hS.settle hcalled ctx score hf hvs hsite (hS.alike_of_walked hcalled hv)
  applyBuiltin hcalled hvs hsite := by
    refine hS.bind (hS.callBuiltin _ hvs) ?_
    rintro w₁ v v' hl hv
    exact hS.settle hcalled ctx 0.0 (.builtin _) hvs (hS.site_of_later hl hsite) hv
  applyRandom hcalled hspecial hvs hsite := hS.applyRandom hcalled ctx hspecial hvs hsite
  below := hS.below
  recordMap hspecial hvs hsite hv :=
    Runs.withRelated fun hw => hS.recordCall (.special hspecial) hvs hw hsite (.inl rfl) hsite hv
  defined := hS.defined
  recordDefinition := hS.recordDefinition
  returned := hS.returned
  rejectProcedure hv := by
    refine hS.bindRun (hS.compose (.cons hv .nil)) ?_
    rintro w₁ - - - -
    refine Runs.withStore fun _ => hS.bindRun (hS.notify _ _) ?_
    rintro w₂ - - - -
    exact hS.raise (.notAProcedure hv)

end Parallel

end Simulation
end ProbTrace
