import ProbTrace.Proofs.Watched

/-!
# A disagreement makes a run impossible

When a call finds that its overlays force one value and observe another, its score is negative
infinity.  Scores travel by sums only, and a sum with negative infinity is negative infinity
again or no number.  So if every score that is computed is a number, then the score of the
whole run is negative infinity.
-/

namespace ProbTrace

/-! ## Sums -/

namespace Number

open Float.Model

theorem add_negative_infinity (u v : UnpackedFloat)
    (h : u = .infinity .negative ∨ v = .infinity .negative) :
    UnpackedFloat.add .binary64 u v = .infinity .negative ∨
      UnpackedFloat.add .binary64 u v = .notANumber := by
  rcases h with rfl | rfl
  · cases v with
    | infinity sign =>
      cases sign with
      | positive => exact .inr rfl
      | negative => exact .inl rfl
    | notANumber => exact .inr rfl
    | zero _ | finite _ _ _ _ => exact .inl rfl
  · cases u with
    | infinity sign =>
      cases sign with
      | positive => exact .inr rfl
      | negative => exact .inl rfl
    | notANumber => exact .inr rfl
    | zero _ | finite _ _ _ _ => exact .inl rfl

/-- A sum with negative infinity that is a number is negative infinity. -/
theorem add_eq_negativeInfinity {x y : Float} (h : x = negativeInfinity ∨ y = negativeInfinity)
    (hsum : (x + y).isNaN = false) : x + y = negativeInfinity := by
  have hunpack : negativeInfinity.toModel.unpack = .infinity .negative := rfl
  have hnan : (Float.ofModel (pack .notANumber)).isNaN = true := rfl
  have hpack : Float.ofModel (pack (.infinity .negative)) = negativeInfinity := rfl
  have hadd : x + y =
      .ofModel (pack (.add .binary64 x.toModel.unpack y.toModel.unpack)) := rfl
  have hinfinite : x.toModel.unpack = .infinity .negative ∨
      y.toModel.unpack = .infinity .negative := by
    rcases h with rfl | rfl
    · exact .inl hunpack
    · exact .inr hunpack
  rw [hadd] at hsum ⊢
  rcases add_negative_infinity _ _ hinfinite with heq | heq
  · rw [heq, hpack]
  · rw [heq, hnan] at hsum
    cases hsum

end Number

/-! ## Logs with disagreements -/

def Deed.score? : Deed → Option Float
  | .rated x => some x
  | _ => none

theorem Deed.eq_rated {d : Deed} {x : Float} (h : d.score? = some x) : d = .rated x := by
  unfold Deed.score? at h
  split at h
  · cases h
    rfl
  · cases h

def Deed.isClash : Deed → Bool
  | .clashed => true
  | _ => false

theorem Deed.eq_clashed {d : Deed} (h : d.isClash = true) : d = .clashed := by
  unfold Deed.isClash at h
  split at h
  · rfl
  · cases h

/-- Every score in a log is a number. -/
def AllNumbers (es : List Event) : Prop :=
  ∀ a x, ⟨a, .rated x⟩ ∈ es → x.isNaN = false

/-- Somewhere the overlays of a call disagree. -/
def Clashed (es : List Event) : Prop :=
  ∃ a, ⟨a, .clashed⟩ ∈ es

section Logs

variable {es fs : List Event}

instance : Decidable (AllNumbers es) :=
  decidable_of_iff (∀ e ∈ es, ∀ x ∈ e.deed.score?, x.isNaN = false) <| by
    refine ⟨fun h a x hx => h _ hx x rfl, fun h e he x hx => ?_⟩
    exact h e.address x (Deed.eq_rated hx ▸ he)

instance : Decidable (Clashed es) :=
  decidable_of_iff (∃ e ∈ es, e.deed.isClash = true) <| by
    refine ⟨?_, fun ⟨a, ha⟩ => ⟨_, ha, rfl⟩⟩
    rintro ⟨e, he, hd⟩
    exact ⟨e.address, Deed.eq_clashed hd ▸ he⟩

theorem AllNumbers.left (h : AllNumbers (es ++ fs)) : AllNumbers es :=
  fun a x hx => h a x (List.mem_append_left _ hx)

theorem AllNumbers.right (h : AllNumbers (es ++ fs)) : AllNumbers fs :=
  fun a x hx => h a x (List.mem_append_right _ hx)

theorem Clashed.append (h : Clashed (es ++ fs)) : Clashed es ∨ Clashed fs := by
  obtain ⟨a, ha⟩ := h
  exact (List.mem_append.mp ha).imp (fun h => ⟨a, h⟩) fun h => ⟨a, h⟩

end Logs

namespace Watched

variable {α β : Type} {P : α → Prop} {Q : β → Prop} {x : Watched α} {f : α → Watched β}

/-- What a computation gives if all scores are numbers. -/
def Gives (P : α → Prop) (x : Watched α) : Prop :=
  ∀ m a m', x.run m = .ok a m' → AllNumbers (x.events m) → P a

/-- What a computation gives if all scores are numbers and overlays disagree on the way. -/
def Sinks (P : α → Prop) (x : Watched α) : Prop :=
  ∀ m a m', x.run m = .ok a m' → AllNumbers (x.events m) → Clashed (x.events m) → P a

theorem Gives.bind (hx : Gives P x) (hf : ∀ a, P a → Gives Q (f a)) : Gives Q (x >>= f) := by
  intro m b m'' hrun hnumbers
  obtain ⟨a, m', hfirst, hsecond, hevents⟩ := bind_ok hrun
  rw [hevents] at hnumbers
  exact hf a (hx _ _ _ hfirst hnumbers.left) _ _ _ hsecond hnumbers.right

/-- A disagreement in the first step has to reach the end of the second one. -/
theorem Sinks.bind (hx : Sinks P x) (hf : ∀ a, P a → Gives Q (f a)) (hf' : ∀ a, Sinks Q (f a)) :
    Sinks Q (x >>= f) := by
  intro m b m'' hrun hnumbers hclashed
  obtain ⟨a, m', hfirst, hsecond, hevents⟩ := bind_ok hrun
  rw [hevents] at hnumbers hclashed
  rcases hclashed.append with hclashed | hclashed
  · exact hf a (hx _ _ _ hfirst hnumbers.left hclashed) _ _ _ hsecond hnumbers.right
  · exact hf' a _ _ _ hsecond hnumbers.right hclashed

theorem gives_pure {a : α} (h : P a) : Gives P (pure a) := by
  intro m b m' hrun _
  cases hrun
  exact h

theorem gives_any : Gives (fun _ => True) x :=
  fun _ _ _ _ _ => trivial

/-- A step that makes no entries. -/
theorem sinks_watch {r : Run α} : Sinks P (watch r) := by
  rintro m a m' - - ⟨b, hb⟩
  cases hb

theorem sinks_pure {a : α} : Sinks P (pure a) := by
  rintro m b m' - - ⟨c, hc⟩
  cases hc

/-- An entry of another kind. -/
theorem sinks_note (d : Deed) (h : d ≠ .clashed) {P : Unit → Prop} : Sinks P (note d) := by
  rintro m _ m' - - ⟨b, hb⟩
  cases List.mem_singleton.mp hb
  exact (h rfl).elim

/-- A step in which nothing can disagree. -/
theorem Sinks.skip (hx : Sinks (fun _ => False) x) (hf : ∀ a, Sinks Q (f a)) : Sinks Q (x >>= f) :=
  hx.bind (fun _ h => h.elim) hf

theorem Gives.skip (hf : ∀ a, Gives Q (f a)) : Gives Q (x >>= f) :=
  gives_any.bind fun a _ => hf a

theorem Sinks.within (a : Address) (h : Sinks P x) : Sinks P (within a x) := by
  intro m b m' hrun hnumbers ⟨c, hc⟩
  refine h _ _ _ hrun (fun e y hy => hnumbers (a ++ e) y (List.mem_map.mpr ⟨_, hy, rfl⟩)) ?_
  obtain ⟨⟨e, d⟩, he, heq⟩ := List.mem_map.mp hc
  cases heq
  exact ⟨e, he⟩

/-! ## Scores -/

/-- A score that says a run is impossible. -/
def Impossible (score : Float) : Prop :=
  score = Number.negativeInfinity

/-- The same of a score that is a value. -/
def ImpossibleValue (score : Value) : Prop :=
  score = .float Number.negativeInfinity

theorem gives_rate {first second : Float} (h : Impossible first ∨ Impossible second) :
    Gives Impossible (rate (first + second)) := by
  intro m total m' hrun hnumbers
  cases hrun
  exact Number.add_eq_negativeInfinity h (hnumbers [] _ List.mem_cons_self)

theorem sinks_rate {P : Float → Prop} (score : Float) : Sinks P (rate score) :=
  (sinks_note (.rated score) nofun).skip fun _ => sinks_pure

theorem gives_addScore {total : Float} {score : Value}
    (h : Impossible total ∨ ImpossibleValue score) : Gives Impossible (addScore total score) := by
  unfold addScore
  intro m sum m' hrun hnumbers
  obtain ⟨rated, m₁, hadd, hrate, hevents⟩ := bind_ok hrun
  rw [hevents] at hnumbers
  obtain ⟨x, hx, hsum⟩ : ∃ x, score.toFloat = .ok x ∧ total + x = rated := by
    rw [run_watch, Evaluator.addScore] at hadd
    cases hscore : score.toFloat with
    | error f =>
      rw [hscore] at hadd
      cases hadd
    | ok x =>
      rw [hscore] at hadd
      cases hadd
      exact ⟨x, rfl, rfl⟩
  rw [← hsum] at hrate hnumbers
  refine gives_rate (h.imp id ?_) _ _ _ hrate hnumbers.right
  rintro rfl
  cases hx
  rfl

theorem sinks_addScore {P : Float → Prop} (total : Float) (score : Value) :
    Sinks P (addScore total score) :=
  sinks_watch.skip fun sum => sinks_rate sum

/-! ## Calls -/

variable {ctx : Context} {calls : Calls} {o : Overlays Trace} {proc value : Value}

theorem sinks_recordCall {inputs : List Value} {P : Unit → Prop} :
    Sinks P (recordCall proc inputs o value) := by
  have hreturned : Sinks P (note (.returned proc inputs value)) :=
    sinks_note (.returned proc inputs value) nofun
  refine sinks_watch.skip fun _ => ?_
  unfold conclude
  split
  · exact (sinks_note (.recorded value) nofun).skip fun _ => hreturned
  · exact hreturned

theorem eq_of_then_pure {g : Run α} {b r : β} {m m' : Machine}
    (h : (g >>= fun _ => pure b : Run β) m = .ok r m') : r = b := by
  change EStateM.bind g (fun _ => pure b) m = _ at h
  unfold EStateM.bind at h
  split at h
  · cases h
    rfl
  · cases h

/-- A call whose overlays disagree has an impossible verdict, and so has one whose score was
impossible already. -/
theorem verdict_impossible {score : Float} {m m' : Machine} {r : Value × Float}
    (h : verdict ctx proc o value score m = .ok r m')
    (hclash : clashes m.store o = true ∨ Impossible score) : Impossible r.2 := by
  rw [verdict, Run.store_bind] at h
  unfold clashes at hclash
  revert h hclash
  cases Evaluator.overlayValue? m.store o.target with
  | none =>
    rintro h (hclash | hscore)
    · cases hclash
    · cases h
      exact hscore
  | some observed =>
    cases Evaluator.overlayValue? m.store o.intervene with
    | none =>
      rintro h (hclash | hscore)
      · cases hclash
      · cases h
        exact hscore
    | some forced =>
      dsimp only
      cases m.store.same observed forced with
      | true =>
        rintro h (hclash | hscore)
        · cases hclash
        · cases h
          exact hscore
      | false =>
        -- Whatever the score was, values that disagree make it impossible.
        rintro h -
        rw [eq_of_then_pure h]
        rfl

theorem choose_impossible {d : Distribution} {inputs : List Value} {m m' : Machine}
    {r : Value × Float} (h : choose ctx d inputs o m = .ok r m')
    (hclash : clashes m.store o = true) : Impossible r.2 := by
  rw [choose, Run.store_bind] at h
  unfold clashes at hclash
  revert h hclash
  cases Evaluator.overlayValue? m.store o.target with
  | none => rintro - ⟨⟩
  | some observed =>
    cases Evaluator.overlayValue? m.store o.intervene with
    | none => rintro - ⟨⟩
    | some forced =>
      dsimp only
      cases m.store.same observed forced with
      | true => rintro - ⟨⟩
      | false =>
        rintro h -
        rw [eq_of_then_pure h]
        rfl

theorem clashes_of_clashed {m : Machine} (h : Clashed ((noteClash o).events m)) :
    clashes m.store o = true := by
  have hevents : (noteClash o).events m =
      (if clashes m.store o then note .clashed else pure () : Watched Unit).events m := rfl
  rw [hevents] at h
  cases hclash : clashes m.store o with
  | true => rfl
  | false =>
    rw [hclash] at h
    obtain ⟨a, ha⟩ := h
    cases ha

/-- A call notes that its overlays disagree, decides its result and concludes with it. -/
theorem sinks_noteClash {g : Run α} {k : α → Watched α}
    (hg : ∀ {m a m'}, g m = .ok a m' → clashes m.store o = true → P a)
    (hk : ∀ a, Gives (· = a) (k a)) (hk' : ∀ a, Sinks (fun _ => False) (k a)) :
    Sinks P (noteClash o >>= fun _ => watch g >>= k) := by
  intro m b m' hrun hnumbers hclashed
  obtain ⟨_, m₁, hnote, hrest, hevents⟩ := bind_ok hrun
  rw [hevents] at hnumbers hclashed
  rw [run_noteClash] at hnote
  cases hnote
  obtain ⟨a, m₂, hdecide, hconclude, hevents'⟩ := bind_ok hrest
  rw [hevents'] at hnumbers hclashed
  obtain rfl := hk a _ _ _ hconclude hnumbers.right.right
  rcases hclashed.append with hclashed | hclashed
  · exact hg hdecide (clashes_of_clashed hclashed)
  · rcases hclashed.append with ⟨c, hc⟩ | hclashed
    · cases hc
    · exact (hk' b _ _ _ hconclude hnumbers.right.right hclashed).elim

theorem gives_conclusion {inputs : List Value} {r : Value × β} :
    Gives (· = r) (recordCall proc inputs o r.1 >>= fun _ => pure r) :=
  Gives.skip fun _ => gives_pure rfl

theorem sinks_conclusion {inputs : List Value} {r : Value × β} :
    Sinks (fun _ => False) (recordCall proc inputs o r.1 >>= fun _ => pure r) :=
  sinks_recordCall.skip fun _ => sinks_pure

theorem sinks_settle {inputs : List Value} {score : Float} :
    Sinks (fun r => Impossible r.2) (settle ctx proc inputs o value score) :=
  sinks_noteClash (fun h hclash => verdict_impossible h (.inl hclash)) (fun _ => gives_conclusion)
    fun _ => sinks_conclusion

theorem gives_settle {inputs : List Value} {score : Float} (h : Impossible score) :
    Gives (fun r => Impossible r.2) (settle ctx proc inputs o value score) := by
  refine Gives.skip fun _ => Gives.bind (P := fun r => Impossible r.2) ?_ fun r hr =>
    Gives.skip fun _ => gives_pure hr
  exact fun m r m' hrun _ => verdict_impossible hrun (.inr h)

theorem sinks_applyRandom {d : Distribution} {inputs : List Value} :
    Sinks (fun r => Impossible r.2) (applyRandom ctx d inputs o) :=
  sinks_noteClash choose_impossible (fun _ => Gives.skip fun _ => gives_conclusion) fun r =>
    (sinks_note (.rated r.2) nofun).skip fun _ => sinks_conclusion

/-- Recursive calls whose scores are impossible if overlays disagree on the way. -/
structure SinksCalls (calls : Calls) : Prop where
  walk : ∀ {e c a o}, Sinks (fun r => Impossible r.2) (calls.walk e c a o)
  apply : ∀ {f v o}, Sinks (fun r => ImpossibleValue r.2) (calls.apply f v o)

section Calls

variable (hcalls : SinksCalls calls) {e : Trace} {c : Scope} {a : Address}

theorem gives_mapItems (i : Nat) {total : Float} (h : Impossible total) (vs : List Value) :
    Gives (fun r => Impossible r.2) (mapItems calls proc o i total vs) := by
  induction vs generalizing i total with
  | nil => exact gives_pure h
  | cons v vs ih =>
    refine Gives.skip fun _ => Gives.skip fun r => ?_
    refine (gives_addScore (.inl h)).bind fun sum hsum => ?_
    exact (ih (i + 1) hsum).bind fun _ hr => gives_pure hr

include hcalls

theorem sinks_mapItems (i : Nat) (total : Float) (vs : List Value) :
    Sinks (fun r => Impossible r.2) (mapItems calls proc o i total vs) := by
  induction vs generalizing i total with
  | nil => exact sinks_pure
  | cons v vs ih =>
    refine sinks_watch.skip fun _ => (hcalls.apply.within [.index i]).bind ?_ ?_
    · intro r hr
      refine (gives_addScore (.inr hr)).bind fun sum hsum => ?_
      exact (gives_mapItems (i + 1) hsum vs).bind fun _ hr => gives_pure hr
    · intro r
      refine (sinks_addScore total r.2).skip fun sum => ?_
      exact (ih (i + 1) sum).bind (fun _ hr => gives_pure hr) fun _ => sinks_pure

theorem sinks_applySpecial (s : Special) (inputs : List Value) :
    Sinks (fun r => ImpossibleValue r.2) (applySpecial ctx calls s inputs o) := by
  cases s with
  | apply =>
    rcases inputs with _ | ⟨proc, _ | ⟨args, _ | ⟨_, _⟩⟩⟩
    · exact sinks_watch
    · exact sinks_watch
    · refine hcalls.apply.bind (fun r hr => Gives.skip fun _ => gives_pure hr) fun r => ?_
      exact (sinks_note (.returned (.special .apply) [proc, args] r.1) (by rintro ⟨⟩)).skip
        fun _ => sinks_pure
    · exact sinks_watch
  | map =>
    rcases inputs with _ | ⟨proc, _ | ⟨sequence, _ | ⟨_, _⟩⟩⟩
    · exact sinks_watch
    · exact sinks_watch
    · cases hitems : sequence.items? with
      | none =>
        simp only [applySpecial, hitems]
        exact sinks_watch
      | some items =>
        simp only [applySpecial, hitems]
        refine (sinks_mapItems hcalls 0 0.0 items).bind (fun r hr => ?_) fun _ => ?_
        · exact Gives.skip fun _ => gives_pure (congrArg Value.float hr)
        · exact sinks_recordCall.skip fun _ => sinks_pure
    · exact sinks_watch
  | random d =>
    exact sinks_applyRandom.bind (fun r hr => gives_pure (congrArg Value.float hr))
      fun _ => sinks_pure
  | scored =>
    rcases inputs with _ | ⟨v, _ | ⟨score, _⟩⟩
    · exact sinks_watch
    · exact sinks_watch
    · exact (sinks_note (.returned _ _ v) (by rintro ⟨⟩)).skip fun _ => sinks_pure

theorem sinks_evalFrom : Sinks (fun r => Impossible r.2) (evalFrom calls e c o) :=
  sinks_watch.skip fun _ => hcalls.walk

omit hcalls in
theorem sinks_bindPattern {pattern : Trace} {P : Unit → Prop} :
    Sinks P (bindPattern ctx c pattern value) :=
  sinks_watch.skip fun _ => sinks_watch.skip fun m =>
    sinks_note (.bound c pattern (c.bindings m)) nofun

omit hcalls in
theorem sinks_openFrame {source : Trace} {P : Scope → Prop} : Sinks P (openFrame source c) :=
  sinks_watch.skip fun frame => (sinks_note (.opened frame source) nofun).skip fun _ => sinks_pure

theorem sinks_applyClosure (source : Trace) :
    Sinks (fun r => Impossible r.2) (applyClosure ctx calls source c value o) := by
  refine Sinks.skip ?_ fun _ => sinks_evalFrom hcalls
  refine sinks_openFrame.skip fun frame => sinks_watch.skip fun pattern => ?_
  exact sinks_bindPattern.skip fun _ => sinks_watch.skip fun _ => sinks_pure

theorem sinks_applyWith :
    Sinks (fun r => ImpossibleValue r.2) (applyWith ctx calls proc value o) := by
  have hfloat {r : Value × Float} (hr : Impossible r.2) :
      Gives (fun q => ImpossibleValue q.2) (pure (r.1, Value.float r.2) : Watched (Value × Value)) :=
    gives_pure (congrArg Value.float hr)
  refine (sinks_note .called nofun).skip fun _ => sinks_watch.skip fun items =>
    sinks_watch.skip fun _ => ?_
  cases proc with
  | special s => exact sinks_applySpecial hcalls s items
  | closure serial source scope name =>
    refine (sinks_applyClosure hcalls source).bind (fun r hr => ?_) fun r => ?_
    · exact (gives_settle hr).bind fun _ hq => hfloat hq
    · exact sinks_settle.bind (fun _ hq => hfloat hq) fun _ => sinks_pure
  | builtin b =>
    exact (sinks_watch.skip fun _ => sinks_settle).bind (fun _ hq => hfloat hq) fun _ => sinks_pure
  | _ => exact sinks_watch

/-! ## Forms -/

theorem sinks_descend (key : Key) :
    Sinks (fun r => Impossible r.2) (descend calls e c a key o) :=
  .within [key] (hcalls.walk.bind (fun _ hr => Gives.skip fun _ => gives_pure hr) fun r =>
      (sinks_note (.gave r.1) nofun).skip fun _ => sinks_pure)

omit hcalls in
theorem gives_walkParts (left i : Nat) {total : Float} (h : Impossible total) :
    Gives (fun r => Impossible r.2) (walkParts calls e c a o left i total) := by
  induction left generalizing i total with
  | zero => exact gives_pure h
  | succ left ih =>
    refine Gives.skip fun _ => Gives.skip fun r => ?_
    refine (gives_rate (.inl h)).bind fun sum hsum => ?_
    exact (ih (i + 1) hsum).bind fun _ hr => gives_pure hr

theorem sinks_walkParts (left i : Nat) (total : Float) :
    Sinks (fun r => Impossible r.2) (walkParts calls e c a o left i total) := by
  induction left generalizing i total with
  | zero => exact sinks_pure
  | succ left ih =>
    refine sinks_watch.skip fun sub => (sinks_descend hcalls (.index i)).bind ?_ ?_
    · intro r hr
      refine (gives_rate (.inr hr)).bind fun sum hsum => ?_
      exact (gives_walkParts left (i + 1) hsum).bind fun _ hr => gives_pure hr
    · intro r
      refine (sinks_rate (total + r.2)).skip fun sum => ?_
      exact (ih (i + 1) sum).bind (fun _ hr => gives_pure hr) fun _ => sinks_pure

omit hcalls in
theorem sinks_invoke {P : Key × Overlays Trace → Prop} : Sinks P (invoke e a proc o) := by
  refine Sinks.skip ?_ fun key => ?_
  · exact sinks_watch.skip fun _ => sinks_watch
  · exact sinks_watch.skip fun _ => ((sinks_note .invoked nofun).within [key]).skip fun _ =>
      sinks_watch.skip fun _ => sinks_pure

theorem sinks_walkApplication :
    Sinks (fun r => Impossible r.2) (walkApplication calls e c a o) := by
  refine sinks_watch.skip fun count => (sinks_walkParts hcalls count 0 0.0).bind ?_ ?_
  · intro r hr
    refine Gives.skip fun _ => Gives.skip fun q => ?_
    exact (gives_addScore (.inl hr)).bind fun _ hsum => gives_pure hsum
  · intro r
    refine sinks_invoke.skip fun call => (hcalls.apply.within [call.1]).bind ?_ ?_
    · exact fun q hq => (gives_addScore (.inr hq)).bind fun _ hsum => gives_pure hsum
    · exact fun q => (sinks_addScore r.2 q.2).skip fun _ => sinks_pure

theorem sinks_walkConditional :
    Sinks (fun r => Impossible r.2) (walkConditional calls e c a o) := by
  refine sinks_watch.skip fun _ => (sinks_descend hcalls (.name "predicate")).bind ?_ ?_
  · intro r hr
    refine Gives.skip fun _ => Gives.skip fun _ => Gives.skip fun q => ?_
    exact (gives_rate (.inl hr)).bind fun _ hsum => gives_pure hsum
  · intro r
    refine sinks_watch.skip fun _ => sinks_watch.skip fun _ => (sinks_descend hcalls _).bind ?_ ?_
    · exact fun q hq => (gives_rate (.inr hq)).bind fun _ hsum => gives_pure hsum
    · exact fun q => (sinks_rate (r.2 + q.2)).skip fun _ => sinks_pure

theorem sinks_walkBlock : Sinks (fun r => Impossible r.2) (walkBlock calls e c a o) := by
  refine sinks_openFrame.skip fun frame => sinks_watch.skip fun count => ?_
  exact (sinks_walkParts hcalls count 0 0.0).bind (fun _ hr => gives_pure hr) fun _ => sinks_pure

omit hcalls in
theorem sinks_define {key : Key} {pattern : Trace} {P : Unit → Prop} :
    Sinks P (define ctx c a key o pattern value) := by
  refine .within [key] (sinks_bindPattern.skip fun _ =>
    (sinks_note (.defined value) nofun).skip fun _ => ?_)
  unfold recordDefinition
  split
  · split
    · exact sinks_pure
    · exact sinks_watch.skip fun _ => sinks_note (.recorded value) (by rintro ⟨⟩)
  · exact sinks_pure

theorem sinks_walkDefinition :
    Sinks (fun r => Impossible r.2) (walkDefinition ctx calls e c a o) := by
  refine Sinks.skip ?_ fun opened => (sinks_descend hcalls opened.2.1).bind ?_ ?_
  · exact sinks_watch.skip fun _ => sinks_watch.skip fun _ => sinks_watch.skip fun _ => sinks_pure
  · exact fun r hr => Gives.skip fun _ => gives_pure hr
  · exact fun r => sinks_define.skip fun _ => sinks_pure

theorem sinks_walkWithAddress :
    Sinks (fun r => Impossible r.2) (walkWithAddress calls e c a o) := by
  refine sinks_watch.skip fun _ => (sinks_descend hcalls (.name "tag")).bind ?_ ?_
  · intro r hr
    refine Gives.skip fun _ => Gives.skip fun q => ?_
    exact (gives_rate (.inl hr)).bind fun _ hsum => gives_pure hsum
  · intro r
    refine Sinks.skip ?_ fun resolved => (sinks_evalFrom hcalls).bind ?_ ?_
    · exact (sinks_note .relocated nofun).skip fun _ =>
        sinks_watch.skip fun _ => sinks_watch.skip fun _ => sinks_pure
    · exact fun q hq => (gives_rate (.inr hq)).bind fun _ hsum => gives_pure hsum
    · exact fun q => (sinks_rate (r.2 + q.2)).skip fun _ => sinks_pure

theorem sinks_walkWith : Sinks (fun r => Impossible r.2) (walkWith ctx calls e c a o) := by
  refine sinks_watch.skip fun kind => ?_
  cases kind with
  | none => exact sinks_watch
  | some kind =>
    refine Sinks.bind (P := fun r => Impossible r.2) ?_
      (fun r hr => Gives.skip fun _ => gives_pure hr) fun r => sinks_watch.skip fun _ => sinks_pure
    cases kind with
    | application => exact sinks_walkApplication hcalls
    | conditional => exact sinks_walkConditional hcalls
    | block => exact sinks_walkBlock hcalls
    | definition => exact sinks_walkDefinition hcalls
    | withAddress => exact sinks_walkWithAddress hcalls
    | reference | literal | gen | this => exact sinks_watch

end Calls

/-- The recursive calls to any depth. -/
theorem sinksCalls (ctx : Context) (depth : Nat) : SinksCalls (callsAt ctx depth) := by
  induction depth with
  | zero =>
    constructor
    · intro e c a o
      simp only [callsAt, walkAt]
      exact sinks_watch
    · intro f v o
      simp only [callsAt, applyAt]
      exact sinks_watch
  | succ depth ih =>
    constructor
    · intro e c a o
      simp only [callsAt, walkAt]
      exact sinks_walkWith ih
    · intro f v o
      simp only [callsAt, applyAt]
      exact sinks_applyWith ih

theorem sinks_eval (ctx : Context) (exp : Value) (scope : Scope) (intervene target : Option Trace)
    (output : Value) : Sinks (fun r => Impossible r.2)
      (eval ctx exp scope intervene target output) := by
  refine sinks_watch.skip fun o => ?_
  cases exp with
  | trace t => exact (sinksCalls ctx Evaluator.depthLimit).walk
  | _ => exact sinks_watch

end Watched

/-- A disagreement anywhere makes the score of the whole evaluation negative infinity, if no
score that is computed on the way is not a number. -/
theorem eval_impossible {ctx : Context} {exp : Value} {scope : Scope}
    {intervene target : Option Trace} {output : Value} {m m' : Machine} {v : Value} {score : Float}
    (hrun : Evaluator.eval ctx exp scope intervene target output m = .ok (v, score) m')
    (hclashed : Clashed ((Watched.eval ctx exp scope intervene target output).events m))
    (hnumbers : AllNumbers ((Watched.eval ctx exp scope intervene target output).events m)) :
    score = Number.negativeInfinity := by
  rw [← Watched.run_eval] at hrun
  exact Watched.sinks_eval ctx exp scope intervene target output _ _ _ hrun hnumbers hclashed

/-- A coin in a block whose value is a number. -/
def idleCoin : Trace :=
  Expression.block [Expression.application [Expression.reference "flip",
    Expression.literal (.int 1)], Expression.literal (.int 3)]

/-- What the coin of `idleCoin` shows. -/
def coinShows (heads : Bool) : Trace :=
  .tree none [(.index 0, .tree none [(.name "flip", .leaf (.bool heads))])]

theorem idleCoin_impossible : ∃ v score m',
    Evaluator.eval .halves (.trace idleCoin) .top (some (coinShows true)) (some (coinShows false))
      .null {} = .ok (v, score) m' ∧ score = Number.negativeInfinity := by
  obtain ⟨⟨v, score⟩, m', hrun⟩ := exists_of_returns (x := Evaluator.eval .halves (.trace idleCoin)
    .top (some (coinShows true)) (some (coinShows false)) .null {}) (by decide +kernel)
  exact ⟨v, score, m', hrun, eval_impossible hrun (by decide +kernel) (by decide +kernel)⟩

end ProbTrace
