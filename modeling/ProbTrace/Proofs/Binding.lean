import ProbTrace.Proofs.Cells
import ProbTrace.Proofs.Simulation

/-!
# Binding patterns side by side

Two runs that bind one pattern to values that are alike take the values apart alike,
and bind the same names from left to right.  So they run alike if binding a single name
does.
-/

namespace ProbTrace

mutual

/-- The names that a pattern binds. -/
def Trace.patternNames : Trace → List Value
  | .tree v cs => ((Trace.tree v cs).valueAt? [Pattern.nameKey]).toList ++ childPatternNames cs
  | .cell _ => []

/-- The names that the parts of a pattern bind. -/
def childPatternNames : List (Key × Trace) → List Value
  | [] => []
  | (_, t) :: rest => t.patternNames ++ childPatternNames rest

end

namespace Simulation

variable {S : Simulation} {ctx : Context} {A : Address} {w : Pair} {c d : Scope}

/-- Ways to bind that run alike on values that are alike. -/
def BindsAlike (S : Simulation) (A : Address) (f g : Value → Run Unit) : Prop :=
  ∀ {w v v'}, S.Alike v v' → S.Runs A w (.watch (f v)) (.watch (g v')) fun _ _ _ => True

/-- Parts of a tuple pattern that run alike. -/
structure PartsAlike (S : Simulation) (A : Address) (p q : Pattern.Part) : Prop where
  isRest : p.isRest = q.isRest
  bind : S.BindsAlike A p.bind q.bind

theorem lookup_alike {ps qs : List (Key × Pattern.Part)}
    (h : List.Forall₂ (fun p q => p.1 = q.1 ∧ S.PartsAlike A p.2 q.2) ps qs) (k : Key) :
    (ps.lookup k = none ∧ qs.lookup k = none) ∨
      ∃ p q, ps.lookup k = some p ∧ qs.lookup k = some q ∧ S.PartsAlike A p q := by
  induction h with
  | nil => exact .inl ⟨rfl, rfl⟩
  | @cons p q _ _ hpq _ ih =>
    obtain ⟨j, p⟩ := p
    obtain ⟨j', q⟩ := q
    obtain ⟨rfl, hpart⟩ : j = j' ∧ S.PartsAlike A p q := hpq
    simp only [List.lookup_cons]
    cases k == j with
    | true => exact .inr ⟨p, q, rfl, rfl, hpart⟩
    | false => exact ih

/-- The parts of a pattern are put in order on both sides, or a position has none, or the rest
marker stands where it may not. -/
theorem orderParts_cases {ps qs : List (Key × Pattern.Part)} (f g : Fault)
    (h : List.Forall₂ (fun p q => p.1 = q.1 ∧ S.PartsAlike A p.2 q.2) ps qs) (count left i : Nat) :
    (∃ xs ys, Pattern.orderParts ps f count left i = .ok xs ∧
      Pattern.orderParts qs g count left i = .ok ys ∧ List.Forall₂ (S.PartsAlike A) xs ys) ∨
    (∃ j : Int, Pattern.orderParts ps f count left i = .error (.noChild (.int j)) ∧
      Pattern.orderParts qs g count left i = .error (.noChild (.int j))) ∨
    Pattern.orderParts ps f count left i = .error f ∧
      Pattern.orderParts qs g count left i = .error g := by
  induction left generalizing i with
  | zero => exact .inl ⟨[], [], rfl, rfl, .nil⟩
  | succ left ih =>
    simp only [Pattern.orderParts]
    rcases lookup_alike h (.index i) with ⟨hp, hq⟩ | ⟨p, q, hp, hq, hpart⟩
    · rw [hp, hq]
      exact .inr (.inl ⟨i, rfl, rfl⟩)
    · rw [hp, hq]
      dsimp only
      rw [hpart.isRest]
      split
      · exact .inr (.inr ⟨rfl, rfl⟩)
      · rcases ih (i + 1) with ⟨xs, ys, hx, hy, hxy⟩ | ⟨j, hx, hy⟩ | ⟨hx, hy⟩
        · rw [hx, hy]
          exact .inl ⟨p :: xs, q :: ys, rfl, rfl, .cons hpart hxy⟩
        · rw [hx, hy]
          exact .inr (.inl ⟨j, rfl, rfl⟩)
        · rw [hx, hy]
          exact .inr (.inr ⟨rfl, rfl⟩)

/-- A property of patterns that is passed on to their parts.  They hold values that correspond to
themselves, and faults about them are raised alike. -/
structure Patterns (S : Simulation) (P : Trace → Prop) : Prop where
  part : ∀ {v cs k t}, P (.tree v cs) → (k, t) ∈ cs → P t
  held : ∀ {v cs}, P (.tree (some v) cs) → S.Alike v v
  raise : ∀ {A w t f g}, P t → Fault.Misfit S.like (.trace t) f g →
    S.Runs A w (.watch (Run.raise f)) (.watch (Run.raise g)) fun _ (_ _ : Unit) => True

variable (hS : S.Basic)
include hS

/-- Patterns that correspond to themselves. -/
theorem Basic.patterns {P : Trace → Prop} (htrace : ∀ {t}, P t → S.like.trace t)
    (hpart : ∀ {v cs k t}, P (.tree v cs) → (k, t) ∈ cs → P t)
    (hheld : ∀ {v cs}, P (.tree (some v) cs) → S.Alike v v) : S.Patterns P where
  part := hpart
  held := hheld
  raise ht hmisfit := hS.raise (.misfit (.trace (htrace ht)) hmisfit)

theorem bindParts_runs {P : Trace → Prop} {t : Trace} {few few' many many' : Fault}
    {source source' : Value} (hP : S.Patterns P) (ht : P t)
    (hfew : Fault.Misfit S.like (.trace t) few few')
    (hmany : Fault.Misfit S.like (.trace t) many many')
    (hsource : S.Alike source source') {ps qs : List Pattern.Part}
    (h : List.Forall₂ (S.PartsAlike A) ps qs) {vs vs' : List Value}
    (hvs : ItemsAlike S.like vs vs') :
    S.Runs A w (.watch (Pattern.bindParts few many source ps vs))
      (.watch (Pattern.bindParts few' many' source' qs vs')) fun _ _ _ => True := by
  induction h generalizing w vs vs' with
  | nil =>
    cases hvs with
    | nil => exact hS.pureRun trivial
    | cons _ _ => exact hP.raise ht hmany
  | cons hpart hparts ih =>
    simp only [Pattern.bindParts]
    rw [hpart.isRest]
    split
    · cases hparts with
      | nil => exact hP.raise ht hmany
      | cons hlast _ => exact hlast.bind (hsource.sameKind hvs)
    · cases hvs with
      | nil => exact hP.raise ht hfew
      | cons hv hvs =>
        refine hS.bindRun (hpart.bind hv) ?_
        rintro w₁ - - - -
        exact ih hvs

/-- Taking apart a value on one side and a value that is alike on the other, when the
parts of the pattern run alike. -/
theorem bindTuple_runs {P : Trace → Prop} {ps qs : List (Key × Pattern.Part)} {t : Trace}
    (hP : S.Patterns P) (ht : P t) (count : Nat)
    (h : List.Forall₂ (fun p q => p.1 = q.1 ∧ S.PartsAlike A p.2 q.2) ps qs) :
    S.BindsAlike A
      (fun inputs => do
        let parts ← Run.ofExcept
          (Pattern.orderParts ps (.misplacedRest (.trace t) inputs) count count 0)
        match inputs.elements? with
        | none => Run.raise (.notASequence (.trace t) inputs)
        | some items =>
          Pattern.bindParts (.tooFewInputs items count (.trace t))
            (.tooManyInputs items count (.trace t)) inputs parts items)
      (fun inputs => do
        let parts ← Run.ofExcept
          (Pattern.orderParts qs (.misplacedRest (.trace t) inputs) count count 0)
        match inputs.elements? with
        | none => Run.raise (.notASequence (.trace t) inputs)
        | some items =>
          Pattern.bindParts (.tooFewInputs items count (.trace t))
            (.tooManyInputs items count (.trace t)) inputs parts items) := by
  intro w v v' hv
  dsimp only
  rcases orderParts_cases (.misplacedRest (.trace t) v) (.misplacedRest (.trace t) v') h count
    count 0 with ⟨parts, parts', hp, hq, hparts⟩ | ⟨j, hp, hq⟩ | ⟨hp, hq⟩
  · rw [hp, hq]
    rcases hv.elements?_cases with ⟨hn, hn'⟩ | ⟨us, us', hu, hu', hus⟩
    · rw [hn, hn']
      exact hP.raise ht (.notASequence hv)
    · rw [hu, hu']
      exact bindParts_runs hS hP ht (.tooFewInputs _ hus) (.tooManyInputs _ hus) hv hparts hus
  · rw [hp, hq]
    exact hS.raise (.same (.cons (.int j) .nil))
  · rw [hp, hq]
    exact hP.raise ht (.misplacedRest hv)

omit hS

mutual

/-- The names of a pattern correspond to themselves. -/
theorem Patterns.names {P : Trace → Prop} (hP : S.Patterns P) : ∀ t : Trace, P t →
    ∀ name ∈ t.patternNames, S.Alike name name
  | .cell _, _ => by rintro name ⟨⟩
  | .tree v cs, ht => by
    intro name hname
    rw [Trace.patternNames] at hname
    rcases List.mem_append.mp hname with hname | hname
    · simp only [Option.mem_toList, Trace.valueAt?] at hname
      split at hname
      · rename_i u hu
        cases u with
        | cell n => cases hname
        | tree w ds =>
          cases (hname : w = some name)
          exact hP.held (hP.part ht (mem_of_childAt? hu))
      · cases hname
    · exact hP.childNames cs (fun _ _ => hP.part ht) name hname

theorem Patterns.childNames {P : Trace → Prop} (hP : S.Patterns P) : ∀ cs : List (Key × Trace),
    (∀ k t, (k, t) ∈ cs → P t) → ∀ name ∈ childPatternNames cs, S.Alike name name
  | [], _ => by rintro name ⟨⟩
  | (k, t) :: rest, hcs => by
    intro name hname
    rw [childPatternNames] at hname
    rcases List.mem_append.mp hname with hname | hname
    · exact hP.names t (hcs k t List.mem_cons_self) name hname
    · exact hP.childNames rest (fun j u hu => hcs j u (List.mem_cons_of_mem _ hu)) name hname

end

mutual

/-- Binding a pattern runs alike if binding each of its names does. -/
theorem bindPattern_runs {P : Trace → Prop} (hS : S.Basic) (hP : S.Patterns P) (t : Trace)
    (ht : P t) (hname : ∀ name ∈ t.patternNames,
      S.BindsAlike A (Run.bindName ctx c name) (Run.bindName ctx d name)) :
    S.BindsAlike A (t.bindPattern ctx c) (t.bindPattern ctx d) := by
  intro w v v' hv
  match t with
  | .cell n => exact hP.raise ht (.unknownPattern hv)
  | .tree value cs =>
    simp only [Trace.bindPattern]
    split
    · split
      · rename_i name heq
        refine hname name ?_ hv
        rw [Trace.patternNames, heq]
        exact List.mem_append_left _ (List.mem_singleton.mpr rfl)
      · exact hS.raise (.same (.cons (.ofKey _) .nil))
    · split
      · refine bindTuple_runs hS hP ht _
          (patternParts_alike hS hP cs (fun _ _ => hP.part ht) fun name h => hname name ?_) hv
        rw [Trace.patternNames]
        exact List.mem_append_right _ h
      · exact hP.raise ht (.unknownPattern hv)

theorem patternParts_alike {P : Trace → Prop} (hS : S.Basic) (hP : S.Patterns P)
    (cs : List (Key × Trace)) (hcs : ∀ k t, (k, t) ∈ cs → P t)
    (hname : ∀ name ∈ childPatternNames cs,
      S.BindsAlike A (Run.bindName ctx c name) (Run.bindName ctx d name)) :
    List.Forall₂ (fun p q => p.1 = q.1 ∧ S.PartsAlike A p.2 q.2)
      (patternParts ctx c cs) (patternParts ctx d cs) := by
  match cs with
  | [] => exact .nil
  | (k, t) :: rest =>
    simp only [childPatternNames, List.mem_append] at hname
    have ht := hcs k t List.mem_cons_self
    refine .cons ⟨rfl, rfl, bindPattern_runs hS hP t ht fun name h => hname name (.inl h)⟩ ?_
    exact patternParts_alike hS hP rest (fun j u h => hcs j u (List.mem_cons_of_mem _ h))
      fun name h => hname name (.inr h)

end

end Simulation
end ProbTrace
