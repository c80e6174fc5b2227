import ProbTrace.Proofs.Copy
import ProbTrace.Proofs.Programmed

/-!
# What programs make

An expression that is evaluated at the standard top level, under no overlays and without an
output, gives a value from which only closures of syntax trees and procedures of the top level
can be reached.  The evaluation may capture tags and evaluate expressions under them; they
carry no overlays either.
-/

namespace ProbTrace
namespace Authorship

section Relation

variable (m : Machine)

/-- The frames that the evaluation opens. -/
def Opened (i : FrameId) : Prop :=
  m.frames.size ≤ i

/-- Values without cells, whose closures are named by data and whose tags carry nothing. -/
abbrev likeness : Likeness :=
  .copying (Opened m) (fun t => t.isData = true) (fun v => v.isData = true) fun o => o = .empty

/-- The scopes of the evaluation. -/
abbrev scopes : Scope → Scope → Prop :=
  ScopesAlike (Seen (Opened m))

/-- The evaluation beside itself. -/
def simulation : Simulation where
  like := likeness m
  related w := w.Copies (likeness m) (Opened m) m.frames.size
  advance _ _ _ := True
  site _ _ o p := o = p ∧ o = .empty
  code := Simulation.TermAt fun _ _ => scopes m
  parts := Simulation.PartsAt fun _ _ => scopes m
  entered := Simulation.ProcedureAt (fun _ _ => scopes m) fun _ _ => scopes m
  binding := Simulation.ShapeAt fun _ _ => scopes m
  walked _ := Value.Alike (likeness m)
  assumed _ := True
  lenient := False
  halted _ _ _ _ _ := True

end Relation

variable {m : Machine} {w : Pair} {A B : Address} {o p : Overlays Trace} {c d : Scope}

theorem basic : (simulation m).Basic where
  advance_refl _ := trivial
  advance_append _ _ := trivial
  site_later _ h := h
  halted_append _ _ := trivial
  fault _ _ := trivial
  tooDeep _ := trivial
  text hw hv := hw.hasText_eq hv

theorem alike_of_isData {v : Value} (h : v.isData = true) : Value.Alike (likeness m) v v := by
  have hcovers : m.Covers (fun x => x.isData = true) (likeness m) :=
    { inherited := fun h hxy => hxy.isData h
      trace := fun _ h => h
      tag := fun _ _ h => nomatch h
      closure := fun _ _ _ _ h => nomatch h
      special := fun _ h => nomatch h
      undefined := fun _ _ => rfl }
  exact hcovers.alike v h

/-- Nothing is below no overlays. -/
theorem below_runs (a : Address) (h : o = p ∧ o = .empty) :
    (simulation m).Runs A w (.watch (Run.edit (o.below a))) (.watch (Run.edit (p.below a)))
      fun _ q r => q = r ∧ q = .empty := by
  obtain ⟨rfl, rfl⟩ := h
  exact basic.returns (fun m => Run.edit_ok (Overlays.below_absent rfl))
    (fun m => Run.edit_ok (Overlays.below_absent rfl)) ⟨rfl, rfl⟩

theorem parallel : (simulation m).Parallel where
  toBasic := basic
  drawn hw := ⟨hw.draws, hw.spare⟩
  numbered hw := hw.serials
  quiet hw hstore hframes hstore' hframes' hcounted := by
    refine ⟨hw.quiet (hw.counted hcounted) ?_ hframes hframes', trivial⟩
    rw [hstore, hstore', hw.store]
  alike_of_walked _ hv := hv
  force _ hsite hv := by
    obtain ⟨rfl, rfl⟩ := hsite
    exact basic.force id (fun _ => .none) hv
  gave hv := Simulation.gave_runs (fun _ => trivial) hv
  forced _ _ hsite := by
    obtain ⟨rfl, rfl⟩ := hsite
    exact .none
  observed _ _ hsite := by
    obtain ⟨rfl, rfl⟩ := hsite
    exact .none
  same hw hv hu := by rw [Likeness.copying_eq hv, Likeness.copying_eq hu, hw.store]
  relate r hw hv hu := by rw [Likeness.copying_eq hv, Likeness.copying_eq hu, hw.store]
  captured hw hsite := ⟨hw.serials, hsite⟩
  remark _ _ := trivial
  checkOutput hsite := by
    obtain ⟨rfl, rfl⟩ := hsite
    exact basic.ofStore fun _ => .ok trivial
  below a hsite := below_runs a hsite
  recordCall _ _ _ _ _ hsite _ := by
    obtain ⟨rfl, rfl⟩ := hsite
    intro hw _
    rw [Watched.run_recordCall, Watched.run_recordCall]
    exact ⟨trivial, hw, trivial⟩
  defined _ _ := trivial
  recordDefinition _ hsite _ := by
    obtain ⟨rfl, rfl⟩ := hsite
    exact basic.pure trivial
  returned _ _ _ _ _ := trivial

theorem openFrame_runs (source : Trace) (h : scopes m c d) :
    (simulation m).Runs A w (.openFrame source c) (.openFrame source d) fun _ => scopes m := by
  obtain rfl := h.eq And.left
  exact fun hw _ => ⟨trivial, hw.newFrame, hw.scopesAlike id h⟩

theorem bindPattern_runs {ctx : Context} {s : Shape} {v v' : Value} (h : scopes m c d)
    (hv : Value.Alike (likeness m) v v') :
    (simulation m).Runs A w (.bindPattern ctx c s.toTrace v) (.bindPattern ctx d s.toTrace v')
      fun _ _ _ => True := by
  obtain rfl := h.eq And.left
  intro hw _
  rw [Watched.run_bindPattern, Watched.run_bindPattern]
  rcases hw.matchBind_cases ctx s alike_of_isData h hv with
    ⟨m', n', hok, hok', -, hcopies⟩ | ⟨f, g, m', n', herror, herror', -⟩
  · rw [hok, hok']
    exact ⟨trivial, hcopies, trivial⟩
  · rw [herror, herror']
    exact .inr trivial

theorem relocate_runs {t u : Term} {v v' : Value} (h : scopes m c d)
    (hv : Value.Alike (likeness m) v v') :
    (simulation m).Runs A w (.relocate (Term.withAddress t u).toTrace v)
      (.relocate (Term.withAddress t u).toTrace v') fun w' r q =>
        r.2 = q.2 ∧ (simulation m).code A r.2 c d ∧ (simulation m).site w' A r.1 q.1 ∧
          ∀ x x', (simulation m).walked A x x' → (simulation m).Alike x x' := by
  refine basic.bind (Simulation.Runs.note fun _ _ => trivial) ?_
  rintro w₁ - - - -
  refine basic.bind (basic.resolveTag (fun a htag => below_runs a htag.2) hv) ?_
  rintro w₂ o p - hsite
  refine basic.bind (basic.readPart (u := u.toTrace) fun s => rfl) ?_
  rintro w₃ body _ - ⟨rfl, rfl⟩
  exact basic.pure ⟨rfl, ⟨u, rfl, h⟩, hsite, fun _ _ => id⟩

theorem programmed {ctx : Context} (htop : ctx.topLevel = .standard) :
    (simulation m).Programmed ctx (fun _ _ => scopes m) fun _ _ => scopes m where
  toBasic := basic
  code_iff := .rfl
  parts_iff := .rfl
  entered_iff := .rfl
  binding_iff := .rfl
  operands h _ _ _ := h
  branches h := ⟨h, h, h⟩
  definition h := ⟨h, h⟩
  tagPart h := h
  lookup h := Simulation.Runs.withMachine fun hw =>
    basic.ofExcept (hw.lookup htop (fun _ hs => hs) _ h)
  data hv := alike_of_isData hv
  closure {w A p t name c d label} h hlabel := by
    refine (parallel.fresh (·.serials)).mono ?_
    rintro w₁ i _ - rfl
    exact ⟨rfl, ⟨⟨p, t, name, rfl⟩, hlabel⟩, h⟩
  openBlock h := (openFrame_runs _ h).mono fun _ _ _ _ hscopes _ _ _ => hscopes
  openClosure h := by
    obtain ⟨-, ⟨⟨p, t, name, rfl⟩, -⟩, hscopes⟩ := h
    exact (openFrame_runs _ hscopes).mono fun _ _ _ _ h => ⟨p, t, name, rfl, h, h⟩
  bindPattern h hv := bindPattern_runs h hv
  invoked _ _ := trivial
  relocate h hv := relocate_runs h hv

theorem lawful {ctx : Context} (htop : ctx.topLevel = .standard) : (simulation m).Lawful ctx where
  toBasic := basic
  toCoded := (programmed htop).coded
  toOverlaid := parallel.overlaid ctx

/-- Things of the evaluation. -/
def Kept (m : Machine) : Item → Prop
  | .value v => Value.Alike (likeness m) v v
  | .trace t => t.isData = true
  | .scope c => scopes m c c

theorem Kept.isAuthored {x : Item} (h : Kept m x) : x.IsAuthored := by
  refine Item.isAuthored_of ?_ ?_
  · rintro serial source c name rfl
    cases h with
    | closure h => exact h.2.1.1
  · rintro s rfl
    cases h with
    | special h => exact h

/-- From things of the evaluation only such things can be reached. -/
theorem Kept.hereditary {n : Machine} (hw : (simulation m).related ⟨n, n⟩) :
    n.Hereditary (Kept m) := by
  intro x y hx hxy
  cases hxy with
  | @item v u vs hitems hu =>
    rcases Value.Alike.items?_cases hx with ⟨hnone, -⟩ | ⟨us, us', hus, hus', halike⟩
    · rw [hitems] at hnone
      cases hnone
    · rw [hitems] at hus hus'
      cases hus
      cases hus'
      exact List.forall₂_same.mp halike u hu
  | content t =>
    cases hx with
    | trace h => exact h
  | overlay h =>
    cases hx with
    | tag htag =>
      obtain ⟨-, -, rfl⟩ := htag
      rcases h with h | h | h <;> cases h
  | source serial source c name =>
    cases hx with
    | closure h =>
      obtain ⟨-, ⟨⟨p, t, label, rfl⟩, -⟩, -⟩ := h
      exact Term.isData_toTrace _
  | scope serial source c name =>
    cases hx with
    | closure h => exact h.2.2
  | name serial source c name =>
    cases hx with
    | closure h => exact alike_of_isData h.2.1.2
  | @held t v hv => exact alike_of_isData ((Machine.Refers.held hv).isData hx)
  | @child t u k hu => exact (Machine.Refers.child hu).isData hx
  | outer id c =>
    cases hx with
    | frame _ h => exact h
  | @bound id c a v hv =>
    cases hx with
    | frame hid _ =>
      obtain ⟨u, -, hu⟩ := (hw.bindings hid.2).mem_entries hv
      rw [← Likeness.copying_eq hu] at hu
      exact hu

/-- What an expression evaluates to at the standard top level is authored. -/
theorem eval_authored {ctx : Context} (htop : ctx.topLevel = .standard) {m n : Machine}
    {exp : Trace} (hexp : Expression.Built exp) {v : Value} {score : Float}
    (h : Evaluator.eval ctx (.trace exp) .top none none .null m = .ok (v, score) n) :
    n.Authored (.value v) := by
  obtain ⟨e, rfl⟩ := hexp.exists_term
  have hcode : ∀ t, Value.trace e.toTrace = .trace t → (simulation m).code [] t .top .top := by
    rintro _ ⟨⟩
    exact ⟨e, rfl, .top⟩
  have hsite : (simulation m).Runs [] ⟨m, m⟩ (.overlays none none .null)
      (.overlays none none .null) fun _ o p => o = p ∧ o = .empty :=
    basic.ofStore fun _ => .ok ⟨rfl, rfl⟩
  have hstart : (simulation m).related ⟨m, m⟩ := by
    refine ⟨⟨⟨rfl, rfl, rfl⟩, rfl, rfl⟩, Nat.le_refl _, fun {i} hi => ?_⟩
    rw [Machine.bindings_of_size_le hi]
    exact .empty
  have hexp := alike_of_isData (m := m) (v := .trace e.toTrace) e.isData_toTrace
  have hends := (lawful htop).eval hexp hcode hsite hstart fun _ _ => trivial
  rw [Watched.run_eval] at hends
  dsimp only at hends
  rw [h] at hends
  obtain ⟨-, hw, hv, -⟩ := hends
  intro y hy
  have hkept : Kept m y := by
    induction hy with
    | refl => exact hv
    | tail _ hstep ih => exact Kept.hereditary hw ih hstep
  exact hkept.isAuthored

end Authorship
end ProbTrace
