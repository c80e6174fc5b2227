import ProbTrace.Proofs.Binding
import ProbTrace.Proofs.Comparison

/-!
# Code in traces

Any trace may be evaluated as code, also one whose nodes are cells of the store.  The
laws of a simulation about code hold when the two stores agree on the traces that the
likeness admits, and all that is found below such a trace is admitted again.
-/

namespace ProbTrace

namespace Simulation

/-- A name that a trace may hold. -/
def MayName (S : Simulation) (name : Value) : Prop :=
  name = .null ∨ ∃ w t, S.related w ∧ S.like.trace t ∧ w.second.store.value? t = some name

/-- The laws of a simulation of code in traces. -/
structure Traced (S : Simulation) (ctx : Context) (scopes : Scope → Scope → Prop) : Prop
    extends S.Basic where
  code_iff : ∀ {A e c d}, S.code A e c d ↔ S.like.trace e ∧ scopes c d
  parts_iff : ∀ {A e c d}, S.parts A e c d ↔ S.like.trace e ∧ scopes c d
  entered_iff : ∀ {A e c d}, S.entered A e c d ↔ S.like.trace e ∧ scopes c d
  binding_iff : ∀ {A e c d}, S.binding A e c d ↔ S.like.trace e ∧ scopes c d
  emptyTrace : S.like.trace .empty
  value?_eq : ∀ {w t}, S.related w → S.like.trace t →
    w.first.store.value? t = w.second.store.value? t
  children_eq : ∀ {w t}, S.related w → S.like.trace t →
    w.first.store.children t = w.second.store.children t
  outline_eq : ∀ {w t}, S.related w → S.like.trace t →
    w.first.store.outline t = w.second.store.outline t
  patterns : ∀ {w}, S.related w →
    ∃ P, S.Patterns P ∧ ∀ {t}, S.like.trace t → P (w.second.store.outline t)
  held : ∀ {w t v}, S.related w → S.like.trace t → w.second.store.value? t = some v → S.Alike v v
  child : ∀ {w t k u}, S.related w → S.like.trace t → (k, u) ∈ w.second.store.children t →
    S.like.trace u
  lookup : ∀ {w c d name}, S.Alike name name → S.related w → scopes c d →
    Agree S.like S.Alike (c.find ctx.topLevel w.first name) (d.find ctx.topLevel w.second name)
  closure : ∀ {w A source name c d}, S.like.trace source → S.MayName name → scopes c d →
    S.Runs A w (.watch Run.fresh) (.watch Run.fresh) fun _ i j =>
      S.like.closure source name i c j d
  openBlock : ∀ {w A e c d}, scopes c d →
    S.Runs A w (.openFrame e c) (.openFrame e d) fun _ => scopes
  openClosure : ∀ {w A source name i c j d}, S.like.closure source name i c j d →
    S.Runs A w (.openFrame source c) (.openFrame source d) fun _ c' d' =>
      S.like.trace source ∧ scopes c' d'
  bindName : ∀ {A c d name}, S.Alike name name → scopes c d →
    S.BindsAlike A (Run.bindName ctx c name) (Run.bindName ctx d name)
  /-- Of the events, none says anything. -/
  event : ∀ {w} (e : Event), S.related w → S.advance w [e] w
  walked_iff : ∀ {A v v'}, S.walked A v v' ↔ S.Alike v v'
  belowTag : ∀ {w A i o j p} (a : Address), S.like.tag i o j p →
    S.Runs A w (.watch (Run.edit (o.below a))) (.watch (Run.edit (p.below a)))
      fun w' q r => S.site w' A q r

namespace Traced

variable {S : Simulation} {ctx : Context} {scopes : Scope → Scope → Prop}
variable (hS : S.Traced ctx scopes)
variable {w : Pair} {A : Address} {t : Trace} {c d : Scope}
include hS

theorem child? (hw : S.related w) (ht : S.like.trace t) (k : Key) :
    w.first.store.child? t k = w.second.store.child? t k ∧
      ∀ u, w.second.store.child? t k = some u → S.like.trace u := by
  unfold Store.child?
  rw [hS.children_eq hw ht]
  exact ⟨rfl, fun u hu => hS.child hw ht (mem_of_childAt? hu)⟩

theorem find? (hw : S.related w) (ht : S.like.trace t) (a : Address) :
    w.first.store.find? t a = w.second.store.find? t a ∧
      ∀ u, w.second.store.find? t a = some u → S.like.trace u := by
  induction a generalizing t with
  | nil => exact ⟨rfl, fun u hu => Option.some.inj hu ▸ ht⟩
  | cons k a ih =>
    obtain ⟨hchild, hu⟩ := hS.child? hw ht k
    simp only [Store.find?, hchild]
    cases h : w.second.store.child? t k with
    | none => exact ⟨rfl, by rintro u ⟨⟩⟩
    | some u => exact ih (hu u h)

/-- Reading a value at an address gives one value on both sides, or none. -/
theorem valueAt? (hw : S.related w) (ht : S.like.trace t) (a : Address) :
    w.first.store.valueAt? t a = w.second.store.valueAt? t a ∧
      ∀ v, w.second.store.valueAt? t a = some v → S.Alike v v := by
  obtain ⟨hfind, hu⟩ := hS.find? hw ht a
  unfold Store.valueAt?
  rw [hfind]
  cases h : w.second.store.find? t a with
  | none => exact ⟨rfl, fun v hv => nomatch hv⟩
  | some u => exact ⟨hS.value?_eq hw (hu u h), fun v hv => hS.held hw (hu u h) hv⟩

/-- The name under which a closure is known may name it. -/
theorem mayName (hw : S.related w) (ht : S.like.trace t) (a : Address) :
    S.MayName ((w.second.store.valueAt? t a).getD .null) := by
  obtain ⟨-, hu⟩ := hS.find? hw ht a
  unfold Store.valueAt?
  cases h : w.second.store.find? t a with
  | none => exact .inl rfl
  | some u =>
    cases hv : w.second.store.value? u with
    | none => exact .inl (congrArg (Option.getD · _) hv)
    | some v =>
      refine .inr ⟨w, u, hw, hu u h, ?_⟩
      rw [Option.bind_some, hv, Option.getD_some]

theorem MayName.alike {name : Value} (h : S.MayName name) : S.Alike name name := by
  rcases h with rfl | ⟨w, t, hw, ht, hname⟩
  · exact .null
  · exact hS.held hw ht hname

/-- An overlay that both runs have holds one value for both, or none. -/
theorem overlaid_rel {overlay : Option Trace} (hw : S.related w)
    (h : ∀ t ∈ overlay, S.like.trace t) (a : Address) :
    Option.Rel S.Alike (overlay.bind (w.first.store.valueAt? · a))
      (overlay.bind (w.second.store.valueAt? · a)) := by
  cases overlay with
  | none => exact .none
  | some t =>
    obtain ⟨hvalue, hv⟩ := hS.valueAt? hw (h t rfl) a
    simp only [Option.bind_some, hvalue]
    cases hvalue' : w.second.store.valueAt? t a with
    | none => exact .none
    | some v => exact .some (hv v hvalue')

theorem getAt {address : Value} (hw : S.related w) (ht : S.like.trace t)
    (haddress : S.Alike address address) :
    Agree S.like (fun v v' => v = v' ∧ S.Alike v v) (w.first.store.getAt t address)
      (w.second.store.getAt t address) := by
  unfold Store.getAt Store.findAt?
  cases address.address? with
  | none => exact .error (.same haddress.addressItems)
  | some a =>
    obtain ⟨hvalue, hv⟩ := hS.valueAt? hw ht a
    unfold Store.valueAt? at hvalue hv
    simp only [Option.bind_some, hvalue]
    cases h : (w.second.store.find? t a).bind w.second.store.value? with
    | none => exact .error (.same haddress.addressItems)
    | some v => exact .ok ⟨rfl, hv v h⟩

theorem part (ht : S.like.trace t) (key : Key) :
    S.Runs A w (.part t key) (.part t key) fun _ u v => u = v ∧ S.like.trace u := by
  refine hS.ofStore fun hw => ?_
  unfold Store.getChild
  simp only [Value.key?_toValue, Option.bind_some]
  obtain ⟨hchild, hu⟩ := hS.child? hw ht key
  rw [hchild]
  cases h : w.second.store.child? t key with
  | none => exact .error (.same (.cons (.ofKey _) .nil))
  | some u => exact .ok ⟨rfl, hu u h⟩

theorem procedureKey (hw : S.related w) (ht : S.like.trace t) :
    Agree S.like Eq (Evaluator.procedureKey w.first.store t)
      (Evaluator.procedureKey w.second.store t) := by
  unfold Evaluator.procedureKey
  rw [hS.value?_eq hw ht]
  split
  · refine (hS.getAt hw ht (.ofKey _)).bind ?_
    rintro name _ ⟨rfl, hname⟩
    cases name.key? with
    | none => exact .error (.invalidKey _ hname (.trace ht))
    | some k => exact .ok rfl
  · exact .ok rfl

theorem definiens (hw : S.related w) (ht : S.like.trace t) :
    Agree S.like Eq (w.first.store.definiens (.trace t)) (w.second.store.definiens (.trace t)) := by
  unfold Store.definiens
  dsimp only
  rw [hS.value?_eq hw ht]
  split
  · refine (hS.getAt hw ht (.ofKey _)).bind ?_
    rintro name _ ⟨rfl, hname⟩
    split
    · exact .ok rfl
    · cases name.key? with
      | none => exact .error (.invalidKey _ hname (.ofTuple (.cons hname .nil)))
      | some k => exact .ok rfl
  · exact .ok rfl

theorem matchBind {pattern : Trace} {v v' : Value} (hpattern : S.like.trace pattern)
    (hscopes : scopes c d) (hv : S.Alike v v') :
    S.Runs A w (.watch (Run.matchBind ctx c (.trace pattern) v))
      (.watch (Run.matchBind ctx d (.trace pattern) v')) fun _ _ _ => True := by
  refine Runs.withStore fun hw => ?_
  obtain ⟨P, hP, houtline⟩ := hS.patterns hw
  rw [hS.outline_eq hw hpattern]
  exact bindPattern_runs hS.toBasic hP _ (houtline hpattern)
    (fun name hname => hS.bindName (hP.names _ (houtline hpattern) name hname) hscopes) hv

/-- All laws about code hold. -/
theorem coded : S.Coded ctx where
  trace hcode := (hS.code_iff.mp hcode).1
  kind hw hcode := by
    unfold Watched.kindOf
    rw [hS.value?_eq hw (hS.code_iff.mp hcode).1]
  application hcode _ := hS.parts_iff.mpr (hS.code_iff.mp hcode)
  count hw hparts := by rw [hS.children_eq hw (hS.parts_iff.mp hparts).1]
  part i hparts := by
    obtain ⟨he, hscopes⟩ := hS.parts_iff.mp hparts
    exact (hS.part he _).mono fun _ _ _ _ h => ⟨h.1, hS.code_iff.mpr ⟨h.2, hscopes⟩⟩
  walkedPart hcode _ _ := by
    obtain ⟨he, hscopes⟩ := hS.code_iff.mp hcode
    exact (hS.part he _).mono fun _ _ _ _ h => ⟨h.1, hS.code_iff.mpr ⟨h.2, hscopes⟩⟩
  reference hcode _ := by
    obtain ⟨he, hscopes⟩ := hS.code_iff.mp hcode
    refine Runs.withStore fun hw => hS.bindRun (hS.ofExcept (hS.getAt hw he (.ofKey _))) ?_
    rintro w₁ name _ - ⟨rfl, hname⟩
    refine hS.bindRun (P := fun _ => S.Alike) ?_ ?_
    · exact Runs.withMachine fun hw => hS.ofExcept (hS.lookup hname hw hscopes)
    · rintro w₂ v v' - hv
      exact hS.pureRun ⟨hv, rfl⟩
  literal hcode _ := by
    obtain ⟨he, hscopes⟩ := hS.code_iff.mp hcode
    refine Runs.withStore fun hw => hS.bindRun (hS.ofExcept (hS.getAt hw he (.text _))) ?_
    rintro w₁ v _ - ⟨rfl, hv⟩
    exact hS.pureRun ⟨hv, rfl⟩
  gen hcode _ := by
    obtain ⟨he, hscopes⟩ := hS.code_iff.mp hcode
    refine Runs.withStore fun hw => ?_
    have hname := hS.mayName hw he [Pattern.nameKey]
    rw [(hS.valueAt? hw he [Pattern.nameKey]).1]
    refine hS.bindRun (hS.compose (.cons (MayName.alike hS hname) .nil)) ?_
    rintro w₁ - - - -
    refine hS.bindRun (hS.closure he hname hscopes) ?_
    rintro w₂ i j - hclosure
    exact hS.pureRun ⟨.closure hclosure, rfl⟩
  emptyTrace := hS.emptyTrace
  openBlock hcode _ := by
    obtain ⟨he, hscopes⟩ := hS.code_iff.mp hcode
    exact (hS.openBlock hscopes).mono fun _ _ _ _ h => hS.parts_iff.mpr ⟨he, h⟩
  openClosure hclosure :=
    (hS.openClosure hclosure).mono fun _ _ _ _ h => hS.entered_iff.mpr h
  parameters hentered := by
    obtain ⟨he, hscopes⟩ := hS.entered_iff.mp hentered
    exact (hS.part he _).mono fun _ _ _ _ h => ⟨h.1, hS.binding_iff.mpr ⟨h.2, hscopes⟩⟩
  body hentered := by
    obtain ⟨he, hscopes⟩ := hS.entered_iff.mp hentered
    exact (hS.part he _).mono fun _ _ _ _ h => ⟨h.1, hS.code_iff.mpr ⟨h.2, hscopes⟩⟩
  openDefinition hcode _ := by
    obtain ⟨he, hscopes⟩ := hS.code_iff.mp hcode
    refine hS.bind (hS.part he _) ?_
    rintro w₁ pattern _ - ⟨rfl, hpattern⟩
    refine hS.bind (hS.ofStore fun hw => hS.definiens hw hpattern) ?_
    rintro w₂ key _ - rfl
    refine hS.bind (hS.part he _) ?_
    rintro w₃ rhs _ - ⟨rfl, hrhs⟩
    exact hS.pure ⟨rfl, hS.code_iff.mpr ⟨hrhs, hscopes⟩, hS.binding_iff.mpr ⟨hpattern, hscopes⟩⟩
  bindPattern hbinding hv := by
    obtain ⟨hpattern, hscopes⟩ := hS.binding_iff.mp hbinding
    refine hS.bind (hS.matchBind hpattern hscopes hv) ?_
    rintro w₁ - - - -
    refine hS.bind (P := fun _ _ _ => True) (fun hw _ => ⟨hS.advance_refl hw, hw, trivial⟩) ?_
    rintro w₂ m m' - -
    exact (Runs.note fun hw _ => hS.event _ hw).mono fun _ _ _ _ _ => trivial
  callKey hcode _ := by
    obtain ⟨he, hscopes⟩ := hS.code_iff.mp hcode
    refine hS.bind (hS.part he _) ?_
    rintro w₁ operator _ - ⟨rfl, hoperator⟩
    refine (hS.ofStore fun hw => hS.procedureKey hw hoperator).mono ?_
    rintro w₂ key _ - rfl
    exact ⟨rfl, fun w' hw' => hS.event _ hw'⟩
  relocate hcode _ ht := by
    obtain ⟨he, hscopes⟩ := hS.code_iff.mp hcode
    refine hS.bind (Runs.note fun hw _ => hS.event _ hw) ?_
    rintro w₁ - - - -
    refine hS.bind (hS.toBasic.resolveTag (fun a htag => hS.belowTag a htag) ht) ?_
    rintro w₂ o p hl₂ hsite
    refine hS.bind (hS.part he _) ?_
    rintro w₃ body _ hl₃ ⟨rfl, hbody⟩
    exact hS.pure ⟨rfl, hS.code_iff.mpr ⟨hbody, hscopes⟩, hS.site_of_later hl₃ hsite,
      fun v v' => hS.walked_iff.mp⟩

end Traced

/-! ## Traces that are kept -/

section Kept

variable {S : Simulation} {m : Machine} {K : Item → Prop}
variable (htrace : ∀ {t}, S.like.trace t → K (.trace t))
include htrace

/-- A name in a trace that is kept is kept. -/
theorem MayName.kept {name : Value} (h : S.MayName name) (hnull : K (.value .null))
    (hkept : ∀ {w}, S.related w → m.KeptIn K w.second.store) : K (.value name) := by
  rcases h with rfl | ⟨w, t, hw, ht, hname⟩
  · exact hnull
  · rw [(hkept hw).value?_eq (htrace ht)] at hname
    exact (hkept hw).inherited (htrace ht) (.held hname)

/-- Outlines of traces that are kept are patterns. -/
theorem Basic.keptPatterns (hS : S.Basic) (hcovers : m.Covers K S.like) {s : Store}
    (hkept : m.KeptIn K s)
    (htree : ∀ {value cs}, (∀ v ∈ value, K (.value v)) → (∀ k u, (k, u) ∈ cs → K (.trace u)) →
      K (.trace (.tree value cs))) :
    ∃ P, S.Patterns P ∧ ∀ {t}, S.like.trace t → P (s.outline t) := by
  refine ⟨fun t => K (.trace t), hS.patterns (hcovers.trace _) ?_ ?_,
    fun ht => (hkept.outlines htree).outline (htrace ht)⟩
  · exact fun ht hu => hcovers.inherited ht (.child hu)
  · exact fun ht => hcovers.alike _ (hcovers.inherited ht (.held rfl))

end Kept

end Simulation
end ProbTrace
