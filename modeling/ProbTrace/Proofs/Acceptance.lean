import ProbTrace.Program
import ProbTrace.Proofs.Reading
import ProbTrace.Proofs.Upkeep

/-!
# Programs that are accepted

A text that is accepted as a program denotes a syntax tree, and a line that is accepted as an
observation gives an address and data.  The whole run of such a program, from the closure of its
body and the trace of what was observed to its score, respects one contract: all that it meets is
tame or made by the run, and it writes to its own cells only.  A run that respects this contract
never fails because of how expressions, closures and outputs are represented.
-/

namespace ProbTrace

namespace Contract

/-- A step that respects the contract, whatever it logs. -/
def Safe (C : Contract) {α : Type} (x : Run α) (P : α → Prop) : Prop :=
  ∀ m, C.Holds m → match x m with
    | .ok a m' => C.Holds m' ∧ P a
    | .error (.fault f) _ => C.fault f
    | .error .tooDeep _ => True

variable {C : Contract} {α β : Type} {P : α → Prop} {Q : β → Prop}

theorem Keeps.safe {x : Watched α} (h : C.Keeps x P) : C.Safe x.run P := by
  intro m hm
  have hends := h m hm
  revert hends
  generalize x.run m = r
  rcases r with ⟨a, m'⟩ | ⟨_ | _, m'⟩
  · exact fun ⟨hm', _, ha⟩ => ⟨hm', ha⟩
  · exact id
  · exact id

theorem Safe.bind {x : Run α} {f : α → Run β} (hx : C.Safe x P) (hf : ∀ a, P a → C.Safe (f a) Q) :
    C.Safe (x >>= f) Q := by
  intro m hm
  have hends := hx m hm
  simp only [Bind.bind, EStateM.bind]
  revert hends
  generalize x m = r
  rcases r with ⟨a, m'⟩ | ⟨_ | _, m'⟩
  · exact fun ⟨hm', ha⟩ => hf a ha m' hm'
  · exact id
  · exact id

theorem Safe.edit {e : Edit α} (h : ∀ {s}, C.stored s → ∃ a s', e s = .ok a s' ∧ C.stored s' ∧ P a) :
    C.Safe (Run.edit e) P := by
  intro m hm
  obtain ⟨a, s', he, hs', ha⟩ := h hm.stored
  rw [Run.edit_ok he]
  exact ⟨hm.withStore hs', ha⟩

end Contract

/-! ## Observations -/

/-- An address is the same for every run. -/
theorem Address.enrollAll_toValue (a : Address) (n : Nat) :
    a.toValue.enrollAll n = (a.toValue, n) := by
  have hitems : enrollItems (a.map Key.toValue) n = (a.map Key.toValue, n) := by
    induction a with
    | nil => rfl
    | cons k a ih =>
      have hkey : k.toValue.enrollAll n = (k.toValue, n) := by cases k <;> rfl
      simp only [List.map_cons, enrollItems, hkey, ih]
  simp only [Address.toValue, Value.enrollAll, hitems]

/-- Addresses with data. -/
def ObservedData (entries : List (Value × Value)) : Prop :=
  ∀ entry ∈ entries, (∃ a : Address, entry.1 = a.toValue) ∧ entry.2.isData = true

namespace Upkeep

variable {m : Machine} {unobserved own : Prop} {s : Store} {t : Trace} {v : Value}

/-- Every value that is met can be recorded at every address below a new cell. -/
theorem Kept.putAt (h : Kept m unobserved True s) (ht : m.store.Fresh t)
    (hv : Met m unobserved True v) (a : Address) :
    ∃ s', t.putAt a.toValue v s = .ok () s' ∧ Kept m unobserved True s' := by
  have hgrown := h.grown trivial
  obtain ⟨u, s', hreach, hgrown', hu⟩ := hgrown.reach ht a
  have hkept := h.reach (a := a) fun _ => ht
  rw [hreach] at hkept
  rw [Trace.putAt_of_address? (hgrown.writable ht) (Value.address?_toValue a)]
  simp only [bind, EStateM.bind, hreach]
  rcases hkept.1.put (fun _ => hu) hv with ⟨n, hput, hkept'⟩ | ⟨f, hput, -⟩
  · exact ⟨_, hput, hkept'⟩
  · obtain ⟨s'', hput', -⟩ := hgrown'.put hu v
    rw [hput] at hput'
    cases hput'

theorem Kept.putAll {entries : List (Value × Value)} (hentries : ObservedData entries)
    (h : Kept m unobserved True s) (ht : m.store.Fresh t) :
    ∃ s', (entries.forM fun entry => t.putAt entry.1 entry.2) s = .ok () s' ∧
      Kept m unobserved True s' := by
  induction entries generalizing s with
  | nil => exact ⟨s, rfl, h⟩
  | cons entry entries ih =>
    obtain ⟨⟨⟨a, ha⟩, hdata⟩, hrest⟩ := List.forall_mem_cons.mp hentries
    obtain ⟨s', hput, hkept⟩ := h.putAt ht (lawful.isData hdata) a
    obtain ⟨s'', hall, hkept⟩ := ih hrest hkept
    refine ⟨s'', ?_, hkept⟩
    simp only [List.forM, bind, EStateM.bind, ha, hput]
    exact hall

/-- The trace of what was observed consists of new cells. -/
theorem Kept.ofEntries {entries : List (Value × Value)} (hentries : ObservedData entries)
    (h : Kept m unobserved True s) :
    ∃ t s', Trace.ofEntries entries s = .ok t s' ∧ Kept m unobserved True s' ∧
      m.store.Fresh t := by
  have hfresh : m.store.Fresh (.cell s.cells.size) := ⟨_, h.size, rfl⟩
  obtain ⟨s', hput, hkept⟩ := h.alloc.putAll hentries hfresh
  refine ⟨_, s', ?_, hkept, hfresh⟩
  show ((entries.forM fun entry => (Trace.cell s.cells.size).putAt entry.1 entry.2) >>=
    fun _ => pure (Trace.cell s.cells.size)) (s.alloc {}).1 = _
  simp only [bind, EStateM.bind]
  rw [hput]
  rfl

end Upkeep

/-! ## The run of a program -/

namespace Program

variable {m : Machine}

/-- The contract of a run that makes all that it writes to. -/
abbrev contract (m : Machine) : Contract :=
  Upkeep.contract m False True

theorem receiveTrace_safe (e : Term) :
    (contract m).Safe (Run.receiveTrace e.toTrace) fun t => ∃ e' : Term, t = e'.toTrace := by
  refine (Upkeep.lawful.quiet (.of_ok fun _ => ⟨_, _, rfl⟩) fun {m t m'} _ hok => ?_).safe
  obtain ⟨e', he'⟩ := Term.exists_of_enrollAll e m.serials
  cases hok
  exact ⟨⟨rfl, rfl⟩, e', he'.symm⟩

/-- What a run receives as observations are addresses with data. -/
theorem receiveObservations_safe {entries : List (Value × Value)} (h : ObservedData entries) :
    (contract m).Safe (receiveObservations entries) ObservedData := by
  induction entries with
  | nil => exact (Upkeep.lawful.pureRun nofun).safe
  | cons entry entries ih =>
    obtain ⟨⟨⟨a, ha⟩, hdata⟩, hrest⟩ := List.forall_mem_cons.mp h
    have hreceive {v : Value} {P : Value → Prop} (hP : ∀ n, P (v.enrollAll n).1) :
        (contract m).Safe (Run.receive v) P := by
      refine (Upkeep.lawful.quiet (.of_ok fun _ => ⟨_, _, rfl⟩) fun {m t m'} _ hok => ?_).safe
      cases hok
      exact ⟨⟨rfl, rfl⟩, hP m.serials⟩
    have hkey := hreceive (v := entry.1) (P := (∃ a : Address, · = a.toValue)) fun n => by
      rw [ha, Address.enrollAll_toValue]
      exact ⟨a, rfl⟩
    have hvalue := hreceive (v := entry.2) (P := (·.isData = true)) fun n =>
      isData_enrollAll entry.2 n hdata
    unfold receiveObservations
    rw [List.mapM_cons]
    refine .bind (P := fun p => (∃ a : Address, p.1 = a.toValue) ∧ p.2.isData = true) ?_
      fun p hp => .bind (ih hrest) fun ps hps => ?_
    · exact .bind hkey fun u hu => .bind hvalue fun v hv => (Upkeep.lawful.pureRun ⟨hu, hv⟩).safe
    · have hall : ObservedData (p :: ps) := List.forall_mem_cons.mpr ⟨hp, hps⟩
      exact (Upkeep.lawful.pureRun hall).safe

/-- The trace of what was observed is made by the run. -/
theorem observedTrace_safe {entries : List (Value × Value)} (h : ObservedData entries) :
    (contract m).Safe (observedTrace entries) fun observed =>
      ∀ t ∈ observed, m.store.Fresh t := by
  unfold observedTrace
  split
  · exact (Upkeep.lawful.pureRun nofun).safe
  · refine .bind (P := m.store.Fresh) (.edit fun hs => hs.ofEntries h) fun t ht => ?_
    refine (Upkeep.lawful.pureRun ?_).safe
    rintro _ ⟨⟩
    exact ht

/-- A call from the start that records into a new cell. -/
theorem infer_safe {ctx : Context} (htop : ctx.topLevel = .standard) {proc inputs : Value}
    {observed : Option Trace} (hproc : (contract m).Admits proc)
    (hinputs : (contract m).Admits inputs) (hobserved : ∀ t ∈ observed, m.store.Fresh t) :
    (contract m).Safe (Evaluator.infer ctx proc inputs observed none) fun _ => True := by
  have halloc : (contract m).Safe (Run.edit (Edit.alloc {})) m.store.Fresh :=
    .edit fun {s} hs => ⟨_, _, rfl, hs.alloc, _, hs.size, rfl⟩
  refine .bind halloc fun output houtput => ?_
  have hoverlays : (contract m).Keeps (.overlays none observed (.trace output)) (contract m).site :=
    Upkeep.overlays_keeps (fun t ht => .inr (hobserved t (ht.resolve_left nofun))) nofun
      fun _ => .inr ⟨output, rfl, houtput⟩
  rw [← Watched.run_apply]
  refine .bind (Upkeep.lawful.apply htop hoverlays hproc hinputs).safe fun r _ => ?_
  have henroll : (contract m).Safe (Run.enroll r.2) fun _ => True :=
    (Upkeep.lawful.quiet (.of_ok fun _ => ⟨_, _, rfl⟩) fun _ hok => by
      cases hok
      exact ⟨⟨rfl, rfl⟩, trivial⟩).safe
  refine .bind (Upkeep.lawful.compose _).safe fun _ _ => ?_
  exact .bind henroll fun _ _ => (Upkeep.lawful.pureRun trivial).safe

/-- The run of a syntax tree as a program respects the contract. -/
theorem run_safe {ctx : Context} (htop : ctx.topLevel = .standard) {text : String} {e : Term}
    (haccepted : Expression.parseProgram text = .ok e.toTrace) {entries : List (Value × Value)}
    (hentries : ObservedData entries) :
    (contract m).Safe (run ctx text entries) fun _ => True := by
  unfold run
  rw [haccepted]
  refine .bind (P := (· = e.toTrace)) (Upkeep.lawful.pureRun rfl).safe ?_
  rintro _ rfl
  refine .bind (receiveTrace_safe e) ?_
  rintro _ ⟨e', rfl⟩
  have hoverlays : (contract m).Keeps (.overlays none none .null) (contract m).site :=
    Upkeep.overlays_keeps nofun nofun fun _ => .inl rfl
  have heval := (Upkeep.lawful.eval htop hoverlays (Term.gen (.tuple []) e' none) .top).safe
  rw [Watched.run_eval] at heval
  refine .bind heval fun r hr => ?_
  refine .bind (receiveObservations_safe hentries) fun received hreceived => ?_
  refine .bind (observedTrace_safe hreceived) fun observed hobserved => ?_
  exact infer_safe htop hr.1 (Upkeep.lawful.isData rfl) hobserved

/-- No run of an accepted program under accepted observations is stuck. -/
theorem run_unstuck {ctx : Context} (htop : ctx.topLevel = .standard) {text : String} {body : Trace}
    (haccepted : Expression.parseProgram text = .ok body) {observations : List (Address × Value)}
    (hobserved : ∀ entry ∈ observations, ∃ line, Observation.read line = .ok entry)
    {m m' : Machine} {f : Fault}
    (hrun : run ctx text (observations.map fun (a, v) => (a.toValue, v)) m = .error (.fault f) m') :
    f.isStuck = false := by
  obtain ⟨e, rfl⟩ := Expression.exists_of_parseProgram haccepted
  have hentries : ObservedData (observations.map fun (a, v) => (a.toValue, v)) := by
    intro entry hentry
    obtain ⟨⟨a, v⟩, hmem, rfl⟩ := List.mem_map.mp hentry
    obtain ⟨line, hline⟩ := hobserved _ hmem
    exact ⟨⟨a, rfl⟩, Observation.isData_of_read hline⟩
  have hends := run_safe htop haccepted hentries m (Upkeep.holds_of_kept .start)
  rw [hrun] at hends
  exact hends trivial

/-- A coin whose outcome is called as a procedure. -/
def calledCoin : String :=
  "((gen (x) (x x)) (flip 1))"

/-- The coin shows heads. -/
def coinHeads : String :=
  "1/flip=true"

/-- Whether a computation raises a fault. -/
def raises {α : Type} : EStateM.Result Halt Machine α → Bool
  | .error (.fault _) _ => true
  | .error .tooDeep _ | .ok _ _ => false

theorem exists_of_raises {α : Type} {x : EStateM.Result Halt Machine α} (h : raises x = true) :
    ∃ f m, x = .error (.fault f) m := by
  rcases x with ⟨_, _⟩ | ⟨_ | _, m⟩
  · cases h
  · exact ⟨_, m, rfl⟩
  · cases h

theorem exists_of_isOk {ε α : Type} {x : Except ε α} (h : x.isOk = true) : ∃ a, x = .ok a := by
  cases x with
  | ok a => exact ⟨a, rfl⟩
  | error _ => cases h

theorem calledCoin_unstuck : ∃ body entry f m',
    Expression.parseProgram calledCoin = .ok body ∧ Observation.read coinHeads = .ok entry ∧
    run .halves calledCoin [(entry.1.toValue, entry.2)] {} = .error (.fault f) m' ∧
    f.isStuck = false := by
  obtain ⟨body, hbody⟩ := exists_of_isOk (x := Expression.parseProgram calledCoin)
    (by decide +kernel)
  obtain ⟨entry, hread⟩ := exists_of_isOk (x := Observation.read coinHeads) (by decide +kernel)
  have hraises : ((Observation.read coinHeads).toOption.map fun entry =>
      raises (run .halves calledCoin [(entry.1.toValue, entry.2)] {})) = some true := by
    decide +kernel
  rw [hread] at hraises
  obtain ⟨f, m', hrun⟩ := exists_of_raises (Option.some.inj hraises)
  exact ⟨body, entry, f, m', hbody, hread, hrun,
    run_unstuck rfl hbody (List.forall_mem_singleton.mpr ⟨_, hread⟩) hrun⟩

end Program
end ProbTrace
