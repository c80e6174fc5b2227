import ProbTrace.Inference
import ProbTrace.Proofs.Isolation

/-!
# Particles are separate runs

Importance sampling runs a model again and again on one machine, each time on the random numbers
that the run before left.  Because runs are isolated, the particles are those of separate runs
that all start from the same machine.  Each run records into cells of its own, so that the traces
of the particles share no node with each other, nor with what was observed.
-/

namespace ProbTrace
namespace Isolation

/-! ## Statements -/

/-- Two traces without a common node. -/
def Apart (s : Store) (t u : Trace) : Prop :=
  ∀ a b x, s.find? t a = some x → s.find? u b ≠ some x

/-- A run from one machine and a run from a later one that end alike: with the same value, score
and trace, or with the same fault.  They have taken the same random numbers and made the same
cells and frames. -/
inductive RunsAlike (m n : Machine) : EStateM.Result Halt Machine Evaluator.Execution →
    EStateM.Result Halt Machine Evaluator.Execution → Prop
  | returned {x y : Evaluator.Execution} {m' n' : Machine} :
      Beside m n ⟨m', n'⟩ → Value.Alike (likeness m n) x.value y.value →
      Value.Alike (likeness m n) x.score y.score →
      TracesAlike (likeness m n) m'.store x.trace n'.store y.trace →
      RunsAlike m n (.ok x m') (.ok y n')
  | failed {h k : Halt} {m' n' : Machine} : Beside m n ⟨m', n'⟩ → HaltsAlike (likeness m n) h k →
      RunsAlike m n (.error h m') (.error k n')

/-- So many runs, all from one machine, each on the random numbers that the one before left. -/
def separateRuns (ctx : Context) (q : Inference.Query) (m : Machine) :
    Nat → Machine → EStateM.Result Halt Machine (List (Evaluator.Execution × Machine))
  | 0, n => .ok [] n
  | k + 1, n =>
    match q.run ctx (m.drawingAs n) with
    | .error h n' => .error h n'
    | .ok x n' =>
      match separateRuns ctx q m k n' with
      | .error h n'' => .error h n''
      | .ok xs n'' => .ok ((x, n') :: xs) n''

/-- A particle has the score and the trace of a run from a machine: of one that went beside the
run from a later machine, whose output is still there. -/
structure ParticleAlike (m n' : Machine) (run : Evaluator.Execution × Machine)
    (p : Trace × Value) : Prop where
  alike : ∃ n n₁, m.Later n ∧ Beside m n ⟨run.2, n₁⟩ ∧ n₁.Later n' ∧
    Value.Alike (likeness m n) run.1.score p.2 ∧
    TracesAlike (likeness m n) run.2.store run.1.trace n'.store p.1

/-- Particles that were sampled from a machine on, beside separate runs: what was there is kept,
each particle is as its run, all its nodes are new, and no two particles share a node. -/
structure Sampled (m n : Machine) (runs : List (Evaluator.Execution × Machine)) (m' : Machine)
    (ps : List (Trace × Value)) (n' : Machine) : Prop where
  later : n.Later n'
  draws : m'.draws = n'.draws
  spare : m'.spare = n'.spare
  alike : List.Forall₂ (ParticleAlike m n') runs ps
  between : ∀ p ∈ ps, ∀ a x, n'.store.find? p.1 a = some x →
    Between n.store.cells.size n'.store.cells.size x
  apart : ps.Pairwise fun p q => Apart n'.store p.1 q.1

/-- Sampling particles from a machine on ends as separate runs do, and the particles share no
node with what was observed. -/
inductive SampledAlike (m n : Machine) (observed : Option Trace) :
    EStateM.Result Halt Machine (List (Evaluator.Execution × Machine)) →
      EStateM.Result Halt Machine (List (Trace × Value)) → Prop
  | returned {runs : List (Evaluator.Execution × Machine)} {ps : List (Trace × Value)}
      {m' n' : Machine} : Sampled m n runs m' ps n' →
      (∀ p ∈ ps, ∀ t ∈ observed, Apart n'.store p.1 t) →
      SampledAlike m n observed (.ok runs m') (.ok ps n')
  | failed {l : Machine} {h k : Halt} {m' n' : Machine} : m.Later l →
      HaltsAlike (likeness m l) h k → m'.draws = n'.draws → m'.spare = n'.spare →
      SampledAlike m n observed (.error h m') (.error k n')

variable {m n : Machine} {s s' : Store} {t u : Trace} {v : Value}

theorem RunEnds.runsAlike {r q : EStateM.Result Halt Machine Evaluator.Execution}
    (h : RunEnds m n r q) : RunsAlike m n r q := by
  cases h with
  | returned hw hv hscore =>
    exact .returned hw hv hscore (hw.stores.tracesAlike ⟨0, rfl, rfl⟩)
  | failed hw hk => exact .failed hw hk

/-! ## Particles -/

theorem TracesAlike.unchanged {L : Likeness} {s'' : Store} (h : TracesAlike L s t s' u)
    (hu : u.Unchanged s' s'') : TracesAlike L s t s'' u where
  keys a := by
    rw [h.keys, hu.find?_eq]
    cases hx : s'.find? u a with
    | none => rfl
    | some x => rw [Option.map_some, Option.map_some, (hu a x hx).2.1]
  value a := by
    rw [hu.valueAt?_eq]
    exact h.value a

/-- A later machine has the output of a run as it was. -/
theorem StoresAlike.unchanged {n₁ n' : Machine} (h : StoresAlike m n s n₁.store)
    (hn : n₁.Later n') : n.store.next.Unchanged n₁.store n'.store := by
  intro a x hx
  obtain ⟨i, -, hi, rfl⟩ := h.between hx
  simp only [Store.value?, Store.children, Store.isWritable, hn.cell hi, and_self]

namespace Sampled

variable {runs : List (Evaluator.Execution × Machine)} {ps : List (Trace × Value)}
variable {m' n' m₁ n₁ : Machine} {score score' : Value}

theorem nil (hdraws : m'.draws = n.draws) (hspare : m'.spare = n.spare) :
    Sampled m n [] m' [] n where
  later := .refl n
  draws := hdraws
  spare := hspare
  alike := .nil
  between _ hp := nomatch hp
  apart := .nil

/-- A run, and the particles that were sampled after it. -/
theorem cons (hmn : m.Later n) (hw : Beside m n ⟨m₁, n₁⟩)
    (hscore : Value.Alike (likeness m n) score score') (h : Sampled m n₁ runs m' ps n') :
    Sampled m n (({ value := v, trace := m.store.next, score }, m₁) :: runs) m'
      ((n.store.next, score') :: ps) n' := by
  have hunchanged := hw.stores.unchanged h.later
  have hfirst {a : Address} {x : Trace} (hx : n'.store.find? n.store.next a = some x) :
      Between n.store.cells.size n₁.store.cells.size x := by
    rw [hunchanged.find?_eq] at hx
    exact hw.stores.between hx
  have htraces := (hw.stores.tracesAlike ⟨0, rfl, rfl⟩).unchanged hunchanged
  refine ⟨hw.second.trans h.later, h.draws, h.spare,
    .cons ⟨n, n₁, hmn, hw, h.later, hscore, htraces⟩ h.alike, ?_,
    List.pairwise_cons.mpr ⟨?_, h.apart⟩⟩
  · intro p hp a x hx
    rcases List.mem_cons.mp hp with rfl | hp
    · obtain ⟨i, hlow, hhigh, rfl⟩ := hfirst hx
      exact ⟨i, hlow, Nat.lt_of_lt_of_le hhigh h.later.cells, rfl⟩
    · obtain ⟨i, hlow, hhigh, rfl⟩ := h.between p hp a x hx
      exact ⟨i, Nat.le_trans hw.second.cells hlow, hhigh, rfl⟩
  · intro p hp a b x hx hy
    obtain ⟨i, -, hi, rfl⟩ := hfirst hx
    obtain ⟨j, hj, -, heq⟩ := h.between p hp b _ hy
    cases heq
    exact Nat.not_lt.mpr hj hi

/-- Particles share no node with what was there. -/
theorem apart_settled (h : Sampled m n runs m' ps n') (hmn : m.Later n)
    (ht : m.Settled (.trace t)) {p : Trace × Value} (hp : p ∈ ps) : Apart n'.store p.1 t := by
  intro a b x hx hy
  rw [(hmn.trans h.later).keptIn.find?_eq ht] at hy
  obtain ⟨i, hi, -, rfl⟩ := h.between p hp a x hx
  exact Nat.not_lt.mpr hi (Nat.lt_of_lt_of_le (ht.find? hy).cell_lt hmn.cells)

end Sampled

theorem particles_succ (ctx : Context) (q : Inference.Query) (k : Nat) (n : Machine) :
    Inference.particles ctx q (k + 1) n =
      match q.run ctx n with
      | .error h n' => .error h n'
      | .ok y n' =>
        match Inference.particles ctx q k n' with
        | .error h n'' => .error h n''
        | .ok ps n'' => .ok ((y.trace, y.score) :: ps) n'' := by
  simp only [Inference.particles, bind, EStateM.bind]
  cases q.run ctx n with
  | error h n' => rfl
  | ok y n' =>
    dsimp only
    cases Inference.particles ctx q k n' <;> rfl

/-- Sampling goes as separate runs, one particle after the other. -/
theorem particles_alike {ctx : Context} (htop : ctx.topLevel = .standard) {q : Inference.Query}
    (hmodel : m.Settled (.value q.model)) (hinputs : m.Settled (.value q.inputs))
    (hobserved : ∀ t ∈ q.observed, m.Settled (.trace t)) (hmn : m.Later n) {l : Machine}
    (hdraws : l.draws = n.draws) (hspare : l.spare = n.spare) (k : Nat) :
    SampledAlike m n q.observed (separateRuns ctx q m k l) (Inference.particles ctx q k n) := by
  have hreturned {n n' m' : Machine} {runs : List (Evaluator.Execution × Machine)}
      {ps : List (Trace × Value)} (hmn : m.Later n) (h : Sampled m n runs m' ps n') :
      SampledAlike m n q.observed (.ok runs m') (.ok ps n') :=
    .returned h fun p hp t ht => h.apart_settled hmn (hobserved t ht) hp
  have hread : ∀ t, t ∈ none ∨ t ∈ q.observed → m.Settled (.trace t) := by
    rintro t (ht | ht)
    · cases ht
    · exact hobserved t ht
  induction k generalizing n l with
  | zero => exact hreturned hmn (.nil hdraws hspare)
  | succ k ih =>
    have hstart : m.drawingAs l = m.drawingAs n := by
      simp only [Machine.drawingAs, hdraws, hspare]
    have hends : RunEnds m n (q.run ctx (m.drawingAs n)) (q.run ctx n) :=
      infer_ends htop hmodel hinputs hread hmn
    rw [particles_succ, separateRuns, hstart]
    revert hends
    generalize q.run ctx (m.drawingAs n) = r
    generalize q.run ctx n = r'
    intro hends
    cases hends with
    | failed hw hk => exact .failed hmn hk hw.draws hw.spare
    | @returned v v' score score' m₁ n₁ hw hv hscore =>
      -- The next particle starts from what this one left, the separate run from `m` again.
      have hrest := ih (hmn.trans hw.second) hw.draws hw.spare
      revert hrest
      dsimp only
      generalize separateRuns ctx q m k m₁ = xs
      generalize Inference.particles ctx q k n₁ = ps
      intro hrest
      cases hrest with
      | returned hsampled _ => exact hreturned hmn (.cons hmn hw hscore hsampled)
      | failed hl hk hdraws hspare => exact .failed hl hk hdraws hspare

/-- Runs of one procedure are isolated from each other.  A second run on the same random numbers
ends as the first one, and sampling particles gives what separate runs give, in traces of their
own.  The procedure is any that an evaluation from a closed machine gives. -/
theorem runs_isolated {ctx : Context} (htop : ctx.topLevel = .standard) {m₀ m : Machine}
    (hclosed : m₀.Closed) {exp : Trace} (hexp : m₀.Knows (.trace exp)) {proc : Value}
    {score : Float}
    (heval : Evaluator.eval ctx (.trace exp) .top none none .null m₀ = .ok (proc, score) m)
    (hproc : m.TagFree (.value proc)) {inputs : Value}
    (hinputs : m.Knows (.value inputs) ∧ m.TagFree (.value inputs))
    {observed forced : Option Trace} (hread : ∀ t, t ∈ forced ∨ t ∈ observed →
      m.Knows (.trace t) ∧ m.TagFree (.trace t)) :
    let run := Evaluator.infer ctx proc inputs observed forced
    let n := (run.leaves m).drawingAs m
    RunsAlike m n (run m) (run n) ∧
    ∀ {count : Value} {k : Nat}, Inference.repetitions count = .ok k →
      let q : Inference.Query := { model := proc, inputs, observed }
      SampledAlike m m observed (separateRuns ctx q m k m) (Inference.importance ctx q count m) := by
  obtain ⟨-, hclosed, hknows⟩ := Integrity.eval htop hexp .top hclosed heval
  have hproc : m.Settled (.value proc) := hclosed.settled hknows hproc
  have hinputs : m.Settled (.value inputs) := hclosed.settled hinputs.1 hinputs.2
  have hread : ∀ t, t ∈ forced ∨ t ∈ observed → m.Settled (.trace t) :=
    fun t ht => hclosed.settled (hread t ht).1 (hread t ht).2
  intro run n
  refine ⟨?_, fun {count k} hcount => ?_⟩
  · have hlater : m.Later n := (later_leaves htop hproc hinputs hread (.refl m)).drawingAs m
    exact (infer_ends htop hproc hinputs hread hlater).runsAlike
  · have himportance {q : Inference.Query} :
        Inference.importance ctx q count m = Inference.particles ctx q k m := by
      unfold Inference.importance
      rw [hcount]
      rfl
    intro q
    rw [himportance]
    exact particles_alike (q := q) htop hproc hinputs (fun t ht => hread t (.inr ht)) (.refl m)
      rfl rfl k

/-- A procedure that throws a coin and gives it with a procedure that tells the bias. -/
def biasedCoin : Trace :=
  Expression.gen (Expression.tuplePattern [])
    (Expression.application [Expression.reference "tuple",
      Expression.application [Expression.reference "flip", Expression.reference "bias"],
      Expression.gen (Expression.tuplePattern []) (Expression.reference "bias") none]) none

/-- The same where the bias is a half, which a frame holds. -/
def fairCoin : Trace :=
  Expression.application
    [Expression.gen (Expression.tuplePattern [Expression.reference "bias"]) biasedCoin none,
      Expression.literal (.float 0.5)]

/-- The machine in which the frame is there. -/
def fairMachine : Machine where
  frames := #[.tree none [(.name "bias", .leaf (.float 0.5))]]
  serials := 2

theorem fairCoin_tagFree :
    fairMachine.TagFree (.value (.closure 1 biasedCoin (.frame 0 .top) .null)) := by
  have hscope : fairMachine.Sound (.scope (.frame 0 .top)) := by
    refine .intro nofun nofun (fun id c h => ?_) fun y hy => ?_
    · cases h
      decide
    · cases hy with
      | outer _ _ => exact .top
      | bound hv =>
        cases List.mem_singleton.mp hv
        exact .ofData rfl
  have hproc : fairMachine.Sound (.value (.closure 1 biasedCoin (.frame 0 .top) .null)) := by
    refine .intro nofun nofun nofun fun y hy => ?_
    cases hy with
    | source _ _ _ _ => exact .ofData rfl
    | scope _ _ _ _ => exact hscope
    | name _ _ _ _ => exact .ofData rfl
    | item hitems _ => cases hitems
  exact hproc.1

/-- Heads were seen. -/
def seenFlip : Trace :=
  .tree none [(.index 1, .tree none [(.name "flip", .leaf (.bool true))])]

/-- Two runs and three particles of the coin, which was seen to show heads. -/
theorem fairCoin_isolated :
    let q : Inference.Query :=
      { model := .closure 1 biasedCoin (.frame 0 .top) .null, observed := some seenFlip }
    let n := ((q.run .halves).leaves fairMachine).drawingAs fairMachine
    Evaluator.eval .halves (.trace fairCoin) .top none none .null {} =
        .ok (q.model, 0.0) fairMachine ∧
      fairMachine.TagFree (.value q.model) ∧
      RunsAlike fairMachine n (q.run .halves fairMachine) (q.run .halves n) ∧
      (∃ ps m', Inference.importance .halves q (.int 3) fairMachine = .ok ps m') ∧
      SampledAlike fairMachine fairMachine q.observed
        (separateRuns .halves q fairMachine 3 fairMachine)
        (Inference.importance .halves q (.int 3) fairMachine) := by
  intro q n
  have heval : Evaluator.eval .halves (.trace fairCoin) .top none none .null {} =
      .ok (q.model, 0.0) fairMachine := rfl
  have hcoin : ({} : Machine).Knows (.trace fairCoin) := by
    simp [fairCoin, biasedCoin, Expression.application, Expression.gen, Expression.tuplePattern,
      Expression.reference, Expression.literal, Expression.numbered, Trace.node, Trace.leaf]
  have hinputs : fairMachine.Knows (.value q.inputs) ∧ fairMachine.TagFree (.value q.inputs) :=
    ⟨.list (by rintro _ ⟨⟩), (Machine.Sound.ofData rfl).1⟩
  have hread : ∀ t, t ∈ none ∨ t ∈ q.observed →
      fairMachine.Knows (.trace t) ∧ fairMachine.TagFree (.trace t) := by
    rintro t (ht | ht)
    · cases ht
    · cases ht
      exact ⟨by simp [seenFlip, Trace.leaf], (Machine.Sound.ofData rfl).1⟩
  have hisolated := runs_isolated rfl .initial hcoin heval fairCoin_tagFree hinputs hread
  exact ⟨heval, fairCoin_tagFree, hisolated.1, exists_of_returns (by decide +kernel),
    hisolated.2 rfl⟩

end Isolation
end ProbTrace
