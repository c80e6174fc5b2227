import ProbTrace.Proofs.Grammar
import ProbTrace.Proofs.Reachability

/-!
# Syntax trees of expressions

The expressions that are built from forms, as syntax trees.  Every such tree is written as
one trace, and what is built from a form of data is the trace of a tree.  What evaluation
reads of the trace of a tree does not depend on the store.

A definition binds in the innermost frame, which a block opens or the call of a procedure.
The sites of a scope are the addresses at which its frame is bound, with the patterns.
-/

namespace ProbTrace

open Expression (numbered numbered_injective)

/-- Patterns. -/
inductive Shape where
  | name (s : String)
  | rest
  | tuple (parts : List Shape)

namespace Shape

mutual

/-- The trace of a pattern. -/
def toTrace : Shape → Trace
  | name s => Expression.reference s
  | rest => Expression.restMarker
  | tuple parts => Expression.tuplePattern (toTraces parts)

/-- The traces of the parts of a pattern. -/
def toTraces : List Shape → List Trace
  | [] => []
  | p :: ps => p.toTrace :: toTraces ps

end

mutual

/-- The names that a pattern binds. -/
def names : Shape → List String
  | name s => [s]
  | rest => []
  | tuple parts => partNames parts

/-- The names that the parts of a pattern bind. -/
def partNames : List Shape → List String
  | [] => []
  | p :: ps => p.names ++ partNames ps

end

/-- The key of the right-hand side of a definition. -/
def key : Shape → Key
  | name s => if s = Pattern.wildcard then Pattern.definiensKey else .name s
  | _ => Pattern.definiensKey

end Shape

/-- Syntax trees of expressions.  Literals are data, and the right-hand side of a
definition does not stand where its pattern does. -/
inductive Term where
  | literal (v : Value) (data : v.isData = true)
  | reference (name : String)
  | application (operator : Term) (operands : List Term)
  | gen (pattern : Shape) (body : Term) (name : Option String)
  | conditional (predicate yes no : Term)
  | block (statements : List Term)
  | definition (pattern : Shape) (rhs : Term) (apart : pattern.key ≠ .name "pattern")
  | this
  | withAddress (tag exp : Term)

namespace Term

mutual

/-- The trace of an expression. -/
def toTrace : Term → Trace
  | literal v _ => Expression.literal v
  | reference name => Expression.reference name
  | application operator operands => Expression.application (operator.toTrace :: toTraces operands)
  | gen pattern body name => Expression.gen pattern.toTrace body.toTrace name
  | conditional predicate yes no =>
    Expression.conditional predicate.toTrace yes.toTrace no.toTrace
  | block statements => Expression.block (toTraces statements)
  | definition pattern rhs _ =>
    .node Expression.Kind.definition.word
      [(.name "pattern", pattern.toTrace), (pattern.key, rhs.toTrace)]
  | this => Expression.this
  | withAddress tag exp => Expression.withAddress tag.toTrace exp.toTrace

/-- The traces of several expressions. -/
def toTraces : List Term → List Trace
  | [] => []
  | t :: ts => t.toTrace :: toTraces ts

end

mutual

/-- Whether no part of an expression is evaluated under the overlays of a tag. -/
def isStationary : Term → Bool
  | application operator operands => operator.isStationary && areStationary operands
  | gen _ body _ => body.isStationary
  | conditional predicate yes no => predicate.isStationary && yes.isStationary && no.isStationary
  | block statements => areStationary statements
  | definition _ rhs _ => rhs.isStationary
  | withAddress _ _ => false
  | _ => true

/-- Whether no part of several expressions is evaluated under the overlays of a tag. -/
def areStationary : List Term → Bool
  | [] => true
  | t :: ts => t.isStationary && areStationary ts

end

mutual

/-- Whether overlays are captured inside of procedures only. -/
def defersCapture : Term → Bool
  | application operator operands => operator.defersCapture && allDeferCapture operands
  | conditional predicate yes no =>
    predicate.defersCapture && yes.defersCapture && no.defersCapture
  | block statements => allDeferCapture statements
  | definition _ rhs _ => rhs.defersCapture
  | this => false
  | withAddress tag exp => tag.defersCapture && exp.defersCapture
  | _ => true

/-- Whether several expressions capture overlays inside of procedures only. -/
def allDeferCapture : List Term → Bool
  | [] => true
  | t :: ts => t.defersCapture && allDeferCapture ts

end

/-- The kind of an expression. -/
def kind : Term → Expression.Kind
  | literal _ _ => .literal
  | reference _ => .reference
  | application _ _ => .application
  | gen _ _ _ => .gen
  | conditional _ _ _ => .conditional
  | block _ => .block
  | definition _ _ _ => .definition
  | this => .this
  | withAddress _ _ => .withAddress

end Term

/-! ## What is built from forms -/

theorem Shape.definiens_toTrace (s : Store) (p : Shape) :
    s.definiens (.trace p.toTrace) = .ok p.key := by
  cases p with
  | name n => exact Expression.definiens_reference s n
  | rest => rfl
  | tuple parts => rfl

open Expression (PatternTree PatternParts ExpressionTree BodyTree ExpressionParts)

mutual

theorem Shape.exists_of_patternTree {v : Value} {t : Trace} :
    PatternTree v t → ∃ p : Shape, p.toTrace = t
  | .rest => ⟨.rest, rfl⟩
  | .name _ => ⟨.name _, rfl⟩
  | .tuple h => by
    obtain ⟨ps, rfl⟩ := Shape.exists_of_patternParts h
    exact ⟨.tuple ps, rfl⟩

theorem Shape.exists_of_patternParts {i : Nat} {vs : List Value} {cs : List (Key × Trace)} :
    PatternParts i vs cs → ∃ ps : List Shape, numbered i (Shape.toTraces ps) = cs
  | .nil => ⟨[], rfl⟩
  | .cons h hs => by
    obtain ⟨p, rfl⟩ := Shape.exists_of_patternTree h
    obtain ⟨ps, rfl⟩ := Shape.exists_of_patternParts hs
    exact ⟨p :: ps, rfl⟩

end

mutual

theorem isData_datum : ∀ (v : Value), v.isData = true → (Expression.datum v).isData = true
  | .symbol _, _ => rfl
  | .quoted v, h => isData_datum v h
  | .list vs, h => allData_data vs h
  | .null, _ | .bool _, _ | .int _, _ | .float _, _ | .undefined _, _ | .text _, _ => rfl
  | .tuple _, h | .brackets _, h | .trace _, h => h
  | .tag _ _, h | .closure _ _ _ _, h | .builtin _, h | .special _, h => nomatch h

theorem allData_data : ∀ (vs : List Value), allData vs = true →
    allData (Expression.data vs) = true
  | [], _ => rfl
  | v :: vs, h => by
    rw [allData, Bool.and_eq_true] at h
    rw [Expression.data, allData, Bool.and_eq_true]
    exact ⟨isData_datum v h.1, allData_data vs h.2⟩

end


namespace Term

/-- The body of a procedure. -/
def bodyOf : List Term → Term
  | [t] => t
  | ts => block ts

theorem toTrace_bodyOf (ts : List Term) :
    (bodyOf ts).toTrace = Expression.bodyOf (toTraces ts) := by
  match ts with
  | [] | [_] | _ :: _ :: _ => rfl

theorem exists_literal {v : Value} (h : v.isData = true) :
    ∃ e : Term, e.toTrace = Expression.literal v :=
  ⟨.literal v h, rfl⟩

mutual

/-- The tree of a form of data is the trace of a syntax tree. -/
theorem exists_of_expressionTree {name : Option String} {v : Value} {t : Trace}
    (htree : ExpressionTree name v t) (hv : v.isData = true) : ∃ e : Term, e.toTrace = t := by
  match htree with
  | .null => exact exists_literal rfl
  | .reference _ => exact ⟨.reference _, rfl⟩
  | .bool _ | .int _ | .float _ | .undefined _ | .text _ | .empty => exact exists_literal rfl
  | .quoted v => exact exists_literal (isData_datum v hv)
  | .quote v =>
    simp only [Value.isData, allData, Bool.and_true, Bool.true_and] at hv
    exact exists_literal (isData_datum v hv)
  | .gen hp hbody =>
    simp only [Value.isData, allData, Bool.true_and, Bool.and_eq_true] at hv
    obtain ⟨p, rfl⟩ := Shape.exists_of_patternTree hp
    obtain ⟨e, rfl⟩ := exists_of_bodyTree hbody hv.2
    refine ⟨.gen p e name, ?_⟩
    cases name <;> rfl
  | .define hp hne hkey hrhs =>
    simp only [Value.isData, allData, Bool.and_true, Bool.true_and, Bool.and_eq_true] at hv
    obtain ⟨e, rfl⟩ := exists_of_expressionTree hrhs hv.2
    have hapart := hp.definiens_ne hne hkey
    obtain ⟨p, rfl⟩ := Shape.exists_of_patternTree hp
    obtain rfl : p.key = _ := Except.ok.inj ((p.definiens_toTrace {}).symm.trans (hkey {}))
    exact ⟨.definition p e hapart, rfl⟩
  | .oneSided hp hy =>
    simp only [Value.isData, allData, Bool.and_true, Bool.true_and, Bool.and_eq_true] at hv
    obtain ⟨p, rfl⟩ := exists_of_expressionTree hp hv.1
    obtain ⟨y, rfl⟩ := exists_of_expressionTree hy hv.2
    exact ⟨.conditional p y (.literal .null rfl), rfl⟩
  | .conditional hp hy hn =>
    simp only [Value.isData, allData, Bool.and_true, Bool.true_and, Bool.and_eq_true] at hv
    obtain ⟨p, rfl⟩ := exists_of_expressionTree hp hv.1
    obtain ⟨y, rfl⟩ := exists_of_expressionTree hy hv.2.1
    obtain ⟨n, rfl⟩ := exists_of_expressionTree hn hv.2.2
    exact ⟨.conditional p y n, rfl⟩
  | .block hparts =>
    obtain ⟨es, rfl⟩ := exists_of_expressionParts hparts hv
    exact ⟨.block es, rfl⟩
  | .this => exact ⟨.this, rfl⟩
  | .withAddress ht he =>
    simp only [Value.isData, allData, Bool.and_true, Bool.true_and, Bool.and_eq_true] at hv
    obtain ⟨t, rfl⟩ := exists_of_expressionTree ht hv.1
    obtain ⟨e, rfl⟩ := exists_of_expressionTree he hv.2
    exact ⟨.withAddress t e, rfl⟩
  | .application _ hparts =>
    obtain ⟨es, rfl⟩ := exists_of_expressionParts hparts hv
    cases es with
    | nil => cases hparts
    | cons e es => exact ⟨.application e es, rfl⟩

theorem exists_of_bodyTree {vs : List Value} {t : Trace} (htree : BodyTree vs t)
    (hvs : allData vs = true) : ∃ e : Term, e.toTrace = t := by
  match htree with
  | .single h =>
    rw [allData, Bool.and_eq_true] at hvs
    exact exists_of_expressionTree h hvs.1
  | .several hparts =>
    obtain ⟨es, rfl⟩ := exists_of_expressionParts hparts hvs
    exact ⟨.block es, rfl⟩

theorem exists_of_expressionParts {i : Nat} {vs : List Value} {cs : List (Key × Trace)}
    (hparts : ExpressionParts i vs cs) (hvs : allData vs = true) :
    ∃ es : List Term, numbered i (toTraces es) = cs := by
  match hparts with
  | .nil => exact ⟨[], rfl⟩
  | .cons h hs =>
    rw [allData, Bool.and_eq_true] at hvs
    obtain ⟨e, rfl⟩ := exists_of_expressionTree h hvs.1
    obtain ⟨es, rfl⟩ := exists_of_expressionParts hs hvs.2
    exact ⟨e :: es, rfl⟩

end

theorem exists_of_buildNamed {v : Value} {name : Option String} {t : Trace}
    (hv : v.isData = true) (h : Expression.buildNamed name v = .ok t) :
    ∃ e : Term, e.toTrace = t :=
  exists_of_expressionTree (Expression.tree_of_buildNamed h) hv

theorem exists_of_buildAll {vs : List Value} {ts : List Trace} (hvs : allData vs = true)
    (h : Expression.buildAll vs = .ok ts) : ∃ es : List Term, toTraces es = ts := by
  obtain ⟨es, hes⟩ := exists_of_expressionParts (Expression.parts_of_buildAll h 0) hvs
  exact ⟨es, Expression.numbered_injective hes⟩

end Term

/-! ## What a run receives -/

mutual

theorem isData_enrollAll : ∀ (v : Value) (n : Nat), v.isData = true →
    (v.enrollAll n).1.isData = true
  | .list vs, n, h => allData_enrollItems vs n h
  | .tuple vs, n, h => allData_enrollItems vs n h
  | .quoted v, n, h => isData_enrollAll v n h
  | .brackets vs, n, h => allData_enrollItems vs n h
  | .trace t, n, h => Trace.isData_enrollAll t n h
  | .float x, n, _ => by
    show ((Value.float x).enroll n).1.isData = true
    rw [Value.enroll]
    split <;> rfl
  | .null, _, _ | .bool _, _, _ | .int _, _, _ | .undefined _, _, _ | .text _, _, _
  | .symbol _, _, _ => rfl
  | .tag _ _, _, h | .closure _ _ _ _, _, h | .builtin _, _, h | .special _, _, h => nomatch h

theorem allData_enrollItems : ∀ (vs : List Value) (n : Nat), allData vs = true →
    allData (enrollItems vs n).1 = true
  | [], _, _ => rfl
  | v :: vs, n, h => by
    rw [allData, Bool.and_eq_true] at h
    rw [enrollItems, allData, Bool.and_eq_true]
    exact ⟨isData_enrollAll v n h.1, allData_enrollItems vs _ h.2⟩

theorem Trace.isData_enrollAll : ∀ (t : Trace) (n : Nat), t.isData = true →
    (t.enrollAll n).1.isData = true
  | .tree (some v) cs, n, h => by
    rw [Trace.isData, Bool.and_eq_true] at h
    rw [Trace.enrollAll, Trace.isData, Bool.and_eq_true]
    exact ⟨ProbTrace.isData_enrollAll v n h.1, childrenData_enrollChildren cs _ h.2⟩
  | .tree none cs, n, h => childrenData_enrollChildren cs n h

theorem childrenData_enrollChildren : ∀ (cs : List (Key × Trace)) (n : Nat),
    childrenData cs = true → childrenData (enrollChildren cs n).1 = true
  | [], _, _ => rfl
  | (_, t) :: rest, n, h => by
    rw [childrenData, Bool.and_eq_true] at h
    rw [enrollChildren, childrenData, Bool.and_eq_true]
    exact ⟨Trace.isData_enrollAll t n h.1, childrenData_enrollChildren rest _ h.2⟩

end

mutual

theorem Shape.enrollAll_toTrace : ∀ (p : Shape) (n : Nat), p.toTrace.enrollAll n = (p.toTrace, n)
  | .name _, _ => rfl
  | .rest, _ => rfl
  | .tuple parts, n => by
    have h := Shape.enrollChildren_toTraces parts 0 n
    simp only [toTrace, Expression.tuplePattern, Trace.node, Trace.enrollAll, Value.enrollAll,
      Value.enroll, h]

theorem Shape.enrollChildren_toTraces : ∀ (ps : List Shape) (i n : Nat),
    enrollChildren (numbered i (Shape.toTraces ps)) n = (numbered i (Shape.toTraces ps), n)
  | [], _, _ => rfl
  | p :: ps, i, n => by
    simp only [Shape.toTraces, numbered, enrollChildren, Shape.enrollAll_toTrace p n,
      Shape.enrollChildren_toTraces ps (i + 1) n]

end

namespace Term

mutual

theorem exists_of_enrollAll : ∀ (e : Term) (n : Nat), ∃ e' : Term,
    e'.toTrace = (e.toTrace.enrollAll n).1
  | .literal v h, n => ⟨.literal (v.enrollAll n).1 (isData_enrollAll v n h), rfl⟩
  | .reference name, _ => ⟨.reference name, rfl⟩
  | .application operator operands, n => by
    obtain ⟨e, he⟩ := exists_of_enrollAll operator n
    obtain ⟨es, hes⟩ := exists_of_enrollChildren operands 1 (operator.toTrace.enrollAll n).2
    refine ⟨.application e es, ?_⟩
    simp only [toTrace, Expression.application, Trace.node, Trace.enrollAll, Value.enrollAll,
      Value.enroll, numbered, enrollChildren, he, ← hes]
  | .gen pattern body name, n => by
    obtain ⟨e, he⟩ := exists_of_enrollAll body n
    refine ⟨.gen pattern e name, ?_⟩
    cases name with
    | none =>
      simp only [toTrace, Expression.gen, Trace.node, Trace.enrollAll, Value.enrollAll,
        Value.enroll, Option.map_none, Option.toList_none, List.append_nil, enrollChildren,
        pattern.enrollAll_toTrace, he]
    | some s =>
      simp only [toTrace, Expression.gen, Trace.node, Trace.leaf, Trace.enrollAll,
        Value.enrollAll, Value.enroll, Option.map_some, Option.toList_some, List.cons_append,
        List.nil_append, enrollChildren, pattern.enrollAll_toTrace, he]
  | .conditional predicate yes no, n => by
    obtain ⟨p, hp⟩ := exists_of_enrollAll predicate n
    obtain ⟨y, hy⟩ := exists_of_enrollAll yes (predicate.toTrace.enrollAll n).2
    obtain ⟨x, hx⟩ := exists_of_enrollAll no
      (yes.toTrace.enrollAll (predicate.toTrace.enrollAll n).2).2
    refine ⟨.conditional p y x, ?_⟩
    simp only [toTrace, Expression.conditional, Trace.node, Trace.enrollAll, Value.enrollAll,
      Value.enroll, enrollChildren, hp, hy, hx]
  | .block statements, n => by
    obtain ⟨es, hes⟩ := exists_of_enrollChildren statements 0 n
    refine ⟨.block es, ?_⟩
    simp only [toTrace, Expression.block, Trace.node, Trace.enrollAll, Value.enrollAll,
      Value.enroll, ← hes]
  | .definition pattern rhs h, n => by
    obtain ⟨e, he⟩ := exists_of_enrollAll rhs n
    refine ⟨.definition pattern e h, ?_⟩
    simp only [toTrace, Trace.node, Trace.enrollAll, Value.enrollAll, Value.enroll,
      enrollChildren, pattern.enrollAll_toTrace, he]
  | .this, _ => ⟨.this, rfl⟩
  | .withAddress tag exp, n => by
    obtain ⟨t, ht⟩ := exists_of_enrollAll tag n
    obtain ⟨e, he⟩ := exists_of_enrollAll exp (tag.toTrace.enrollAll n).2
    refine ⟨.withAddress t e, ?_⟩
    simp only [toTrace, Expression.withAddress, Trace.node, Trace.enrollAll, Value.enrollAll,
      Value.enroll, enrollChildren, ht, he]

theorem exists_of_enrollChildren : ∀ (es : List Term) (i n : Nat), ∃ es' : List Term,
    numbered i (toTraces es') = (enrollChildren (numbered i (toTraces es)) n).1
  | [], _, _ => ⟨[], rfl⟩
  | e :: es, i, n => by
    obtain ⟨e', he⟩ := exists_of_enrollAll e n
    obtain ⟨es', hes⟩ := exists_of_enrollChildren es (i + 1) (e.toTrace.enrollAll n).2
    refine ⟨e' :: es', ?_⟩
    simp only [toTraces, numbered, enrollChildren, he, hes]

end

end Term

/-- An expression that was built from a form of data, as a run receives it. -/
def Expression.Built (t : Trace) : Prop :=
  ∃ form u serials, form.isData = true ∧ Expression.build form = .ok u ∧
    (u.enrollAll serials).1 = t

theorem Expression.Built.exists_term {t : Trace} (h : Expression.Built t) :
    ∃ e : Term, e.toTrace = t := by
  obtain ⟨form, u, serials, hform, hbuild, rfl⟩ := h
  obtain ⟨e, rfl⟩ := Term.exists_of_buildNamed hform hbuild
  exact e.exists_of_enrollAll serials

/-- An expression without a `with-address` node. -/
def Expression.Stationary (t : Trace) : Prop :=
  ∃ e : Term, e.toTrace = t ∧ e.isStationary = true

/-- An expression whose `this` nodes lie in the bodies of procedures. -/
def Expression.DefersCapture (t : Trace) : Prop :=
  ∃ e : Term, e.toTrace = t ∧ e.defersCapture = true

theorem Term.areStationary_eq (ts : List Term) : areStationary ts = ts.all isStationary := by
  induction ts with
  | nil => rfl
  | cons t ts ih => rw [areStationary, ih, List.all_cons]

theorem Term.isStationary_of_mem {t : Term} {ts : List Term} (h : areStationary ts = true)
    (ht : t ∈ ts) : t.isStationary = true :=
  List.all_eq_true.mp (areStationary_eq ts ▸ h) t ht

theorem Term.allDeferCapture_eq (ts : List Term) : allDeferCapture ts = ts.all defersCapture := by
  induction ts with
  | nil => rfl
  | cons t ts ih => rw [allDeferCapture, ih, List.all_cons]

theorem Term.defersCapture_of_mem {t : Term} {ts : List Term} (h : allDeferCapture ts = true)
    (ht : t ∈ ts) : t.defersCapture = true :=
  List.all_eq_true.mp (allDeferCapture_eq ts ▸ h) t ht

/-! ## Trees of data -/

theorem childrenData_numbered {ts : List Trace} (h : ∀ t ∈ ts, t.isData = true) (i : Nat) :
    childrenData (numbered i ts) = true := by
  induction ts generalizing i with
  | nil => rfl
  | cons t ts ih =>
    rw [numbered, childrenData, h t List.mem_cons_self, Bool.true_and]
    exact ih (fun u hu => h u (List.mem_cons_of_mem t hu)) (i + 1)

mutual

theorem Shape.isData_toTrace : ∀ p : Shape, p.toTrace.isData = true
  | .name _ => rfl
  | .rest => rfl
  | .tuple parts => childrenData_numbered (Shape.isData_toTraces parts) 0

theorem Shape.isData_toTraces : ∀ (ps : List Shape), ∀ t ∈ Shape.toTraces ps, t.isData = true
  | [], _, ht => nomatch ht
  | p :: ps, t, ht => by
    rcases List.mem_cons.mp ht with rfl | ht
    · exact Shape.isData_toTrace p
    · exact Shape.isData_toTraces ps t ht

end

mutual

/-- The trace of a syntax tree is a tree of data. -/
theorem Term.isData_toTrace : ∀ e : Term, e.toTrace.isData = true
  | .literal v h => by simpa [toTrace, Expression.literal, Trace.node, Trace.leaf, Trace.isData,
      childrenData, Value.isData] using h
  | .reference _ => rfl
  | .application t ts =>
    childrenData_numbered (List.forall_mem_cons.mpr ⟨t.isData_toTrace, Term.isData_toTraces ts⟩) 0
  | .gen p t name => by
    cases name <;> simp [toTrace, Expression.gen, Trace.node, Trace.leaf, Trace.isData,
      childrenData, Value.isData, p.isData_toTrace, t.isData_toTrace]
  | .conditional p y n => by
    simp [toTrace, Expression.conditional, Trace.node, Trace.isData, childrenData, Value.isData,
      p.isData_toTrace, y.isData_toTrace, n.isData_toTrace]
  | .block ts => childrenData_numbered (Term.isData_toTraces ts) 0
  | .definition p t _ => by
    simp [toTrace, Trace.node, Trace.isData, childrenData, Value.isData, p.isData_toTrace,
      t.isData_toTrace]
  | .this => rfl
  | .withAddress t u => by
    simp [toTrace, Expression.withAddress, Trace.node, Trace.isData, childrenData, Value.isData,
      t.isData_toTrace, u.isData_toTrace]

theorem Term.isData_toTraces : ∀ (ts : List Term), ∀ u ∈ toTraces ts, u.isData = true
  | [], _, hu => nomatch hu
  | t :: ts, u, hu => by
    rcases List.mem_cons.mp hu with rfl | hu
    · exact t.isData_toTrace
    · exact Term.isData_toTraces ts u hu

end

/-! ## Reading expressions -/

theorem childAt?_numbered (ts : List Trace) (i j : Nat) :
    childAt? (numbered j ts) (.index (j + i : Nat)) = ts[i]? := by
  induction ts generalizing i j with
  | nil => rfl
  | cons t ts ih =>
    rw [numbered, childAt?_cons]
    cases i with
    | zero => simp
    | succ i =>
      have hne : Key.index (j : Nat) ≠ .index (j + (i + 1) : Nat) := by
        intro h
        have := Key.index.inj h
        omega
      have hshift : j + (i + 1) = j + 1 + i := by omega
      rw [if_neg hne, List.getElem?_cons_succ, hshift]
      exact ih i (j + 1)

theorem childAt?_numbered_name (ts : List Trace) (i : Nat) (s : String) :
    childAt? (numbered i ts) (.name s) = none := by
  induction ts generalizing i with
  | nil => rfl
  | cons t ts ih =>
    rw [numbered, childAt?_cons, if_neg (by simp)]
    exact ih (i + 1)

namespace Shape

mutual

theorem toTrace_injective : ∀ {p q : Shape}, p.toTrace = q.toTrace → p = q
  | .name s, .name t, h => by
    simp only [toTrace, Expression.reference, Trace.node, Trace.leaf] at h
    simpa using h
  | .rest, .rest, _ => rfl
  | .tuple ps, .tuple qs, h => by
    simp only [toTrace, Expression.tuplePattern, Trace.node, Trace.tree.injEq, true_and] at h
    rw [toTraces_injective (numbered_injective h)]
  | .name _, .rest, h | .name _, .tuple _, h | .rest, .name _, h | .rest, .tuple _, h
  | .tuple _, .name _, h | .tuple _, .rest, h => by
    simp [toTrace, Expression.reference, Expression.restMarker, Expression.tuplePattern,
      Trace.node, Expression.Kind.word, Pattern.variableKind, Pattern.restKind,
      Pattern.tupleKind] at h

theorem toTraces_injective : ∀ {ps qs : List Shape}, toTraces ps = toTraces qs → ps = qs
  | [], [], _ => rfl
  | p :: ps, q :: qs, h => by
    simp only [toTraces, List.cons.injEq] at h
    rw [toTrace_injective h.1, toTraces_injective h.2]

end

end Shape

namespace Term

theorem kindOf_toTrace (s : Store) (e : Term) : Watched.kindOf s e.toTrace = some e.kind := by
  cases e <;> rfl

theorem getElem?_toTraces (ts : List Term) (i : Nat) : (toTraces ts)[i]? = ts[i]?.map toTrace := by
  induction ts generalizing i with
  | nil => rfl
  | cons t ts ih =>
    cases i with
    | zero => rfl
    | succ i => exact ih i

theorem length_toTraces (ts : List Term) : (toTraces ts).length = ts.length := by
  induction ts with
  | nil => rfl
  | cons t ts ih => rw [toTraces, List.length_cons, List.length_cons, ih]

mutual

/-- The trace of an expression has no other syntax tree. -/
theorem toTrace_injective : ∀ {e f : Term}, e.toTrace = f.toTrace → e = f := by
  intro e f h
  have hkind : e.kind = f.kind := by
    have hsome := kindOf_toTrace {} e
    rw [h, kindOf_toTrace] at hsome
    exact (Option.some.inj hsome).symm
  match e, f, hkind, h with
  | .literal v _, .literal w _, _, h =>
    simp only [toTrace, Expression.literal, Trace.node, Trace.leaf] at h
    simpa using h
  | .reference s, .reference t, _, h =>
    simp only [toTrace, Expression.reference, Trace.node, Trace.leaf] at h
    simpa using h
  | .application f fs, .application g gs, _, h =>
    simp only [toTrace, Expression.application, Trace.node, Trace.tree.injEq, true_and] at h
    have hparts := List.cons.inj (numbered_injective h)
    rw [toTrace_injective hparts.1, toTraces_injective hparts.2]
  | .gen p b m, .gen q c n, _, h =>
    simp only [toTrace, Expression.gen, Trace.node, Trace.tree.injEq, true_and, List.cons_append,
      List.nil_append, List.cons.injEq, Prod.mk.injEq] at h
    obtain ⟨hp, hb, hname⟩ := h
    have hmn : m = n := by
      cases m <;> cases n <;> simp [Trace.leaf] at hname ⊢
      exact hname
    rw [Shape.toTrace_injective hp, toTrace_injective hb, hmn]
  | .conditional p y x, .conditional q z w, _, h =>
    simp only [toTrace, Expression.conditional, Trace.node, Trace.tree.injEq, true_and,
      List.cons.injEq, Prod.mk.injEq, and_true] at h
    rw [toTrace_injective h.1, toTrace_injective h.2.1, toTrace_injective h.2.2]
  | .block ts, .block us, _, h =>
    simp only [toTrace, Expression.block, Trace.node, Trace.tree.injEq, true_and] at h
    rw [toTraces_injective (numbered_injective h)]
  | .definition p r _, .definition q s _, _, h =>
    simp only [toTrace, Trace.node, Trace.tree.injEq, true_and, List.cons.injEq, Prod.mk.injEq,
      and_true] at h
    cases Shape.toTrace_injective h.1
    cases toTrace_injective h.2.2
    rfl
  | .this, .this, _, _ => rfl
  | .withAddress t e, .withAddress u f, _, h =>
    simp only [toTrace, Expression.withAddress, Trace.node, Trace.tree.injEq, true_and,
      List.cons.injEq, Prod.mk.injEq, and_true] at h
    rw [toTrace_injective h.1, toTrace_injective h.2]

theorem toTraces_injective : ∀ {es fs : List Term}, toTraces es = toTraces fs → es = fs
  | [], [], _ => rfl
  | e :: es, f :: fs, h => by
    simp only [toTraces, List.cons.injEq] at h
    rw [toTrace_injective h.1, toTraces_injective h.2]

end

end Term

end ProbTrace
