import ProbTrace.Expression
import ProbTrace.Proofs.Cells

/-!
# The grammar of expressions

Which forms are expressions, and what the tree of each one looks like.

The grammar says which forms are patterns and which are expressions, and nothing about trees.
The layout relates a form to its tree: the root holds the word of a kind, numbered parts stand
under their positions in the order of the form, and the right-hand side of a definition stands
under the key that its pattern gives.

Building accepts the forms of the grammar and no others, it gives the tree of the layout, and
what it does not accept it reports as a fault of building.
-/

namespace ProbTrace
namespace Expression

/-! ## Forms -/

/-- The forms that are patterns. -/
inductive IsPattern : Value → Prop
  | symbol (s : String) : IsPattern (.symbol s)
  | list {vs : List Value} : (∀ v ∈ vs, IsPattern v) → IsPattern (.list vs)

/-- The forms that are expressions.  A list is an application only if no word makes it a form
of its own, and nothing is asked of quoted data. -/
inductive IsExpression : Value → Prop
  | symbol (s : String) : IsExpression (.symbol s)
  | bool (b : Bool) : IsExpression (.bool b)
  | int (i : Int) : IsExpression (.int i)
  | float (x : Float) : IsExpression (.float x)
  | undefined (serial : Nat) : IsExpression (.undefined serial)
  | text (s : String) : IsExpression (.text s)
  | quoted (v : Value) : IsExpression (.quoted v)
  | empty : IsExpression (.list [])
  | quote (v : Value) : IsExpression (.list [.symbol "quote", v])
  | gen {p : Value} {vs : List Value} :
      IsPattern p → vs ≠ [] → (∀ v ∈ vs, IsExpression v) →
      IsExpression (.list (.symbol "gen" :: p :: vs))
  | define {p v : Value} :
      IsPattern p → p ≠ .symbol "pattern" → IsExpression v →
      IsExpression (.list [.symbol "define", p, v])
  | oneSided {p y : Value} :
      IsExpression p → IsExpression y → IsExpression (.list [.symbol "if", p, y])
  | conditional {p y n : Value} :
      IsExpression p → IsExpression y → IsExpression n →
      IsExpression (.list [.symbol "if", p, y, n])
  | block {vs : List Value} :
      (∀ v ∈ vs, IsExpression v) → IsExpression (.list (.symbol "block" :: vs))
  | this : IsExpression (.list [.symbol "this"])
  | withAddress {t v : Value} :
      IsExpression t → IsExpression v → IsExpression (.list [.symbol "with-address", t, v])
  | application {v : Value} {vs : List Value} :
      (∀ word : Word, v ≠ .symbol word.text) → IsExpression v → (∀ w ∈ vs, IsExpression w) →
      IsExpression (.list (v :: vs))

/-! ## Trees -/

mutual

/-- The tree of a pattern. -/
inductive PatternTree : Value → Trace → Prop
  | rest : PatternTree (.symbol "&") (.node "&" [])
  | name {s : String} :
      s ≠ "&" → PatternTree (.symbol s) (.node "variable" [(.name "name", .leaf (.text s))])
  | tuple {vs : List Value} {cs : List (Key × Trace)} :
      PatternParts 0 vs cs → PatternTree (.list vs) (.node "tuple" cs)

/-- The parts of a tuple under their positions, from a position on. -/
inductive PatternParts : Nat → List Value → List (Key × Trace) → Prop
  | nil {i : Nat} : PatternParts i [] []
  | cons {i : Nat} {v : Value} {t : Trace} {vs : List Value} {cs : List (Key × Trace)} :
      PatternTree v t → PatternParts (i + 1) vs cs →
      PatternParts i (v :: vs) ((.index i, t) :: cs)

end

/-- The child of a procedure that holds the name it is defined by. -/
def nameChild : Option String → List (Key × Trace)
  | none => []
  | some s => [(.name "name", .leaf (.text s))]

/-- The child of a literal that holds its value. -/
def valueChild (v : Value) : List (Key × Trace) :=
  [(.name "value", .leaf v)]

mutual

/-- The tree of an expression.  The name is that of the definition it is the right-hand side
of, if this defines a symbol. -/
inductive ExpressionTree : Option String → Value → Trace → Prop
  | null {name : Option String} :
      ExpressionTree name (.symbol "nil") (.node Kind.literal.word (valueChild .null))
  | reference {name : Option String} {s : String} :
      s ≠ "nil" →
      ExpressionTree name (.symbol s)
        (.node Kind.reference.word [(.name "name", .leaf (.text s))])
  | bool {name : Option String} (b : Bool) :
      ExpressionTree name (.bool b) (.node Kind.literal.word (valueChild (.bool b)))
  | int {name : Option String} (i : Int) :
      ExpressionTree name (.int i) (.node Kind.literal.word (valueChild (.int i)))
  | float {name : Option String} (x : Float) :
      ExpressionTree name (.float x) (.node Kind.literal.word (valueChild (.float x)))
  | undefined {name : Option String} (serial : Nat) :
      ExpressionTree name (.undefined serial)
        (.node Kind.literal.word (valueChild (.undefined serial)))
  | text {name : Option String} (s : String) :
      ExpressionTree name (.text s) (.node Kind.literal.word (valueChild (.text s)))
  | quoted {name : Option String} (v : Value) :
      ExpressionTree name (.quoted v) (.node Kind.literal.word (valueChild (datum v)))
  | empty {name : Option String} :
      ExpressionTree name (.list []) (.node Kind.literal.word (valueChild (.list [])))
  | quote {name : Option String} (v : Value) :
      ExpressionTree name (.list [.symbol "quote", v])
        (.node Kind.literal.word (valueChild (datum v)))
  | gen {name : Option String} {p : Value} {vs : List Value} {pattern body : Trace} :
      PatternTree p pattern → BodyTree vs body →
      ExpressionTree name (.list (.symbol "gen" :: p :: vs))
        (.node Kind.gen.word
          ((.name "pattern", pattern) :: (.name "body", body) :: nameChild name))
  | define {name : Option String} {p v : Value} {pattern rhs : Trace} {key : Key} :
      PatternTree p pattern → p ≠ .symbol "pattern" →
      (∀ s : Store, s.definiens (.trace pattern) = .ok key) →
      ExpressionTree (definedName? p) v rhs →
      ExpressionTree name (.list [.symbol "define", p, v])
        (.node Kind.definition.word [(.name "pattern", pattern), (key, rhs)])
  | oneSided {name : Option String} {p y : Value} {predicate yes : Trace} :
      ExpressionTree none p predicate → ExpressionTree none y yes →
      ExpressionTree name (.list [.symbol "if", p, y])
        (.node Kind.conditional.word
          [(.name "predicate", predicate), (.name "then", yes),
           (.name "else", .node Kind.literal.word (valueChild .null))])
  | conditional {name : Option String} {p y n : Value} {predicate yes no : Trace} :
      ExpressionTree none p predicate → ExpressionTree none y yes → ExpressionTree none n no →
      ExpressionTree name (.list [.symbol "if", p, y, n])
        (.node Kind.conditional.word
          [(.name "predicate", predicate), (.name "then", yes), (.name "else", no)])
  | block {name : Option String} {vs : List Value} {cs : List (Key × Trace)} :
      ExpressionParts 0 vs cs →
      ExpressionTree name (.list (.symbol "block" :: vs)) (.node Kind.block.word cs)
  | this {name : Option String} :
      ExpressionTree name (.list [.symbol "this"]) (.node Kind.this.word [])
  | withAddress {name : Option String} {t v : Value} {tag expression : Trace} :
      ExpressionTree none t tag → ExpressionTree none v expression →
      ExpressionTree name (.list [.symbol "with-address", t, v])
        (.node Kind.withAddress.word [(.name "tag", tag), (.name "expression", expression)])
  | application {name : Option String} {v : Value} {vs : List Value} {cs : List (Key × Trace)} :
      (∀ word : Word, v ≠ .symbol word.text) → ExpressionParts 0 (v :: vs) cs →
      ExpressionTree name (.list (v :: vs)) (.node Kind.application.word cs)

/-- The tree of the body of a procedure. -/
inductive BodyTree : List Value → Trace → Prop
  | single {v : Value} {t : Trace} : ExpressionTree none v t → BodyTree [v] t
  | several {v w : Value} {vs : List Value} {cs : List (Key × Trace)} :
      ExpressionParts 0 (v :: w :: vs) cs → BodyTree (v :: w :: vs) (.node Kind.block.word cs)

/-- Expressions under their positions, from a position on. -/
inductive ExpressionParts : Nat → List Value → List (Key × Trace) → Prop
  | nil {i : Nat} : ExpressionParts i [] []
  | cons {i : Nat} {v : Value} {t : Trace} {vs : List Value} {cs : List (Key × Trace)} :
      ExpressionTree none v t → ExpressionParts (i + 1) vs cs →
      ExpressionParts i (v :: vs) ((.index i, t) :: cs)

end

/-! ## What building gives -/

theorem numbered_injective {ts us : List Trace} {i : Nat} (h : numbered i ts = numbered i us) :
    ts = us := by
  induction ts generalizing us i with
  | nil =>
    cases us with
    | nil => rfl
    | cons u us => cases h
  | cons t ts ih =>
    cases us with
    | nil => cases h
    | cons u us =>
      rw [numbered, numbered, List.cons.injEq, Prod.mk.injEq] at h
      rw [h.1.2, ih h.2]

/-- Building from a form gives a result with a property, or else a fault of building.  What that
shows has a text if the form has one. -/
def Yields {α : Type} (form : Value) (x : Except Fault α) (P : α → Prop) : Prop :=
  match x with
  | .ok a => P a
  | .error f => f.kind = .building ∧
      ∀ s : Store, s.hasText form = true → ∀ v ∈ f.shown, s.hasText v = true

namespace Yields

variable {α β : Type} {x : Except Fault α} {P : α → Prop} {Q : β → Prop}
variable {v : Value} {us vs : List Value} {f : α → Except Fault β}

theorem refused (rule : FormRule) (v : Value) : Yields v (.error (.badForm rule v)) P := by
  refine ⟨rfl, fun s h u hu => ?_⟩
  cases List.mem_singleton.mp hu
  exact h

theorem bindItems (hx : Yields (.list us) x P) (hus : us ⊆ vs)
    (hf : ∀ a, P a → Yields (.list vs) (f a) Q) : Yields (.list vs) (x >>= f) Q := by
  cases x with
  | ok a => exact hf a hx
  | error g =>
    refine ⟨hx.1, fun s h => hx.2 s (Store.hasText_items.mpr fun u hu => ?_)⟩
    exact Store.hasText_items.mp h u (hus hu)

theorem bindItem (hx : Yields v x P) (hv : v ∈ vs)
    (hf : ∀ a, P a → Yields (.list vs) (f a) Q) : Yields (.list vs) (x >>= f) Q := by
  cases x with
  | ok a => exact hf a hx
  | error g => exact ⟨hx.1, fun s h => hx.2 s (Store.hasText_items.mp h v hv)⟩

end Yields

mutual

theorem buildPattern_yields : ∀ v : Value, Yields v (buildPattern v) (PatternTree v)
  | .symbol s => by
    rw [buildPattern, symbolPattern]
    by_cases hs : s = "&"
    · subst hs
      exact PatternTree.rest
    · rw [if_neg (by simpa [Pattern.restKind] using hs)]
      exact PatternTree.name hs
  | .list vs => by
    rw [buildPattern]
    exact (buildPatterns_yields vs 0).bindItems (List.Subset.refl vs) fun ts hts =>
      PatternTree.tuple hts
  | .null | .bool _ | .int _ | .float _ | .undefined _ | .text _ | .tuple _ | .quoted _
  | .brackets _ | .trace _ | .tag _ _ | .closure _ _ _ _ | .builtin _ | .special _ =>
    .refused _ _

theorem buildPatterns_yields : ∀ (vs : List Value) (i : Nat),
    Yields (.list vs) (buildPatterns vs) fun ts => PatternParts i vs (numbered i ts)
  | [], _ => PatternParts.nil
  | v :: vs, i => by
    rw [buildPatterns]
    refine (buildPattern_yields v).bindItem List.mem_cons_self fun t ht => ?_
    exact (buildPatterns_yields vs (i + 1)).bindItems (List.subset_cons_self v vs) fun ts hts =>
      PatternParts.cons ht hts

end

theorem tree_of_buildPattern {v : Value} {t : Trace} (h : buildPattern v = .ok t) :
    PatternTree v t := by
  have hyields := buildPattern_yields v
  rwa [h] at hyields

/-- The key of the definition of a symbol is its name, the wildcard apart. -/
theorem definiens_reference (s : Store) (x : String) :
    s.definiens (.trace (reference x)) =
      .ok (if x = Pattern.wildcard then Pattern.definiensKey else .name x) := by
  have hkind : (Value.kind? (s.value? (reference x)) == some Pattern.variableKind) = true := rfl
  have hname : s.getAt (reference x) Pattern.nameKey.toValue = .ok (.text x) := rfl
  simp only [Store.definiens, hkind, if_true, hname, Value.isText, Value.key?, bind, Except.bind]
  by_cases hx : x = Pattern.wildcard
  · simp [hx, pure, Except.pure]
  · simp [hx, pure, Except.pure]

/-- The key of a definition is known from its pattern, and it is the key of the pattern itself
only if the pattern is the symbol spelled so. -/
theorem PatternTree.definiens {p : Value} {t : Trace} (h : PatternTree p t) :
    ∃ key, (∀ s : Store, s.definiens (.trace t) = .ok key) ∧
      (key = .name "pattern" ↔ p = .symbol "pattern") := by
  cases h with
  | rest => exact ⟨Pattern.definiensKey, fun _ => rfl, by simp [Pattern.definiensKey]⟩
  | tuple _ => exact ⟨Pattern.definiensKey, fun _ => rfl, by simp [Pattern.definiensKey]⟩
  | @name x _ =>
    refine ⟨_, fun s => definiens_reference s x, ?_⟩
    by_cases hx : x = Pattern.wildcard
    · simp [hx, Pattern.definiensKey, Pattern.wildcard]
    · simp [hx]

theorem definition_eq {pattern : Trace} {key : Key}
    (hkey : ∀ s : Store, s.definiens (.trace pattern) = .ok key) (rhs : Trace) :
    definition pattern rhs =
      if key = .name "pattern" then .error (.badForm .patternNotDefinable (.trace pattern))
      else .ok (.node Kind.definition.word [(.name "pattern", pattern), (key, rhs)]) := by
  rw [definition, hkey]
  rfl

theorem PatternTree.definiens_ne {p : Value} {t : Trace} {key : Key} (h : PatternTree p t)
    (hne : p ≠ .symbol "pattern") (hkey : ∀ s : Store, s.definiens (.trace t) = .ok key) :
    key ≠ .name "pattern" := by
  obtain ⟨key', hkey', hpattern⟩ := h.definiens
  obtain rfl : key = key' := Except.ok.inj ((hkey {}).symm.trans (hkey' {}))
  exact fun hclash => hne (hpattern.mp hclash)

theorem definition_yields {name : Option String} {p v : Value} {pattern rhs : Trace}
    (hp : PatternTree p pattern) (hrhs : ExpressionTree (definedName? p) v rhs) :
    Yields (.list [.symbol "define", p, v]) (definition pattern rhs)
      (ExpressionTree name (.list [.symbol "define", p, v])) := by
  obtain ⟨key, hkey, hpattern⟩ := hp.definiens
  rw [definition_eq hkey]
  by_cases hclash : key = .name "pattern"
  · rw [if_pos hclash]
    refine ⟨rfl, fun s _ u hu => ?_⟩
    cases List.mem_singleton.mp hu
    have hform := hpattern.mp hclash
    cases hp with
    | name _ => rfl
    | rest => simp at hform
    | tuple _ => cases hform
  · rw [if_neg hclash]
    exact ExpressionTree.define hp (fun h => hclash (hpattern.mpr h)) hkey hrhs

theorem gen_tree {name : Option String} {p : Value} {vs : List Value} {pattern body : Trace}
    (hp : PatternTree p pattern) (hbody : BodyTree vs body) :
    ExpressionTree name (.list (.symbol "gen" :: p :: vs)) (gen pattern body name) := by
  cases name with
  | none => exact .gen hp hbody
  | some s => exact .gen hp hbody

theorem bodyOf_tree {v : Value} {vs : List Value} {t : Trace} {ts : List Trace}
    (ht : ExpressionTree none v t) (hts : ExpressionParts 1 vs (numbered 1 ts)) :
    BodyTree (v :: vs) (bodyOf (t :: ts)) := by
  cases ts with
  | nil =>
    cases hts
    exact .single ht
  | cons u ts =>
    cases hts with
    | cons hu hts => exact .several (.cons ht (.cons hu hts))

/-- A word is recognised by its spelling alone. -/
theorem Word.ofHead?_eq_some {v : Value} {word : Word} :
    Word.ofHead? v = some word ↔ v = .symbol word.text := by
  constructor
  · intro h
    cases v with
    | symbol s =>
      have hspelled := List.find?_some h
      rw [beq_iff_eq] at hspelled
      rw [hspelled]
    | _ => cases h
  · rintro rfl
    cases word <;> rfl

theorem Word.ofHead?_eq_none {v : Value} :
    Word.ofHead? v = none ↔ ∀ word : Word, v ≠ .symbol word.text := by
  rw [Option.eq_none_iff_forall_ne_some]
  exact forall_congr' fun word => not_congr Word.ofHead?_eq_some

mutual

theorem buildNamed_yields : ∀ (v : Value) (name : Option String),
    Yields v (buildNamed name v) (ExpressionTree name v)
  | .symbol s, name => by
    rw [buildNamed, symbolExpression]
    by_cases hs : s = "nil"
    · subst hs
      exact ExpressionTree.null
    · rw [if_neg (by simpa using hs)]
      exact ExpressionTree.reference hs
  | .bool b, _ => ExpressionTree.bool b
  | .int i, _ => ExpressionTree.int i
  | .float x, _ => ExpressionTree.float x
  | .undefined serial, _ => ExpressionTree.undefined serial
  | .text s, _ => ExpressionTree.text s
  | .quoted v, _ => ExpressionTree.quoted v
  | .list [], _ => ExpressionTree.empty
  | .list (head :: args), name => by
    cases hword : Word.ofHead? head with
    | none =>
      rw [buildNamed.eq_def]
      simp only [hword]
      refine (buildNamed_yields head none).bindItem List.mem_cons_self fun t ht => ?_
      refine (buildAll_yields args 1).bindItems (List.subset_cons_self head args) fun ts hts => ?_
      exact ExpressionTree.application (Word.ofHead?_eq_none.mp hword) (.cons ht hts)
    | some word =>
      obtain rfl := Word.ofHead?_eq_some.mp hword
      cases word with
      | quote =>
        match args with
        | [v] => exact ExpressionTree.quote v
        | [] | _ :: _ :: _ => exact .refused _ _
      | gen =>
        match args with
        | params :: first :: others =>
          simp only [buildNamed, hword]
          refine (buildPattern_yields params).bindItem (by simp) fun pattern hpattern => ?_
          refine (buildNamed_yields first none).bindItem (by simp) fun body hbody => ?_
          refine (buildAll_yields others 1).bindItems (by grind) fun more hmore => ?_
          exact gen_tree hpattern (bodyOf_tree hbody hmore)
        | [] | [_] => exact .refused _ _
      | define =>
        match args with
        | [target, rhs] =>
          simp only [buildNamed, hword]
          refine (buildPattern_yields target).bindItem (by simp) fun pattern hpattern => ?_
          refine (buildNamed_yields rhs (definedName? target)).bindItem (by simp) ?_
          exact fun value hvalue => definition_yields hpattern hvalue
        | [] | [_] | _ :: _ :: _ :: _ => exact .refused _ _
      | conditional =>
        match args with
        | [predicate, yes] =>
          simp only [buildNamed, hword]
          refine (buildNamed_yields predicate none).bindItem (by simp) fun p hp => ?_
          exact (buildNamed_yields yes none).bindItem (by simp) fun y hy =>
            ExpressionTree.oneSided hp hy
        | [predicate, yes, no] =>
          simp only [buildNamed, hword]
          refine (buildNamed_yields no none).bindItem (by simp) fun n hn => ?_
          refine (buildNamed_yields predicate none).bindItem (by simp) fun p hp => ?_
          exact (buildNamed_yields yes none).bindItem (by simp) fun y hy =>
            ExpressionTree.conditional hp hy hn
        | [] | [_] | _ :: _ :: _ :: _ :: _ => exact .refused _ _
      | block =>
        rw [buildNamed.eq_def]
        simp only [hword]
        exact (buildAll_yields args 0).bindItems (List.subset_cons_self _ args) fun ts hts =>
          ExpressionTree.block hts
      | this =>
        match args with
        | [] => exact ExpressionTree.this
        | _ :: _ => exact .refused _ _
      | withAddress =>
        match args with
        | [tag, expression] =>
          simp only [buildNamed, hword]
          refine (buildNamed_yields tag none).bindItem (by simp) fun t ht => ?_
          exact (buildNamed_yields expression none).bindItem (by simp) fun e he =>
            ExpressionTree.withAddress ht he
        | [] | [_] | _ :: _ :: _ :: _ => exact .refused _ _
  | .null, _ | .tuple _, _ | .brackets _, _ | .trace _, _ | .tag _ _, _ | .closure _ _ _ _, _
  | .builtin _, _ | .special _, _ => .refused _ _

theorem buildAll_yields : ∀ (vs : List Value) (i : Nat),
    Yields (.list vs) (buildAll vs) fun ts => ExpressionParts i vs (numbered i ts)
  | [], _ => ExpressionParts.nil
  | v :: vs, i => by
    rw [buildAll]
    refine (buildNamed_yields v none).bindItem List.mem_cons_self fun t ht => ?_
    exact (buildAll_yields vs (i + 1)).bindItems (List.subset_cons_self v vs) fun ts hts =>
      ExpressionParts.cons ht hts

end

theorem tree_of_buildNamed {name : Option String} {v : Value} {t : Trace}
    (h : buildNamed name v = .ok t) : ExpressionTree name v t := by
  have hyields := buildNamed_yields v name
  rwa [h] at hyields

theorem parts_of_buildAll {vs : List Value} {ts : List Trace} (h : buildAll vs = .ok ts)
    (i : Nat) : ExpressionParts i vs (numbered i ts) := by
  have hyields := buildAll_yields vs i
  rwa [h] at hyields

/-! ## What is accepted -/

mutual

theorem PatternTree.isPattern {p : Value} {t : Trace} : PatternTree p t → IsPattern p
  | .rest => .symbol _
  | .name _ => .symbol _
  | .tuple h => .list h.arePatterns

theorem PatternParts.arePatterns {i : Nat} {vs : List Value} {cs : List (Key × Trace)} :
    PatternParts i vs cs → ∀ v ∈ vs, IsPattern v
  | .nil => List.forall_mem_nil _
  | .cons h hs => List.forall_mem_cons.mpr ⟨h.isPattern, hs.arePatterns⟩

end

theorem BodyTree.ne_nil {vs : List Value} {t : Trace} (h : BodyTree vs t) : vs ≠ [] := by
  cases h with
  | single _ => exact List.cons_ne_nil _ _
  | several _ => exact List.cons_ne_nil _ _

mutual

/-- Only expressions of the grammar have a tree. -/
theorem ExpressionTree.isExpression {name : Option String} {v : Value} {t : Trace} :
    ExpressionTree name v t → IsExpression v
  | .null | .reference _ => .symbol _
  | .bool _ => .bool _
  | .int _ => .int _
  | .float _ => .float _
  | .undefined _ => .undefined _
  | .text _ => .text _
  | .quoted _ => .quoted _
  | .empty => .empty
  | .quote _ => .quote _
  | .gen hp hbody => .gen hp.isPattern hbody.ne_nil hbody.areExpressions
  | .define hp hne _ hrhs => .define hp.isPattern hne hrhs.isExpression
  | .oneSided hp hy => .oneSided hp.isExpression hy.isExpression
  | .conditional hp hy hn => .conditional hp.isExpression hy.isExpression hn.isExpression
  | .block hparts => .block hparts.areExpressions
  | .this => .this
  | .withAddress ht he => .withAddress ht.isExpression he.isExpression
  | .application hapart hparts =>
    .application hapart (hparts.areExpressions _ List.mem_cons_self) fun w hw =>
      hparts.areExpressions w (List.mem_cons_of_mem _ hw)

theorem BodyTree.areExpressions {vs : List Value} {t : Trace} :
    BodyTree vs t → ∀ v ∈ vs, IsExpression v
  | .single h => List.forall_mem_singleton.mpr h.isExpression
  | .several h => h.areExpressions

theorem ExpressionParts.areExpressions {i : Nat} {vs : List Value} {cs : List (Key × Trace)} :
    ExpressionParts i vs cs → ∀ v ∈ vs, IsExpression v
  | .nil => List.forall_mem_nil _
  | .cons h hs => List.forall_mem_cons.mpr ⟨h.isExpression, hs.areExpressions⟩

end

end Expression

/-! ## Trees that never change -/

/-- Traces whose nodes are all trees, so that no store can change them. -/
inductive Trace.Solid : Trace → Prop
  | tree {v : Option Value} {cs : List (Key × Trace)} :
      (∀ c ∈ cs, Solid c.2) → Solid (.tree v cs)

namespace Trace.Solid

theorem leaf (v : Value) : (Trace.leaf v).Solid :=
  .tree (List.forall_mem_nil _)

theorem child {s : Store} {t u : Trace} {k : Key} (h : t.Solid) (hu : (k, u) ∈ s.children t) :
    u.Solid := by
  cases h with
  | tree hcs => exact hcs _ hu

end Trace.Solid

namespace Expression

mutual

theorem PatternTree.solid {p : Value} {t : Trace} : PatternTree p t → t.Solid
  | .rest => .tree (List.forall_mem_nil _)
  | .name _ => .tree (List.forall_mem_singleton.mpr (.leaf _))
  | .tuple h => .tree h.solid

theorem PatternParts.solid {i : Nat} {vs : List Value} {cs : List (Key × Trace)} :
    PatternParts i vs cs → ∀ c ∈ cs, c.2.Solid
  | .nil => List.forall_mem_nil _
  | .cons h hs => List.forall_mem_cons.mpr ⟨h.solid, hs.solid⟩

end

theorem solid_literal (v : Value) : (Trace.node Kind.literal.word (valueChild v)).Solid :=
  .tree (List.forall_mem_singleton.mpr (.leaf v))

theorem solid_nameChild (name : Option String) : ∀ c ∈ nameChild name, c.2.Solid := by
  cases name with
  | none => exact List.forall_mem_nil _
  | some s => exact List.forall_mem_singleton.mpr (.leaf _)

mutual

/-- The tree of an expression has no other nodes than trees. -/
theorem ExpressionTree.solid {name : Option String} {v : Value} {t : Trace} :
    ExpressionTree name v t → t.Solid
  | .null | .bool _ | .int _ | .float _ | .undefined _ | .text _ | .quoted _ | .empty | .quote _ =>
    solid_literal _
  | .reference _ => .tree (List.forall_mem_singleton.mpr (.leaf _))
  | .gen hp hbody =>
    .tree (List.forall_mem_cons.mpr ⟨hp.solid,
      List.forall_mem_cons.mpr ⟨hbody.solid, solid_nameChild name⟩⟩)
  | .define hp _ _ hrhs =>
    .tree (List.forall_mem_cons.mpr ⟨hp.solid, List.forall_mem_singleton.mpr hrhs.solid⟩)
  | .oneSided hp hy =>
    .tree (List.forall_mem_cons.mpr ⟨hp.solid,
      List.forall_mem_cons.mpr ⟨hy.solid, List.forall_mem_singleton.mpr (solid_literal _)⟩⟩)
  | .conditional hp hy hn =>
    .tree (List.forall_mem_cons.mpr ⟨hp.solid,
      List.forall_mem_cons.mpr ⟨hy.solid, List.forall_mem_singleton.mpr hn.solid⟩⟩)
  | .block hparts => .tree hparts.solid
  | .this => .tree (List.forall_mem_nil _)
  | .withAddress ht he =>
    .tree (List.forall_mem_cons.mpr ⟨ht.solid, List.forall_mem_singleton.mpr he.solid⟩)
  | .application _ hparts => .tree hparts.solid

theorem BodyTree.solid {vs : List Value} {t : Trace} : BodyTree vs t → t.Solid
  | .single h => h.solid
  | .several h => .tree h.solid

theorem ExpressionParts.solid {i : Nat} {vs : List Value} {cs : List (Key × Trace)} :
    ExpressionParts i vs cs → ∀ c ∈ cs, c.2.Solid
  | .nil => List.forall_mem_nil _
  | .cons h hs => List.forall_mem_cons.mpr ⟨h.solid, hs.solid⟩

end

end Expression
end ProbTrace
