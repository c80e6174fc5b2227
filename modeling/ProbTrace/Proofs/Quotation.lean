import ProbTrace.Proofs.Grammar
import ProbTrace.Proofs.Printing
import ProbTrace.Proofs.Reading

/-!
# Symbols in quoted data

Symbols and quotes are how the reader writes forms down.  Quoting turns symbols into texts and
removes quotes, so that data can be compared with what programs compute; a symbol never equals the
text that it is spelled like.

Quoting goes into lists and through quotes, and it stops at square brackets.  What stands in the
outermost brackets of a form is kept as it was read.  A datum is therefore free of symbols and
quotes exactly if the items in these brackets are, and the same holds of the literals in the
expression of a form and of observed values.  A text without an opening square bracket keeps
nothing back.
-/

namespace ProbTrace

mutual

/-- Whether a value is free of symbols and quotes, at any depth in lists, tuples and brackets. -/
def Value.isPlain : Value → Bool
  | .symbol _ => false
  | .quoted _ => false
  | .list vs => allPlain vs
  | .tuple vs => allPlain vs
  | .brackets vs => allPlain vs
  | _ => true

/-- Whether all values of a list are free of symbols and quotes. -/
def allPlain : List Value → Bool
  | [] => true
  | v :: vs => v.isPlain && allPlain vs

end

mutual

/-- The items that quoting does not reach: those of the outermost tuples, brackets among them. -/
def Value.unreached : Value → List Value
  | .tuple vs => vs
  | .brackets vs => vs
  | .quoted v => v.unreached
  | .list vs => unreachedIn vs
  | _ => []

/-- The items that quoting does not reach in some forms. -/
def unreachedIn : List Value → List Value
  | [] => []
  | v :: vs => v.unreached ++ unreachedIn vs

end

/-- Forms in which quoting misses no symbol and no quote. -/
def Value.IsTidy (form : Value) : Prop :=
  ∀ v ∈ form.unreached, v.isPlain = true

theorem allPlain_iff {vs : List Value} : allPlain vs = true ↔ ∀ v ∈ vs, v.isPlain = true := by
  induction vs with
  | nil => simp [allPlain]
  | cons v vs ih => simp [allPlain, ih]

theorem mem_unreachedIn {v : Value} {forms : List Value} :
    v ∈ unreachedIn forms ↔ ∃ form ∈ forms, v ∈ form.unreached := by
  induction forms with
  | nil => simp [unreachedIn]
  | cons form forms ih => simp [unreachedIn, ih]

namespace Value.IsTidy

theorem of_unreached_eq_nil {form : Value} (h : form.unreached = []) : form.IsTidy := by
  intro v hv
  rw [h] at hv
  exact absurd hv List.not_mem_nil

theorem symbol (s : String) : (Value.symbol s).IsTidy :=
  of_unreached_eq_nil rfl

theorem list_iff {forms : List Value} : (Value.list forms).IsTidy ↔ ∀ v ∈ forms, v.IsTidy := by
  constructor
  · intro h v hv w hw
    exact h w (mem_unreachedIn.mpr ⟨v, hv, hw⟩)
  · intro h w hw
    obtain ⟨v, hv, hw⟩ := mem_unreachedIn.mp hw
    exact h v hv w hw

end Value.IsTidy

namespace Expression

open Value.IsTidy

mutual

/-- Quoted data are plain exactly if quoting misses nothing. -/
theorem isPlain_datum : ∀ v : Value, (datum v).isPlain = true ↔ v.IsTidy
  | .symbol s => ⟨fun _ => symbol s, fun _ => rfl⟩
  | .quoted v => isPlain_datum v
  | .list vs => by
    rw [datum, Value.isPlain, allPlain_data vs, list_iff]
  | .tuple _ | .brackets _ => allPlain_iff
  | .null | .bool _ | .int _ | .float _ | .undefined _ | .text _ | .trace _ | .tag _ _
  | .closure _ _ _ _ | .builtin _ | .special _ => ⟨fun _ => of_unreached_eq_nil rfl, fun _ => rfl⟩

theorem allPlain_data : ∀ vs : List Value, allPlain (data vs) = true ↔ ∀ v ∈ vs, v.IsTidy
  | [] => by simp [data, allPlain]
  | v :: vs => by
    rw [data, allPlain, Bool.and_eq_true, isPlain_datum v, allPlain_data vs, List.forall_mem_cons]

end

end Expression

/-! ## Expressions -/

/-- All values at the nodes of a tree have a property. -/
inductive Trace.Holds (P : Value → Prop) : Trace → Prop
  | tree {v : Option Value} {cs : List (Key × Trace)} :
      (∀ w ∈ v, P w) → (∀ c ∈ cs, Holds P c.2) → Holds P (.tree v cs)

/-- A tree with plain values only. -/
abbrev Trace.IsPlain : Trace → Prop :=
  Trace.Holds fun v => v.isPlain = true

namespace Trace

theorem isPlain_node {kind : String} {cs : List (Key × Trace)} :
    (Trace.node kind cs).IsPlain ↔ ∀ c ∈ cs, c.2.IsPlain := by
  constructor
  · rintro ⟨-, hcs⟩
    exact hcs
  · intro hcs
    refine .tree ?_ hcs
    rintro w ⟨⟩
    rfl

theorem isPlain_leaf {v : Value} : (Trace.leaf v).IsPlain ↔ v.isPlain = true := by
  constructor
  · rintro ⟨hv, -⟩
    exact hv v rfl
  · intro hv
    refine .tree ?_ (List.forall_mem_nil _)
    rintro w ⟨⟩
    exact hv

end Trace

namespace Expression

open Trace Value.IsTidy

theorem isPlain_literal {v : Value} :
    (Trace.node Kind.literal.word (valueChild v)).IsPlain ↔ v.isPlain = true := by
  rw [isPlain_node, valueChild, List.forall_mem_singleton, isPlain_leaf]

theorem isPlain_name {kind : String} {s : String} :
    (Trace.node kind [(.name "name", .leaf (.text s))]).IsPlain := by
  rw [isPlain_node, List.forall_mem_singleton, isPlain_leaf]
  rfl

theorem isPlain_nameChild (name : Option String) : ∀ c ∈ nameChild name, c.2.IsPlain := by
  cases name with
  | none => exact List.forall_mem_nil _
  | some s =>
    rw [nameChild, List.forall_mem_singleton, isPlain_leaf]
    rfl

mutual

/-- There is nothing to miss in a pattern. -/
theorem PatternTree.isPlain {p : Value} {t : Trace} : PatternTree p t → t.IsPlain ∧ p.IsTidy
  | .rest => ⟨isPlain_node.mpr (List.forall_mem_nil _), symbol _⟩
  | .name _ => ⟨isPlain_name, symbol _⟩
  | .tuple h => ⟨isPlain_node.mpr h.arePlain.1, list_iff.mpr h.arePlain.2⟩

theorem PatternParts.arePlain {i : Nat} {vs : List Value} {cs : List (Key × Trace)} :
    PatternParts i vs cs → (∀ c ∈ cs, c.2.IsPlain) ∧ ∀ v ∈ vs, v.IsTidy
  | .nil => ⟨List.forall_mem_nil _, List.forall_mem_nil _⟩
  | .cons h hs =>
    ⟨List.forall_mem_cons.mpr ⟨h.isPlain.1, hs.arePlain.1⟩,
      List.forall_mem_cons.mpr ⟨h.isPlain.2, hs.arePlain.2⟩⟩

end

mutual

/-- The values of an expression are plain exactly if quoting misses nothing in its form. -/
theorem ExpressionTree.isPlain_iff {name : Option String} {v : Value} {t : Trace} :
    ExpressionTree name v t → (t.IsPlain ↔ v.IsTidy)
  | .null | .bool _ | .int _ | .float _ | .undefined _ | .text _ =>
    isPlain_literal.trans ⟨fun _ => of_unreached_eq_nil rfl, fun _ => rfl⟩
  | .reference _ => ⟨fun _ => symbol _, fun _ => isPlain_name⟩
  | .quoted v => isPlain_literal.trans (isPlain_datum v)
  | .empty => isPlain_literal.trans ⟨fun _ => of_unreached_eq_nil rfl, fun _ => rfl⟩
  | .quote v => by
    rw [isPlain_literal, isPlain_datum v]
    simp [list_iff, symbol]
  | .gen hp hbody => by
    rw [isPlain_node, list_iff]
    simp only [List.forall_mem_cons, hbody.isPlain_iff]
    constructor
    · rintro ⟨-, hvs, -⟩
      exact ⟨symbol _, hp.isPlain.2, hvs⟩
    · rintro ⟨-, -, hvs⟩
      exact ⟨hp.isPlain.1, hvs, isPlain_nameChild _⟩
  | .define hp _ _ hrhs => by
    rw [isPlain_node]
    simp [list_iff, symbol, hp.isPlain.1, hp.isPlain.2, hrhs.isPlain_iff]
  | .oneSided hp hy => by
    rw [isPlain_node]
    simp [list_iff, symbol, hp.isPlain_iff, hy.isPlain_iff, isPlain_literal, Value.isPlain]
  | .conditional hp hy hn => by
    rw [isPlain_node]
    simp [list_iff, symbol, hp.isPlain_iff, hy.isPlain_iff, hn.isPlain_iff]
  | .block hparts => by
    rw [isPlain_node, hparts.arePlain_iff]
    simp [list_iff, symbol]
  | .this => by
    rw [isPlain_node]
    simp [list_iff, symbol]
  | .withAddress ht he => by
    rw [isPlain_node]
    simp [list_iff, symbol, ht.isPlain_iff, he.isPlain_iff]
  | .application _ hparts => by
    rw [isPlain_node, hparts.arePlain_iff, list_iff]

theorem BodyTree.isPlain_iff {vs : List Value} {t : Trace} :
    BodyTree vs t → (t.IsPlain ↔ ∀ v ∈ vs, v.IsTidy)
  | .single h => by rw [h.isPlain_iff, List.forall_mem_singleton]
  | .several h => by rw [isPlain_node, h.arePlain_iff]

theorem ExpressionParts.arePlain_iff {i : Nat} {vs : List Value} {cs : List (Key × Trace)} :
    ExpressionParts i vs cs → ((∀ c ∈ cs, c.2.IsPlain) ↔ ∀ v ∈ vs, v.IsTidy)
  | .nil => by simp
  | .cons h hs => by
    rw [List.forall_mem_cons, List.forall_mem_cons, h.isPlain_iff, hs.arePlain_iff]

end

end Expression

/-! ## Texts -/

namespace Reader

theorem unreached_atomValue (cs : List Char) : (atomValue cs).unreached = [] := by
  unfold atomValue
  dsimp only
  split
  · rfl
  · split
    · rfl
    · split
      · rfl
      · split <;> rfl

/-- Without square brackets quoting reaches everything. -/
theorem inductive_unreached : Inductive (· = .round) fun v => v.unreached = [] where
  atom := unreached_atomValue
  text _ := rfl
  quoted h := h
  bracket := by
    rintro _ rfl vs hvs
    rw [List.eq_nil_iff_forall_not_mem]
    intro v hv
    obtain ⟨form, hform, hv⟩ := mem_unreachedIn.mp hv
    rw [hvs form hform] at hv
    exact absurd hv List.not_mem_nil

theorem unreached_of_readOne {text : String} {form : Value} (h : readOne text = .ok form)
    (htext : '[' ∉ text.toList) : form.unreached = [] := by
  refine inductive_unreached.readOne ?_ h
  intro c hc b hb
  have hne : (c == '[') = false := by
    rw [beq_eq_false_iff_ne]
    rintro rfl
    exact htext hc
  cases b with
  | round => rfl
  | square => simp [opens?, hne] at hb

end Reader

namespace Expression

/-- Which symbols and quotes are left in what a text gives.  The datum of its form, the literals of
the expression of its form, and the value of an observation with this text are free of them exactly
if the items in the outermost square brackets are, and so always if no square bracket is opened. -/
theorem isPlain_exactly {text : String} {form : Value} (h : Reader.readOne text = .ok form) :
    ((datum form).isPlain = true ↔ form.IsTidy) ∧
      (∀ t, build form = .ok t → (t.IsPlain ↔ form.IsTidy)) ∧
      (∀ address : String, '=' ∉ address.toList →
        ∃ v, Observation.read (address ++ "=" ++ text) = .ok (Observation.readAddress address, v) ∧
          (v.isPlain = true ↔ form.IsTidy)) ∧
      ('[' ∉ text.toList → form.IsTidy) := by
  refine ⟨isPlain_datum form, ?_, ?_, ?_⟩
  · intro t ht
    exact (tree_of_buildNamed ht).isPlain_iff
  · intro address haddress
    exact ⟨datum form, Observation.read_of_readOne haddress h, isPlain_datum form⟩
  · intro htext
    exact .of_unreached_eq_nil (Reader.unreached_of_readOne h htext)

/-- Quotes and symbols around brackets with plain items are resolved. -/
theorem plainBrackets_isPlain :
    ∃ form, Reader.readOne "(a '(b [1 \"c\"]))" = .ok form ∧ (datum form).isPlain = true := by
  have hread : Reader.readOne "(a '(b [1 \"c\"]))" =
      .ok (.list [.symbol "a", .quoted (.list [.symbol "b", .brackets [.int 1, .text "c"]])]) := rfl
  refine ⟨_, hread, (isPlain_exactly hread).1.mpr ?_⟩
  have hitems : ∀ v ∈ [Value.int 1, Value.text "c"], v.isPlain = true :=
    allPlain_iff.mp rfl
  exact hitems

/-- A symbol in brackets is not resolved: not every datum that is read is plain. -/
theorem bracketedSymbol_kept :
    ¬ ∀ (text : String) (form : Value), Reader.readOne text = .ok form →
      (datum form).isPlain = true := by
  intro h
  have hplain := h "[a]" (.brackets [.symbol "a"]) rfl
  cases hplain

end Expression
end ProbTrace
