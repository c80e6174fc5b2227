import ProbTrace.Proofs.Failure
import ProbTrace.Proofs.Rebinding

/-!
# Faults of operations

Most faults say that a program asks for something that cannot be done: it calls what is no
procedure, adds a number to a list, looks up a name that nothing binds.  The others say that a
run is stuck on its own representation: a part of an expression is missing, a call has no key,
or there is a record that cannot be written to.

Operations on values never raise a fault of the second kind, whatever their operands are, and
neither does binding a pattern that is written down as a shape.
-/

namespace ProbTrace

/-- Faults that say that a run is stuck on the representation of its program or of its record. -/
def Fault.isStuck : Fault → Bool
  | .notAnExpression _ | .readOnly _ | .noValue | .noChild _ | .noValueAt _ => true
  | .invalidKey .ofProcedure _ _ => true
  | .invalidInputs .outputIsWritable _ => true
  | _ => false

/-- A computation on values whose faults are all the program's. -/
def Unstuck {α : Type} (x : Except Fault α) : Prop :=
  ∀ f, x = .error f → f.isStuck = false

namespace Unstuck

variable {α β : Type} {x : Except Fault α}

theorem ok (a : α) : Unstuck (.ok a : Except Fault α) :=
  fun _ h => nomatch h

theorem error {f : Fault} (h : f.isStuck = false) : Unstuck (.error f : Except Fault α) := by
  intro g hg
  cases hg
  exact h

theorem bind {f : α → Except Fault β} (hx : Unstuck x) (hf : ∀ a, Unstuck (f a)) :
    Unstuck (x >>= f) := by
  cases x with
  | error g => exact error (hx g rfl)
  | ok a => exact hf a

end Unstuck

/-! ## Operations on values -/

theorem FailsPlainly.unstuck {α : Type} {x : Except Fault α} (h : FailsPlainly x) : Unstuck x := by
  intro f hf
  have hplain := h f hf
  cases f <;> first | rfl | cases hplain

namespace Value

theorem pair_unstuck (v w : Value) : Unstuck (v.pair w) := by
  unfold pair
  split
  · exact .ok _
  · exact .error rfl

theorem address_unstuck (vs : List Value) : Unstuck (address vs) := by
  unfold address
  split
  · exact .error rfl
  · exact .ok _

theorem quasiAddress_unstuck (v : Value) : Unstuck v.quasiAddress := by
  unfold quasiAddress
  split
  · exact .error rfl
  · exact .error rfl
  · split
    · split
      · exact .ok _
      · exact .error rfl
    · exact .error rfl
  · exact .error rfl

end Value

namespace Builtin

theorem compute_unstuck (s : Store) (b : Builtin) (vs : List Value) : Unstuck (b.compute s vs) := by
  by_cases hpair : b = pair
  · subst hpair
    unfold compute
    split
    all_goals first | exact Value.pair_unstuck _ _ | exact .error rfl | contradiction
  by_cases haddress : b = address
  · subst haddress
    exact Value.address_unstuck vs
  exact (compute_plain s hpair haddress vs).unstuck

end Builtin

/-! ## Runs -/

/-- A message that cannot be composed does not make a fault one that a run is stuck on. -/
theorem Store.raised_unstuck {s : Store} {f : Fault} (h : f.isStuck = false) :
    (s.raised f).isStuck = false := by
  rcases s.raised_cases f with heq | heq
  · rw [heq]
    exact h
  · rw [heq]
    rfl

/-- A run that is not stuck when it stops. -/
def Run.Unstuck {α : Type} (x : Run α) : Prop :=
  ∀ m f m', x m = .error (.fault f) m' → f.isStuck = false

namespace Run.Unstuck

variable {α β : Type} {x : Run α}

theorem of_ok (h : ∀ m, ∃ a m', x m = .ok a m') : Run.Unstuck x := by
  intro m f m' hx
  obtain ⟨a, n, hok⟩ := h m
  rw [hok] at hx
  cases hx

theorem pure (a : α) : Run.Unstuck (pure a : Run α) :=
  of_ok fun _ => ⟨_, _, rfl⟩

theorem raise {f : Fault} (h : f.isStuck = false) : Run.Unstuck (Run.raise f : Run α) := by
  intro m g m' hg
  cases hg
  exact Store.raised_unstuck h

theorem ofExcept {x : Except Fault α} (h : ProbTrace.Unstuck x) : Run.Unstuck (Run.ofExcept x) := by
  cases x with
  | error f => exact raise (h f rfl)
  | ok a => exact pure a

theorem bind {f : α → Run β} (hx : Run.Unstuck x) (hf : ∀ a, Run.Unstuck (f a)) :
    Run.Unstuck (x >>= f) := by
  intro m g m'' h
  have hbind : (x >>= f) m = EStateM.bind x f m := rfl
  rw [hbind, EStateM.bind] at h
  split at h
  · exact hf _ _ _ _ h
  · rename_i hx'
    cases h
    exact hx _ _ _ hx'

theorem ofExcept_bind {x : Except Fault α} {f : α → Run β} (hx : ProbTrace.Unstuck x)
    (hf : ∀ a, x = .ok a → Run.Unstuck (f a)) : Run.Unstuck (Run.ofExcept x >>= f) := by
  cases x with
  | error g =>
    intro m f m' h
    cases h
    exact Store.raised_unstuck (hx g rfl)
  | ok a => exact hf a rfl

end Run.Unstuck

theorem Random.deviate_unstuck (ctx : Context) : Run.Unstuck (Random.deviate ctx) := by
  refine .bind (.of_ok fun _ => ⟨_, _, rfl⟩) fun m => .bind (.of_ok fun _ => ⟨_, _, rfl⟩) fun _ => ?_
  split
  · exact .pure _
  · refine .bind (.of_ok fun _ => ⟨_, _, rfl⟩) fun turn => ?_
    refine .bind (.of_ok fun _ => ⟨_, _, rfl⟩) fun u => .bind (.ofExcept ?_) fun radius => ?_
    · exact ((logOfFloat_plain _).bind fun _ => Random.squareRoot_plain _).unstuck
    · exact .bind (.of_ok fun _ => ⟨_, _, rfl⟩) fun _ => .pure _

theorem Distribution.sample_unstuck (ctx : Context) (d : Distribution) (vs : List Value) :
    Run.Unstuck (d.sample ctx vs) := by
  have henroll (v : Value) : Run.Unstuck (Run.enroll v) := .of_ok fun _ => ⟨_, _, rfl⟩
  unfold sample
  split
  · refine .bind (.of_ok fun _ => ⟨_, _, rfl⟩) fun u => ?_
    exact .bind (.ofExcept (Value.relateAtoms_plain _ _ _).unstuck) fun _ => .pure _
  · refine .bind (.ofExcept (Value.subtract_plain _ _).unstuck) fun width => ?_
    refine .bind (.of_ok fun _ => ⟨_, _, rfl⟩) fun u => .bind (.ofExcept ?_) henroll
    exact ((Value.multiply_plain _ _).bind fun _ => Value.add_plain _ _).unstuck
  · refine .bind (Random.deviate_unstuck ctx) fun z => .bind (.ofExcept ?_) henroll
    exact ((Value.multiply_plain _ _).bind fun _ => Value.add_plain _ _).unstuck
  · exact .raise rfl

/-! ## Scopes -/

theorem Scope.find_unstuck {m : Machine} (name : String) (c : Scope) :
    Unstuck (c.find .standard m (.text name)) := by
  induction c with
  | top =>
    show Unstuck (TopLevel.resolve (.names TopLevel.standardNames) (.text name))
    simp only [TopLevel.resolve, Value.isHashable, if_true]
    split
    · exact .ok _
    · exact .error rfl
  | absent => exact .error rfl
  | frame id c ih =>
    unfold Scope.find
    split
    · exact .ok _
    · exact ih

theorem Run.bindName_unstuck (ctx : Context) (c : Scope) (name : String) (v : Value) :
    Run.Unstuck (Run.bindName ctx c (.text name) v) := by
  cases c with
  | frame id c =>
    show Run.Unstuck (Run.defineIn id (.text name) v)
    unfold Run.defineIn
    cases (Value.text name).isText reservedName with
    | true => exact .bind (.of_ok fun _ => ⟨_, _, rfl⟩) fun m => .bind (.raise rfl) fun _ =>
        .of_ok fun _ => ⟨_, _, rfl⟩
    | false => exact .of_ok fun _ => ⟨_, _, rfl⟩
  | top => exact .bind (.of_ok fun _ => ⟨_, _, rfl⟩) fun m => .raise rfl
  | absent => exact .bind (.of_ok fun _ => ⟨_, _, rfl⟩) fun m => .raise rfl

/-! ## Patterns -/

namespace Pattern

theorem orderParts_unstuck {parts : List (Key × Part)} {misplaced : Fault}
    (hfault : misplaced.isStuck = false) (count left i : Nat)
    (hparts : ∀ j < left, (parts.lookup (.index ((i + j : Nat) : Int))).isSome = true) :
    Unstuck (orderParts parts misplaced count left i) := by
  induction left generalizing i with
  | zero => exact .ok _
  | succ left ih =>
    obtain ⟨part, hpart⟩ := Option.isSome_iff_exists.mp (hparts 0 (Nat.succ_pos _))
    have hnext : ∀ j < left, (parts.lookup (.index ((i + 1 + j : Nat) : Int))).isSome = true := by
      intro j hj
      have h := hparts (j + 1) (Nat.succ_lt_succ hj)
      rwa [show i + 1 + j = i + (j + 1) by omega]
    rw [Nat.add_zero] at hpart
    simp only [orderParts, hpart]
    split
    · exact .error hfault
    · exact (ih (i + 1) hnext).bind fun _ => .ok _

theorem bindParts_unstuck {few many : Fault} (hfew : few.isStuck = false)
    (hmany : many.isStuck = false) {source : Value} {parts : List Part}
    (hparts : ∀ p ∈ parts, ∀ v, Run.Unstuck (p.bind v)) (vs : List Value) :
    Run.Unstuck (bindParts few many source parts vs) := by
  induction parts generalizing vs with
  | nil =>
    cases vs with
    | nil => exact .pure _
    | cons _ _ => exact .raise hmany
  | cons part parts ih =>
    simp only [bindParts]
    split
    · cases parts with
      | nil => exact .raise hmany
      | cons last _ => exact hparts last (List.mem_cons_of_mem _ List.mem_cons_self) _
    · cases vs with
      | nil => exact .raise hfew
      | cons v vs =>
        exact .bind (hparts part List.mem_cons_self v) fun _ =>
          ih (fun p hp => hparts p (List.mem_cons_of_mem _ hp)) vs

theorem lookup_of_orderParts {parts : List (Key × Part)} {misplaced : Fault} {count left i : Nat}
    {ps : List Part} (h : orderParts parts misplaced count left i = .ok ps) {p : Part}
    (hp : p ∈ ps) : ∃ k, parts.lookup k = some p := by
  induction left generalizing i ps with
  | zero =>
    cases h
    cases hp
  | succ left ih =>
    simp only [orderParts] at h
    cases hlookup : parts.lookup (.index i) with
    | none =>
      rw [hlookup] at h
      cases h
    | some part =>
      rw [hlookup] at h
      dsimp only at h
      split at h
      · cases h
      · obtain ⟨later, hlater, hps⟩ := exists_of_bind_ok h
        cases hps
        rcases List.mem_cons.mp hp with rfl | hp
        · exact ⟨_, hlookup⟩
        · exact ih hlater hp

end Pattern

theorem lookup_patternParts (ctx : Context) (c : Scope) (cs : List (Key × Trace)) (k : Key) :
    (patternParts ctx c cs).lookup k =
      (childAt? cs k).map fun t => ⟨t.hasKind Pattern.restKind, t.bindPattern ctx c⟩ := by
  induction cs with
  | nil => rfl
  | cons p cs ih =>
    obtain ⟨j, t⟩ := p
    rw [patternParts, List.lookup_cons, childAt?_cons, ih]
    by_cases h : j = k
    · simp [h]
    · simp [h, beq_false_of_ne (Ne.symm h)]

theorem length_numbered (ts : List Trace) (i : Nat) :
    (Expression.numbered i ts).length = ts.length := by
  induction ts generalizing i with
  | nil => rfl
  | cons t ts ih => rw [Expression.numbered, List.length_cons, List.length_cons, ih]

theorem mem_of_numbered {ts : List Trace} {i : Nat} {k : Key} {t : Trace}
    (h : (k, t) ∈ Expression.numbered i ts) : t ∈ ts := by
  induction ts generalizing i with
  | nil => cases h
  | cons u ts ih =>
    rcases List.mem_cons.mp h with heq | h
    · cases heq
      exact List.mem_cons_self
    · exact List.mem_cons_of_mem _ (ih h)

/-- A tuple pattern has a part at every position, so it is never found to be incomplete. -/
theorem tuplePattern_unstuck (ctx : Context) (c : Scope) {ts : List Trace}
    (hts : ∀ t ∈ ts, ∀ v, Run.Unstuck (t.bindPattern ctx c v)) (v : Value) :
    Run.Unstuck ((Expression.tuplePattern ts).bindPattern ctx c v) := by
  have hpart {k : Key} {p : Pattern.Part}
      (h : (patternParts ctx c (Expression.numbered 0 ts)).lookup k = some p) (v : Value) :
      Run.Unstuck (p.bind v) := by
    rw [lookup_patternParts, Option.map_eq_some_iff] at h
    obtain ⟨t, ht, rfl⟩ := h
    exact hts t (mem_of_numbered (mem_of_childAt? ht)) v
  have hthere (j : Nat) (hj : j < (Expression.numbered 0 ts).length) :
      ((patternParts ctx c (Expression.numbered 0 ts)).lookup (.index ((0 + j : Nat) : Int))).isSome =
        true := by
    rw [length_numbered] at hj
    rw [lookup_patternParts, childAt?_numbered, List.getElem?_eq_getElem hj]
    rfl
  simp only [Expression.tuplePattern, Trace.node, Trace.bindPattern]
  rw [if_neg (by decide), if_pos (by decide)]
  refine .ofExcept_bind (Pattern.orderParts_unstuck rfl _ _ _ hthere) fun parts hparts => ?_
  cases v.elements? with
  | none => exact .raise rfl
  | some items =>
    refine Pattern.bindParts_unstuck rfl rfl (fun p hp v => ?_) items
    obtain ⟨k, hk⟩ := Pattern.lookup_of_orderParts hparts hp
    exact hpart hk v

mutual

theorem Shape.bindPattern_unstuck (ctx : Context) (c : Scope) : ∀ (p : Shape) (v : Value),
    Run.Unstuck (p.toTrace.bindPattern ctx c v)
  | .name x, v => Run.bindName_unstuck ctx c x v
  | .rest, _ => .raise rfl
  | .tuple ps, v => tuplePattern_unstuck ctx c (Shape.bindPatterns_unstuck ctx c ps) v

theorem Shape.bindPatterns_unstuck (ctx : Context) (c : Scope) : ∀ (ps : List Shape),
    ∀ t ∈ Shape.toTraces ps, ∀ v, Run.Unstuck (t.bindPattern ctx c v)
  | [], t, ht, _ => nomatch ht
  | p :: ps, t, ht, v => by
    rcases List.mem_cons.mp ht with rfl | ht
    · exact p.bindPattern_unstuck ctx c v
    · exact Shape.bindPatterns_unstuck ctx c ps t ht v

end

theorem Shape.matchBind_unstuck (ctx : Context) (c : Scope) (p : Shape) (v : Value) :
    Run.Unstuck (Run.matchBind ctx c (.trace p.toTrace) v) := by
  intro m f m' h
  rw [p.matchBind_toTrace] at h
  exact p.bindPattern_unstuck ctx c v m f m' h

end ProbTrace
