import ProbTrace.Proofs.Likeness

/-!
# Operations on values that are alike

The builtin procedures give values that are alike, or fail alike, when their operands
are alike.  The comparisons are left out: two closures may be one closure on one side
and two on the other, so that equality and order can tell sides apart.  What the numeric
operations give depends on the numbers alone and is the same on both sides.
-/

namespace ProbTrace

variable {L : Likeness}

namespace Value.Alike

variable {v w x y : Value}

/-! ## Operations on numbers -/

theorem expectNumeric_eq (h : Alike L v w) : v.expectNumeric = w.expectNumeric := by
  unfold Value.expectNumeric
  rw [h.numeric?_eq]

theorem subtract_eq (h : Alike L v w) (g : Alike L x y) : v.subtract x = w.subtract y := by
  unfold Value.subtract
  rw [h.expectNumeric_eq, g.expectNumeric_eq]

theorem divide_eq (h : Alike L v w) (g : Alike L x y) : v.divide x = w.divide y := by
  unfold Value.divide
  rw [h.expectNumeric_eq, g.expectNumeric_eq]

theorem negate_eq (h : Alike L v w) : v.negate = w.negate := by
  unfold Value.negate
  rw [h.expectNumeric_eq]

theorem toFloat_eq (h : Alike L v w) : v.toFloat = w.toFloat := by
  unfold Value.toFloat
  rw [h.expectNumeric_eq]

theorem exponential_eq (h : Alike L v w) : v.exponential = w.exponential := by
  unfold Value.exponential
  rw [h.toFloat_eq]

theorem logarithm_eq (h : Alike L v w) : v.logarithm = w.logarithm := by
  unfold Value.logarithm
  rw [h.expectNumeric_eq]

theorem range_eq (h : Alike L v w) : v.range = w.range := by
  unfold Value.range
  rw [h.numeric?_eq]

theorem relateAtoms_eq {M : Likeness} (h : Alike L v w) (g : Alike M x y) (r : Relation) :
    v.relateAtoms r x = w.relateAtoms r y := by
  unfold Value.relateAtoms
  rw [h.numeric?_eq, g.numeric?_eq, h.characters?_eq, g.characters?_eq]

end Value.Alike

namespace Numeric

theorem combine_agree (exact : Int → Int → Int) (rounded : Float → Float → Float)
    (a b : Numeric) :
    Agree L (Value.Alike L) (a.combine exact rounded b) (a.combine exact rounded b) := by
  refine Agree.self (a.combine_plain _ _ b) fun v hv => ?_
  unfold combine at hv
  split at hv
  · cases hv
    exact .int _
  · cases hx : a.toFloat <;> simp only [hx, bind, Except.bind] at hv
    · cases hv
    · cases hy : b.toFloat <;> simp only [hy, pure, Except.pure] at hv
      · cases hv
      · cases hv
        exact .float _

theorem divide_agree (a b : Numeric) :
    Agree L (Value.Alike L) (a.divide b) (a.divide b) := by
  refine Agree.self (a.divide_plain b) fun v hv => ?_
  unfold divide at hv
  split at hv
  · split at hv
    · cases hv
    · split at hv
      · cases hv
        exact .float _
      · cases hv
  · cases hx : a.toFloat <;> simp only [hx, bind, Except.bind] at hv
    · cases hv
    · cases hy : b.toFloat <;> simp only [hy, pure, Except.pure] at hv
      · cases hv
      · split at hv
        · cases hv
        · cases hv
          exact .float _

theorem negate_alike (a : Numeric) : Value.Alike L a.negate a.negate := by
  cases a with
  | int i => exact .int _
  | float x => exact .float _

end Numeric

namespace Agree

/-- Folding operands that are alike, with a step that takes alike to alike. -/
theorem foldlM {f : Value → Value → Except Fault Value}
    (hf : ∀ {v w x y}, Value.Alike L v w → Value.Alike L x y →
      Agree L (Value.Alike L) (f v x) (f w y))
    {vs ws : List Value} (hs : ItemsAlike L vs ws) {v w : Value} (h : Value.Alike L v w) :
    Agree L (Value.Alike L) (vs.foldlM f v) (ws.foldlM f w) := by
  induction hs generalizing v w with
  | nil => exact .ok h
  | cons hx _ ih =>
    rw [List.foldlM_cons, List.foldlM_cons]
    exact (hf h hx).bind fun _ _ h => ih h

end Agree

namespace Value.Alike

variable {v w x y : Value} {vs ws : List Value}

theorem subtract (h : Alike L v w) (g : Alike L x y) :
    Agree L (Alike L) (v.subtract x) (w.subtract y) := by
  rw [h.subtract_eq g]
  unfold Value.subtract
  exact .shared_bind (expectNumeric_plain _) fun a _ =>
    .shared_bind (expectNumeric_plain _) fun b _ => Numeric.combine_agree _ _ a b

theorem divide (h : Alike L v w) (g : Alike L x y) :
    Agree L (Alike L) (v.divide x) (w.divide y) := by
  rw [h.divide_eq g]
  unfold Value.divide
  exact .shared_bind (expectNumeric_plain _) fun a _ =>
    .shared_bind (expectNumeric_plain _) fun b _ => Numeric.divide_agree a b

theorem negate (h : Alike L v w) : Agree L (Alike L) v.negate w.negate := by
  rw [h.negate_eq]
  unfold Value.negate
  exact .shared_bind (expectNumeric_plain _) fun a _ => .ok a.negate_alike

/-! ## Operations on sequences -/

theorem add (h : Alike L v w) (g : Alike L x y) : Agree L (Alike L) (v.add x) (w.add y) := by
  unfold Value.add
  rw [h.numeric?_eq, g.numeric?_eq, h.characters?_eq, g.characters?_eq, h.isTuple_eq,
    g.isTuple_eq]
  split
  · exact Numeric.combine_agree _ _ _ _
  · split
    · exact .ok (.text _)
    · rcases h.items?_cases with ⟨hv, hw⟩ | ⟨vs, ws, hv, hw, hs⟩
      · rw [hv, hw]
        exact .plain rfl
      rcases g.items?_cases with ⟨hx, hy⟩ | ⟨xs, ys, hx, hy, gs⟩
      · rw [hv, hw, hx, hy]
        exact .plain rfl
      rw [hv, hw, hx, hy]
      dsimp only
      split
      · exact .ok (h.sameKind (List.rel_append hs gs))
      · exact .plain rfl

theorem flatten_replicate (h : ItemsAlike L vs ws) (n : Nat) :
    ItemsAlike L (List.replicate n vs).flatten (List.replicate n ws).flatten := by
  induction n with
  | zero => exact .nil
  | succ n ih =>
    rw [List.replicate_succ, List.replicate_succ, List.flatten_cons, List.flatten_cons]
    exact List.rel_append h ih

theorem repeated (h : Alike L v w) (count : Int) :
    Agree L (Alike L) (v.repeated count) (w.repeated count) := by
  unfold Value.repeated
  rw [h.characters?_eq]
  cases w.characters? with
  | some s =>
    refine .shared_bind (repeatCount_plain _ _) fun n _ => ?_
    dsimp only
    split
    · exact .plain rfl
    · exact .shared_bind (checkMemory_plain _) fun _ _ => .ok (.text _)
  | none =>
    rcases h.items?_cases with ⟨hv, hw⟩ | ⟨vs, ws, hv, hw, hs⟩
    · rw [hv, hw]
      exact .plain rfl
    · rw [hv, hw]
      simp only [hs.length_eq]
      exact .shared_bind (repeatCount_plain _ _) fun n _ =>
        .shared_bind (checkMemory_plain _) fun _ _ => .ok (h.sameKind (flatten_replicate hs n))

theorem multiply (h : Alike L v w) (g : Alike L x y) :
    Agree L (Alike L) (v.multiply x) (w.multiply y) := by
  unfold Value.multiply
  rw [h.numeric?_eq, g.numeric?_eq]
  split
  · exact Numeric.combine_agree _ _ _ _
  · exact g.repeated _
  · exact h.repeated _
  · exact .plain rfl

theorem pair (h : Alike L v w) (g : Alike L x y) : Agree L (Alike L) (v.pair x) (w.pair y) := by
  unfold Value.pair
  rcases g.items?_cases with ⟨hx, hy⟩ | ⟨xs, ys, hx, hy, gs⟩
  · rw [hx, hy]
    exact .error (.invalidInputs _ g)
  · rw [hx, hy]
    exact .ok (g.sameKind (.cons h gs))

theorem expectElements (h : Alike L v w) :
    Agree L (ItemsAlike L) v.expectElements w.expectElements := by
  unfold Value.expectElements
  rcases h.elements?_cases with ⟨hv, hw⟩ | ⟨vs, ws, hv, hw, hs⟩
  · rw [hv, hw]
    exact .plain rfl
  · rw [hv, hw]
    exact .ok hs

theorem getElem? (h : ItemsAlike L vs ws) (n : Nat) :
    (vs[n]? = none ∧ ws[n]? = none) ∨
      ∃ v w, vs[n]? = some v ∧ ws[n]? = some w ∧ Alike L v w := by
  rcases Nat.lt_or_ge n vs.length with hn | hn
  · have hn' : n < ws.length := h.length_eq ▸ hn
    exact .inr ⟨_, _, List.getElem?_eq_getElem hn, List.getElem?_eq_getElem hn', h.get hn hn'⟩
  · exact .inl ⟨List.getElem?_eq_none hn, List.getElem?_eq_none (h.length_eq ▸ hn)⟩

theorem itemAt (h : ItemsAlike L vs ws) (i : Int) :
    Agree L (Alike L) (Value.itemAt vs i) (Value.itemAt ws i) := by
  unfold Value.itemAt
  rw [h.length_eq]
  generalize (if i < 0 then i + ↑ws.length else i) = position
  by_cases hp : position < 0
  · simp only [hp, if_true]
    exact .plain rfl
  · simp only [hp, if_false]
    rcases getElem? h position.toNat with ⟨hv, hw⟩ | ⟨v, w, hv, hw, hvw⟩
    · rw [hv, hw]
      exact .plain rfl
    · rw [hv, hw]
      exact .ok hvw

theorem first (h : Alike L v w) : Agree L (Alike L) v.first w.first :=
  h.expectElements.bind fun _ _ hs => itemAt hs 0

theorem rest (h : Alike L v w) : Agree L (Alike L) v.rest w.rest := by
  unfold Value.rest
  rw [h.characters?_eq]
  cases w.characters? with
  | some s => exact .ok (.text _)
  | none =>
    rcases h.items?_cases with ⟨hv, hw⟩ | ⟨vs, ws, hv, hw, hs⟩
    · rw [hv, hw]
      exact .plain rfl
    · rw [hv, hw]
      exact .ok (h.sameKind (List.forall₂_drop 1 hs))

theorem nth (h : Alike L v w) (g : Alike L x y) : Agree L (Alike L) (v.nth x) (w.nth y) := by
  unfold Value.nth
  rw [g.numeric?_eq]
  refine h.expectElements.bind fun vs ws hs => ?_
  split
  · exact itemAt hs _
  · exact .plain rfl

theorem length (h : Alike L v w) : Agree L (Alike L) v.length w.length :=
  h.expectElements.bind fun vs ws hs => by
    rw [hs.length_eq]
    exact .ok (.int _)

theorem range (h : Alike L v w) : Agree L (Alike L) v.range w.range := by
  rw [h.range_eq]
  unfold Value.range
  split
  · dsimp only
    split
    · exact .plain rfl
    · refine .shared_bind (checkMemory_plain _) fun _ _ => .ok (ofList ?_)
      refine List.forall₂_same.mpr fun x hx => ?_
      obtain ⟨k, -, rfl⟩ := List.mem_map.mp hx
      exact .int _
  · exact .plain rfl

theorem find?_noKey (h : ItemsAlike L vs ws) :
    ((vs.find? fun v => v.key?.isNone) = none ∧ (ws.find? fun v => v.key?.isNone) = none) ∨
      ∃ v w, (vs.find? fun v => v.key?.isNone) = some v ∧
        (ws.find? fun v => v.key?.isNone) = some w ∧ Alike L v w := by
  induction h with
  | nil => exact .inl ⟨rfl, rfl⟩
  | @cons v w vs ws hv _ ih =>
    simp only [List.find?_cons, ← hv.key?_eq]
    cases v.key?.isNone with
    | true => exact .inr ⟨v, w, rfl, rfl, hv⟩
    | false => exact ih

theorem address (h : ItemsAlike L vs ws) :
    Agree L (Alike L) (Value.address vs) (Value.address ws) := by
  unfold Value.address
  rcases find?_noKey h with ⟨hv, hw⟩ | ⟨v, w, hv, hw, hvw⟩
  · rw [hv, hw]
    exact .ok (ofTuple h)
  · rw [hv, hw]
    exact .error (.invalidKey _ hvw (ofTuple h))

end Value.Alike

/-! ## Numbering of results -/

theorem Value.enroll_of_ne {v : Value} (h : ∀ x, v ≠ .float x) (n : Nat) :
    v.enroll n = (v, n) := by
  cases v with
  | float x => exact absurd rfl (h x)
  | _ => rfl

/-- As many serial numbers are given out on both sides. -/
theorem Value.Alike.enroll {v w : Value} (h : Value.Alike L v w) {n k : Nat}
    (hnk : L.undefined n k) :
    (∃ d, (v.enroll n).2 = n + d ∧ (w.enroll k).2 = k + d) ∧
      Value.Alike L (v.enroll n).1 (w.enroll k).1 := by
  by_cases hv : ∃ x, v = .float x
  · obtain ⟨x, rfl⟩ := hv
    cases h
    unfold Value.enroll
    dsimp only
    split
    · exact ⟨⟨1, rfl, rfl⟩, .undefined hnk⟩
    · exact ⟨⟨0, rfl, rfl⟩, .float x⟩
  · have hw : ∀ x, w ≠ .float x := by
      rintro x rfl
      cases h
      exact hv ⟨x, rfl⟩
    rw [enroll_of_ne (fun x hx => hv ⟨x, hx⟩), enroll_of_ne hw]
    exact ⟨⟨0, rfl, rfl⟩, h⟩

namespace Builtin

/-- The builtins that compare their operands. -/
def compares : Builtin → Bool
  | equal | notEqual | less | greater | lessEqual | greaterEqual => true
  | _ => false

theorem logarithm_agree {v w : Value} {x y : Option Value} (h : Value.Alike L v w)
    (hb : Option.Rel (Value.Alike L) x y) :
    Agree L (Value.Alike L) (logarithm v x) (logarithm w y) := by
  unfold logarithm
  rw [h.logarithm_eq]
  refine .shared_bind (Value.logarithm_plain _) fun a _ => ?_
  cases hb with
  | none => exact .ok (.float a)
  | some hb =>
    dsimp only
    rw [hb.logarithm_eq]
    exact .shared_bind (Value.logarithm_plain _) fun b _ => Numeric.divide_agree _ _

theorem compute_single (s t : Store) {b : Builtin} {v w : Value} (h : Value.Alike L v w)
    (hb : b ∈ [logicalNot, first, rest, length, range, exp]) :
    Agree L (Value.Alike L) (b.compute s [v]) (b.compute t [w]) := by
  simp only [List.mem_cons, List.not_mem_nil, or_false] at hb
  rcases hb with rfl | rfl | rfl | rfl | rfl | rfl
  · simp only [compute, h.isTruthy_eq]
    exact .ok (.bool _)
  · exact h.first
  · exact h.rest
  · exact h.length
  · exact h.range
  · simp only [compute, h.exponential_eq]
    exact .shared_bind (Value.exponential_plain _) fun x _ => .ok (.float x)

/-- A builtin that does not compare takes operands that are alike to results that are
alike, whatever the stores. -/
theorem compute_agree (s t : Store) {b : Builtin} (hb : b.compares = false)
    {vs ws : List Value} (h : ItemsAlike L vs ws) :
    Agree L (Value.Alike L) (b.compute s vs) (b.compute t ws) := by
  cases b with
  | equal | notEqual | less | greater | lessEqual | greaterEqual => cases hb
  | add =>
    cases h with
    | nil => exact .ok (.int 0)
    | cons hv hs => exact .foldlM Value.Alike.add hs hv
  | subtract =>
    cases h with
    | nil => exact .plain rfl
    | cons hv hs =>
      cases hs with
      | nil => exact hv.negate
      | cons hw hs => exact .foldlM Value.Alike.subtract (.cons hw hs) hv
  | multiply => exact .foldlM Value.Alike.multiply h (.int 1)
  | divide =>
    cases h with
    | nil => exact .plain rfl
    | cons hv hs =>
      cases hs with
      | nil => exact (Value.Alike.int 1).divide hv
      | cons hw hs => exact .foldlM Value.Alike.divide (.cons hw hs) hv
  | makeList => exact .ok (.ofList h)
  | makeTuple => exact .ok (.ofTuple h)
  | address => exact Value.Alike.address h
  | note => exact .plain rfl
  | logicalNot | first | rest | length | range | exp =>
    cases h with
    | nil => exact .plain rfl
    | cons hv hs =>
      cases hs with
      | nil => exact compute_single s t hv (by decide)
      | cons _ _ => exact .plain rfl
  | pair =>
    match h with
    | .nil => exact .plain rfl
    | .cons _ .nil => exact .plain rfl
    | .cons hv (.cons hw .nil) => exact hv.pair hw
    | .cons _ (.cons _ (.cons _ _)) => exact .plain rfl
  | nth =>
    match h with
    | .nil => exact .plain rfl
    | .cons _ .nil => exact .plain rfl
    | .cons hv (.cons hw .nil) => exact hv.nth hw
    | .cons _ (.cons _ (.cons _ _)) => exact .plain rfl
  | log =>
    match h with
    | .nil => exact .plain rfl
    | .cons hv .nil => exact logarithm_agree hv .none
    | .cons hv (.cons hw .nil) => exact logarithm_agree hv (.some hw)
    | .cons _ (.cons _ (.cons _ _)) => exact .plain rfl

end Builtin

namespace Builtin

/-- A comparison is between two operands. -/
theorem compute_of_length_ne {b : Builtin} (hb : b.compares = true) {vs : List Value}
    (h : vs.length ≠ 2) (s : Store) : b.compute s vs = .error .wrongType := by
  rcases vs with _ | ⟨v, _ | ⟨w, _ | ⟨x, rest⟩⟩⟩
  · cases b <;> first | rfl | cases hb
  · cases b <;> first | rfl | cases hb
  · exact absurd rfl h
  · cases b <;> first | rfl | cases hb

/-- A comparison takes operands that are alike to the same answer, if the two stores
agree on such operands. -/
theorem compute_compares {s t : Store} {b : Builtin} (hb : b.compares = true)
    {vs ws : List Value} (h : ItemsAlike L vs ws)
    (hsame : ∀ {v w x y}, Value.Alike L v w → Value.Alike L x y → s.same v x = t.same w y)
    (hrelate : ∀ (r : Relation) {v w x y}, Value.Alike L v w → Value.Alike L x y →
      v.relate s r x = w.relate t r y) :
    Agree L (Value.Alike L) (b.compute s vs) (b.compute t ws) := by
  have hrelation (r : Relation) {v w x y : Value} (hv : Value.Alike L v w)
      (hx : Value.Alike L x y) :
      Agree L (Value.Alike L) (relation s r v x) (relation t r w y) := by
    unfold relation
    rw [hrelate r hv hx]
    exact .shared_bind (Value.relate_plain _ _ _ _) fun b _ => .ok (.bool b)
  by_cases hlength : vs.length = 2
  · obtain ⟨v, x, rfl⟩ := List.length_eq_two.mp hlength
    cases h with | cons hv h =>
    cases h with | cons hx h =>
    cases h
    cases b with
    | equal =>
      simp only [compute, hsame hv hx]
      exact .ok (.bool _)
    | notEqual =>
      simp only [compute, hsame hv hx]
      exact .ok (.bool _)
    | less => exact hrelation .less hv hx
    | greater => exact hrelation .greater hv hx
    | lessEqual => exact hrelation .lessEqual hv hx
    | greaterEqual => exact hrelation .greaterEqual hv hx
    | _ => cases hb
  · rw [compute_of_length_ne hb hlength, compute_of_length_ne hb (h.length_eq ▸ hlength)]
    exact .plain rfl

end Builtin

namespace Distribution

variable {v w x y : Value} {s t : Store}

theorem safeLog_eq (h : Value.Alike L v w) : safeLog v = safeLog w := by
  unfold safeLog
  rw [h.relateAtoms_eq (Value.Alike.int (L := L) 0), h.logarithm_eq]

theorem flipLogDensity_eq (h : Value.Alike L v w) (g : Value.Alike L x y) :
    flipLogDensity v x = flipLogDensity w y := by
  unfold flipLogDensity
  rw [safeLog_eq g, (Value.Alike.float 1.0).subtract_eq g]
  cases h <;> rfl

theorem gaussianLogDensity_eq {a b : Value} (h : Value.Alike L v w) (g : Value.Alike L x y)
    (k : Value.Alike L a b) : gaussianLogDensity v x a = gaussianLogDensity w y b := by
  have hdivide (u : Value) : u.divide a = u.divide b := by
    unfold Value.divide
    rw [k.expectNumeric_eq]
  unfold gaussianLogDensity
  simp only [h.subtract_eq g, hdivide, k.logarithm_eq]

/-- The log density of an observed value is the same for parameters that are alike, if
the observed values relate alike to the parameters. -/
theorem logDensity_eq (dist : Distribution) {vs ws : List Value} (h : Value.Alike L v w)
    (hs : ItemsAlike L vs ws)
    (hrelate : ∀ {x y}, Value.Alike L x y → x.relate s .lessEqual v = y.relate t .lessEqual w ∧
      v.relate s .lessEqual x = w.relate t .lessEqual y) :
    dist.logDensity s (v :: vs) = dist.logDensity t (w :: ws) := by
  cases dist with
  | flip =>
    match hs with
    | .nil => rfl
    | .cons hp .nil => exact flipLogDensity_eq h hp
    | .cons _ (.cons _ _) => rfl
  | uniform =>
    match hs with
    | .nil => rfl
    | .cons _ .nil => rfl
    | .cons hlow (.cons hhigh .nil) =>
      simp only [logDensity, uniformLogDensity]
      rw [(hrelate hlow).1, (hrelate hhigh).2, hhigh.subtract_eq hlow]
    | .cons _ (.cons _ (.cons _ _)) => rfl
  | gaussian =>
    match hs with
    | .nil => rfl
    | .cons _ .nil => rfl
    | .cons hmean (.cons hdeviation .nil) => exact gaussianLogDensity_eq h hmean hdeviation
    | .cons _ (.cons _ (.cons _ _)) => rfl

end Distribution

/-! ## Steps of a run -/

/-- Two steps of a run that returns. -/
theorem Run.exists_of_bind {α β : Type} {x : Run α} {f : α → Run β} {m m'' : Machine} {b : β}
    (h : (x >>= f) m = .ok b m'') : ∃ a m', x m = .ok a m' ∧ f a m' = .ok b m'' := by
  have hbind : (x >>= f) m = EStateM.bind x f m := rfl
  rw [hbind, EStateM.bind] at h
  split at h
  · rename_i a m' hx
    exact ⟨a, m', hx, h⟩
  · cases h

theorem Run.eq_of_ofExcept {α : Type} {x : Except Fault α} {m m' : Machine} {a : α}
    (h : Run.ofExcept x m = .ok a m') : x = .ok a ∧ m' = m := by
  cases x with
  | error f => cases h
  | ok b =>
    cases h
    exact ⟨rfl, rfl⟩

/-- Machines with the same store and frames. -/
structure Machine.Quiet (m m' : Machine) : Prop where
  store : m'.store = m.store
  frames : m'.frames = m.frames

/-- Machines with the same store and frames that have made the same random choices. -/
structure Machine.Still (m m' : Machine) : Prop extends m.Quiet m' where
  draws : m'.draws = m.draws
  spare : m'.spare = m.spare

namespace Random

theorem deviate_quiet {ctx : Context} {m m' : Machine} {z : Float}
    (h : deviate ctx m = .ok z m') : m.Quiet m' := by
  unfold deviate at h
  obtain ⟨_, _, hget, h₁⟩ := Run.exists_of_bind h
  cases hget
  obtain ⟨_, _, hclear, h₂⟩ := Run.exists_of_bind h₁
  cases hclear
  cases hspare : m.spare with
  | some z =>
    rw [hspare] at h₂
    cases h₂
    exact ⟨rfl, rfl⟩
  | none =>
    rw [hspare] at h₂
    obtain ⟨_, _, hturn, h₃⟩ := Run.exists_of_bind h₂
    cases hturn
    obtain ⟨_, _, hdraw, h₄⟩ := Run.exists_of_bind h₃
    cases hdraw
    obtain ⟨_, m₁, hradius, h₅⟩ := Run.exists_of_bind h₄
    obtain ⟨_, hm₁⟩ := Run.eq_of_ofExcept hradius
    obtain ⟨_, _, hset, h₆⟩ := Run.exists_of_bind h₅
    cases hset
    cases h₆
    rw [hm₁]
    exact ⟨rfl, rfl⟩

end Random

theorem Run.enroll_ok (hL : ∀ serial, L.undefined serial serial) {v u : Value} {m m' : Machine}
    (h : Run.enroll v m = .ok u m') (hv : Value.Alike L v v) : Value.Alike L u u ∧ m.Still m' := by
  cases h
  exact ⟨(hv.enroll (hL m.serials)).2, ⟨rfl, rfl⟩, rfl, rfl⟩

/-- A value that is drawn is alike to itself. -/
theorem Distribution.sample_ok (hL : ∀ serial, L.undefined serial serial) {ctx : Context}
    {dist : Distribution} {vs : List Value} (hvs : ItemsAlike L vs vs) {v : Value}
    {m m' : Machine} (h : dist.sample ctx vs m = .ok v m') :
    Value.Alike L v v ∧ m.Quiet m' := by
  cases dist with
  | flip =>
    match hvs with
    | .nil | .cons _ (.cons _ _) => cases h
    | .cons _ .nil =>
      obtain ⟨_, _, hdraw, h₁⟩ := Run.exists_of_bind h
      cases hdraw
      obtain ⟨b, _, hless, h₂⟩ := Run.exists_of_bind h₁
      cases h₂
      obtain ⟨-, hm'⟩ := Run.eq_of_ofExcept hless
      rw [hm']
      exact ⟨.bool b, rfl, rfl⟩
  | uniform =>
    match hvs with
    | .nil | .cons _ .nil | .cons _ (.cons _ (.cons _ _)) => cases h
    | .cons hlow (.cons hhigh .nil) =>
      obtain ⟨width, m₁, hsubtract, h₁⟩ := Run.exists_of_bind h
      obtain ⟨hwidth, hm₁⟩ := Run.eq_of_ofExcept hsubtract
      obtain ⟨u, m₂, hdraw, h₂⟩ := Run.exists_of_bind h₁
      cases hdraw
      obtain ⟨x, m₃, hadd, h₃⟩ := Run.exists_of_bind h₂
      obtain ⟨hx, hm₃⟩ := Run.eq_of_ofExcept hadd
      have hself : Value.Alike L width width := (hhigh.subtract hlow).self_ok hwidth
      have hsum := ((hself.multiply (.float _)).bind fun _ _ h => hlow.add h).self_ok hx
      obtain ⟨hv, hstill⟩ := Run.enroll_ok hL h₃ hsum
      refine ⟨hv, ?_, ?_⟩
      · rw [hstill.store, hm₃, hm₁]
      · rw [hstill.frames, hm₃, hm₁]
  | gaussian =>
    match hvs with
    | .nil | .cons _ .nil | .cons _ (.cons _ (.cons _ _)) => cases h
    | .cons hmean (.cons hdeviation .nil) =>
      obtain ⟨z, m₁, hz, h₁⟩ := Run.exists_of_bind h
      have hquiet := Random.deviate_quiet hz
      obtain ⟨x, m₂, hadd, h₂⟩ := Run.exists_of_bind h₁
      obtain ⟨hx, hm₂⟩ := Run.eq_of_ofExcept hadd
      have hsum := (((Value.Alike.float z).multiply hdeviation).bind
        fun _ _ h => hmean.add h).self_ok hx
      obtain ⟨hv, hstill⟩ := Run.enroll_ok hL h₂ hsum
      refine ⟨hv, ?_, ?_⟩
      · rw [hstill.store, hm₂, hquiet.store]
      · rw [hstill.frames, hm₂, hquiet.frames]

/-- A builtin that is called changes neither the store nor the frames. -/
theorem Builtin.call_eq {b : Builtin} (hb : b ≠ .note) (vs : List Value) :
    b.call vs = (do Run.enroll (← Run.ofExcept (b.compute (← Run.store) vs))) := by
  cases b <;> first | rfl | exact absurd rfl hb

/-! ## Captured tags -/

theorem Value.resolveTag_ok {v : Value} {r : Overlays Trace × Address}
    (h : v.quasiAddress = .ok r) : v.resolveTag = r.1.below r.2 := by
  simp only [Value.resolveTag, h]
  rfl

theorem Value.edit_resolveTag_error {v : Value} {f : Fault} (h : v.quasiAddress = .error f) :
    Run.edit v.resolveTag = Run.raise f := by
  simp only [Value.resolveTag, h]
  rfl

/-- Quasi-addresses that are alike denote tags that correspond, with the same keys. -/
theorem Value.Alike.quasiAddress_agree {L : Likeness} {v w : Value} (h : Value.Alike L v w) :
    Agree L (fun r q => (∃ i j, L.tag i r.1 j q.1) ∧ r.2 = q.2) v.quasiAddress w.quasiAddress := by
  unfold Value.quasiAddress
  rcases h.items?_cases with ⟨hn, hn'⟩ | ⟨vs, ws, hvs, hws, hitems⟩
  · rw [hn, hn']
    exact .error (.emptyQuasiAddress h)
  · rw [hvs, hws]
    cases hitems with
    | nil => exact .error (.emptyQuasiAddress h)
    | cons hfirst hkeys =>
      cases hfirst with
      | tag htag =>
        obtain ⟨ha, hbad⟩ := Address.ofValues_alike hkeys
        dsimp only
        rename_i i o j p
        revert ha hbad
        generalize Address.ofValues _ = r
        generalize Address.ofValues _ = q
        intro ha hbad
        obtain ⟨a, x⟩ := r
        obtain ⟨b, y⟩ := q
        cases ha
        cases hbad with
        | none =>
          dsimp only
          split
          · exact .ok ⟨⟨i, j, htag⟩, rfl⟩
          · exact .plain rfl
        | some hx => exact .error (.invalidKey _ hx (.ofTuple hkeys))
      | _ => exact .error (.noCapturedTag h)

end ProbTrace
