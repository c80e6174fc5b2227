import Mathlib.Data.List.Nodup
import Mathlib.Data.List.Pairwise
import ProbTrace.Proofs.Term

/-!
# Scopes in syntax trees

A block and the body of a procedure each open a scope.  The sites of a scope are the addresses
at which its names are bound: the definitions in it that are in no inner scope, and for a
procedure also its pattern, which is bound at the address of the call.

An expression is hygienic if every name of a scope is bound at one site of it and is not bound
further out.  Then a name means the same wherever it can be seen.
-/

namespace ProbTrace

/-- A pattern and the address at which it is bound. -/
abbrev Site := Address × Shape

/-- Sites as seen from further up. -/
def Site.below (k : Key) (sites : List Site) : List Site :=
  sites.map fun s => (k :: s.1, s.2)

namespace Term

mutual

/-- The sites in an expression that belong to the scope around it. -/
def sites : Term → List Site
  | application operator operands =>
    Site.below (.index 0) operator.sites ++ partSites 1 operands
  | conditional predicate yes no =>
    Site.below (.name "predicate") predicate.sites ++ Site.below (.name "then") yes.sites ++
      Site.below (.name "else") no.sites
  | definition pattern rhs _ => Site.below pattern.key rhs.sites ++ [([pattern.key], pattern)]
  | withAddress tag exp => Site.below (.name "tag") tag.sites ++ exp.sites
  | _ => []

/-- The sites in numbered expressions, from a number on. -/
def partSites : Nat → List Term → List Site
  | _, [] => []
  | i, t :: ts => Site.below (.index i) t.sites ++ partSites (i + 1) ts

end

/-- The sites of the scope that an expression opens. -/
def scopeSites : Term → List Site
  | gen pattern body _ => ([], pattern) :: body.sites
  | block statements => partSites 0 statements
  | _ => []

/-- The names of the scope that an expression opens. -/
def scopeNames (t : Term) : List String :=
  t.scopeSites.flatMap fun s => s.2.names

/-- Whether the names of the scope that an expression opens are bound once each, and not
further out. -/
def opensApart (outer : List String) (t : Term) : Bool :=
  decide t.scopeNames.Nodup && t.scopeNames.all fun x => !outer.contains x

mutual

/-- Whether no scope of an expression binds a name twice or a name that is bound further out,
and nothing in it is evaluated under the overlays of a tag. -/
def hygienic (outer : List String) : Term → Bool
  | application operator operands => operator.hygienic outer && allHygienic outer operands
  | gen pattern body name =>
    opensApart outer (gen pattern body name) &&
      body.hygienic (scopeNames (gen pattern body name) ++ outer)
  | conditional predicate yes no =>
    predicate.hygienic outer && yes.hygienic outer && no.hygienic outer
  | block statements =>
    opensApart outer (block statements) &&
      allHygienic (scopeNames (block statements) ++ outer) statements
  | definition _ rhs _ => rhs.hygienic outer
  | withAddress _ _ => false
  | _ => true

/-- Whether all of several expressions are hygienic. -/
def allHygienic (outer : List String) : List Term → Bool
  | [] => true
  | t :: ts => t.hygienic outer && allHygienic outer ts

end

variable {t u : Term} {ts : List Term} {outer : List String} {p q : Address} {s s' : Shape}

theorem mem_below {k : Key} {sites : List Site} (h : (p, s) ∈ sites) :
    (k :: p, s) ∈ Site.below k sites :=
  List.mem_map.mpr ⟨(p, s), h, rfl⟩

theorem below_subset_partSites {i : Nat} (ht : ts[i]? = some t) (j : Nat) :
    Site.below (.index (j + i : Nat)) t.sites ⊆ partSites j ts := by
  induction ts generalizing i j with
  | nil => cases ht
  | cons u ts ih =>
    rw [partSites]
    cases i with
    | zero =>
      cases ht
      exact List.subset_append_left _ _
    | succ i =>
      have hshift : j + (i + 1) = j + 1 + i := by omega
      rw [hshift]
      exact List.subset_append_of_subset_right _ (ih ht (j + 1))

theorem allHygienic_getElem? {i : Nat} (h : allHygienic outer ts = true) (ht : ts[i]? = some t) :
    t.hygienic outer = true := by
  induction ts generalizing i with
  | nil => cases ht
  | cons u ts ih =>
    rw [allHygienic, Bool.and_eq_true] at h
    cases i with
    | zero =>
      cases ht
      exact h.1
    | succ i => exact ih h.2 ht

mutual

theorem isStationary_of_hygienic : ∀ {t : Term} {outer : List String},
    t.hygienic outer = true → t.isStationary = true
  | application operator operands, _, h => by
    rw [hygienic, Bool.and_eq_true] at h
    rw [isStationary, isStationary_of_hygienic h.1, areStationary_of_allHygienic h.2]
    rfl
  | gen pattern body name, _, h => by
    rw [hygienic, Bool.and_eq_true] at h
    rw [isStationary]
    exact isStationary_of_hygienic h.2
  | conditional predicate yes no, _, h => by
    rw [hygienic, Bool.and_eq_true, Bool.and_eq_true] at h
    rw [isStationary, isStationary_of_hygienic h.1.1, isStationary_of_hygienic h.1.2,
      isStationary_of_hygienic h.2]
    rfl
  | block statements, _, h => by
    rw [hygienic, Bool.and_eq_true] at h
    rw [isStationary]
    exact areStationary_of_allHygienic h.2
  | definition _ rhs _, _, h => isStationary_of_hygienic (t := rhs) h
  | reference _, _, _ => rfl
  | literal _ _, _, _ => rfl
  | this, _, _ => rfl

theorem areStationary_of_allHygienic : ∀ {ts : List Term} {outer : List String},
    allHygienic outer ts = true → areStationary ts = true
  | [], _, _ => rfl
  | t :: ts, _, h => by
    rw [allHygienic, Bool.and_eq_true] at h
    rw [areStationary, isStationary_of_hygienic h.1, areStationary_of_allHygienic h.2]
    rfl

end

theorem not_mem_of_opensApart (h : t.opensApart outer = true) {x : String}
    (hx : x ∈ t.scopeNames) : x ∉ outer := by
  rw [opensApart, Bool.and_eq_true] at h
  simpa using List.all_eq_true.mp h.2 x hx

/-- A name of a scope is bound at one site. -/
theorem site_unique (h : t.scopeNames.Nodup) (hs : (p, s) ∈ t.scopeSites)
    (hs' : (q, s') ∈ t.scopeSites) {x : String} (hx : x ∈ s.names) (hx' : x ∈ s'.names) :
    p = q ∧ s = s' := by
  obtain ⟨-, hpairs⟩ := List.nodup_flatMap.mp h
  by_contra hne
  have hsites : ((p, s) : Site) ≠ (q, s') := fun heq => hne (Prod.mk.inj heq)
  have hsymm : Std.Symm (Function.onFun List.Disjoint fun s : Site => s.2.names) :=
    ⟨fun _ _ h _ hy hx => h hx hy⟩
  exact hpairs.forall hs hs' hsites hx hx'

theorem mem_scopeNames (hs : (p, s) ∈ t.scopeSites) {x : String} (hx : x ∈ s.names) :
    x ∈ t.scopeNames :=
  List.mem_flatMap.mpr ⟨(p, s), hs, hx⟩

end Term
end ProbTrace
