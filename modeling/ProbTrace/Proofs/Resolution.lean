import ProbTrace.Proofs.Interruption

/-!
# Resolving quasi-addresses

A quasi-address is a tag with keys after it.  It can be resolved in steps: the overlays that some of
the keys lead to can be captured again, and the rest of the keys then lead from there to the same
nodes.  Reading an overlay may end at any key, while the output gets the nodes that are missing;
both compose because the nodes that the output gets on the first part of the way are no nodes of the
overlays that are read.

A quasi-address that cannot be resolved changes nothing.  Its keys are looked at before a node is
added, and nothing else fails once a node was added.  The keys must have a text: a number with more
digits than can be written is a key, and a quasi-address with that key cannot be resolved.
-/

namespace ProbTrace

/-- Overlays that are there, with an output that can be written to throughout and has no cell in
common with the others. -/
structure Overlays.Clear (s : Store) (o : Overlays Trace) : Prop where
  anchored : ∀ r, r ∈ o.intervene ∨ r ∈ o.target → r.Anchored s
  writable : ∀ t ∈ o.output, t.Writable s
  apart : ∀ t ∈ o.output, ∀ r, r ∈ o.intervene ∨ r ∈ o.target → ∀ {a b n},
    s.find? t a = some (.cell n) → s.find? r b ≠ some (.cell n)

/-- A quasi-address: a tag and then the keys of an address. -/
def Value.IsQuasiAddress (q : Value) (o : Overlays Trace) (a : Address) : Prop :=
  ∃ serial, q.items? = some (.tag serial o :: a.map Key.toValue)

section Resolve

variable {s s' : Store} {o : Overlays Trace} {q : Value} {a b : Address} {f : Fault}

theorem Value.IsQuasiAddress.quasiAddress (h : q.IsQuasiAddress o a) :
    q.quasiAddress = if a.hasText then .ok (o, a) else .error .wrongValue := by
  obtain ⟨serial, hitems⟩ := h
  have hkeys : Address.ofValues (a.map Key.toValue) = (a, none) := Address.ofValues_toValue a
  simp only [Value.quasiAddress, hitems, hkeys]

theorem Value.IsQuasiAddress.resolveTag (h : q.IsQuasiAddress o a) (ha : a.hasText = true)
    (s : Store) : q.resolveTag s = o.below a s := by
  simp only [Value.resolveTag, h.quasiAddress, ha, if_true]
  rfl

theorem Value.IsQuasiAddress.resolveTag_fails (h : q.IsQuasiAddress o a) (ha : a.hasText = false)
    (s : Store) : q.resolveTag s = .error .wrongValue s := by
  simp only [Value.resolveTag, h.quasiAddress, ha, Bool.false_eq_true, if_false]
  rfl

/-- Going below overlays fails only before a node was added. -/
theorem Overlays.below_error (h : o.below a s = .error f s') : s' = s := by
  cases ho : o.output with
  | none =>
    rw [below_absent ho] at h
    cases h
  | some t =>
    cases hreach : t.reach a s with
    | ok u r =>
      rw [below_reach ho hreach] at h
      cases h
    | error g r =>
      rw [below_fails ho hreach] at h
      cases h
      exact (Trace.reach_error hreach).1

theorem Value.resolveTag_error (h : q.resolveTag s = .error f s') : s' = s := by
  cases hquasi : q.quasiAddress with
  | error g =>
    simp only [Value.resolveTag, hquasi] at h
    cases h
    rfl
  | ok p =>
    simp only [Value.resolveTag, hquasi] at h
    exact Overlays.below_error h

end Resolve

namespace Overlays.Clear

variable {s s₁ : Store} {o : Overlays Trace} {t : Trace} {a : Address}

/-- Going on from where an overlay was read before the output got its nodes. -/
theorem read_append {overlay : Option Trace} (h : ∀ r ∈ overlay, r.Unchanged s s₁)
    (a b : Address) :
    (overlay.bind (s.find? · a)).bind (s₁.find? · b) = overlay.bind (s.find? · (a ++ b)) := by
  cases overlay with
  | none => rfl
  | some r =>
    have hfind := (h r rfl).find?_eq
    rw [Option.bind_some, Option.bind_some, ← hfind a, ← hfind (a ++ b), Store.find?_append]

/-- Overlays below others are those that the whole address leads to, with the same store behind. -/
theorem below_append (h : o.Clear s) (a b : Address) :
    ∃ d s₁ e s₂, o.below a s = .ok d s₁ ∧ d.below b s₁ = .ok e s₂ ∧
      o.below (a ++ b) s = .ok e s₂ ∧ ∀ t ∈ o.output, ∃ u, t.reach (a ++ b) s = .ok u s₂ := by
  cases ho : o.output with
  | none =>
    refine ⟨_, _, _, _, below_absent ho, below_absent rfl, ?_, ?_⟩
    · rw [below_absent ho]
      simp only [bind_find?_append]
    · rintro _ ⟨⟩
  | some t =>
    have hwritable := h.writable t ho
    obtain ⟨u, s₁, hreach, -⟩ := Trace.exists_reach (a := a) hwritable
    obtain ⟨w, s₂, hreach', -⟩ := Trace.exists_reach (a := a ++ b) hwritable
    have hbelow : u.reach b s₁ = .ok w s₂ := by
      rw [← Trace.reach_append hreach]
      exact hreach'
    have hextended := (Trace.Anchored.reach hwritable.anchored hreach).1
    -- Cells are only added below the output, and what is read shares none with it.
    have hunchanged : ∀ r, r ∈ o.intervene ∨ r ∈ o.target → r.Unchanged s s₁ := fun r hr =>
      hextended.unchanged (h.anchored r hr) (h.apart t ho r hr)
    refine ⟨_, _, _, _, below_reach ho hreach, below_reach rfl hbelow, ?_, ?_⟩
    · rw [below_reach ho hreach', read_append fun r hr => hunchanged r (.inl hr),
        read_append fun r hr => hunchanged r (.inr hr)]
    · rintro _ ⟨⟩
      exact ⟨w, hreach'⟩

/-- Quasi-addresses can be resolved in steps.  If two addresses have texts, resolving a tag with both
after it gives the same nodes as resolving it with the first one, and then the overlays so found
with the second one; the store is the same after both.  In the output every
node stays where it was with its value, and a node that was not there holds no value and is on the
way to the address; if no node of the output is at two addresses, exactly the addresses on the way
are new.  With an address that has no text nothing is resolved.  And whatever is resolved, if it
cannot be, then the store is as it was. -/
theorem resolves_stepwise (h : o.Clear s) (a b : Address) :
    (a.hasText = true → b.hasText = true →
      ∃ d e s₁ s₂, (∀ q : Value, q.IsQuasiAddress o a → q.resolveTag s = .ok d s₁) ∧
        (∀ q : Value, q.IsQuasiAddress d b → q.resolveTag s₁ = .ok e s₂) ∧
        (∀ q : Value, q.IsQuasiAddress o (a ++ b) → q.resolveTag s = .ok e s₂) ∧
        ∀ t ∈ o.output,
          (∀ c x, s.find? t c = some x → s₂.find? t c = some x ∧ s₂.value? x = s.value? x) ∧
          (∀ c x, s₂.find? t c = some x → s.find? t c = none → s₂.value? x = none ∧
            ∃ p, p <+: a ++ b ∧ s.find? t p = none ∧ s₂.find? t p = some x) ∧
          (t.Unshared s → ∀ c, (s₂.find? t c).isSome ↔ (s.find? t c).isSome ∨ c <+: a ++ b)) ∧
    (∀ (q : Value) (d : Overlays Trace) (c : Address) (r : Store), q.IsQuasiAddress d c →
      c.hasText = false → q.resolveTag r = .error .wrongValue r) ∧
    ∀ (q : Value) (r r' : Store) (f : Fault), q.resolveTag r = .error f r' → r' = r := by
  refine ⟨fun ha hb => ?_, fun q d c r hq hc => hq.resolveTag_fails hc r,
    fun q r r' f => Value.resolveTag_error⟩
  obtain ⟨d, s₁, e, s₂, hfirst, hsecond, hwhole, hreach⟩ := h.below_append a b
  have hab : Address.hasText (a ++ b) = true := by rw [Address.hasText_append, ha, hb]; rfl
  refine ⟨d, e, s₁, s₂, fun q hq => hq.resolveTag ha s ▸ hfirst,
    fun q hq => hq.resolveTag hb s₁ ▸ hsecond, fun q hq => hq.resolveTag hab s ▸ hwhole,
    fun t ht => ?_⟩
  obtain ⟨u, hu⟩ := hreach t ht
  have hwritable := h.writable t ht
  have hextended := (Trace.Anchored.reach hwritable.anchored hu).1
  refine ⟨fun c x hx => ⟨hextended.kept hx, hextended.value x⟩,
    fun c x hx hnone => hextended.added hwritable.anchored hx hnone, fun hunshared => ?_⟩
  obtain ⟨_, _, hu', -, -, hreached, -⟩ :=
    Trace.Editable.exists_reach ⟨hwritable, hunshared⟩ (a ++ b)
  rw [hu] at hu'
  cases hu'
  exact hreached.present

/-- A trace with one child, and a root beside it without value and children. -/
def besideRoot : Store where
  cells := #[{ children := [(.name "a", .cell 1)] }, { value := some (.int 3) }, {}]

/-- The trace is read and the root beside it is the output. -/
def besideRootOverlays : Overlays Trace where
  intervene := some (.cell 0)
  output := some (.cell 2)

theorem besideRoot_clear : besideRootOverlays.Clear besideRoot := by
  have hread {c : Address} {x : Trace} (hx : besideRoot.find? (.cell 0) c = some x) :
      x = .cell 0 ∨ x = .cell 1 := by
    refine Store.find?_inherits (P := fun x => x = .cell 0 ∨ x = .cell 1) ?_ (.inl rfl) hx
    rintro _ _ u (rfl | rfl) hu
    · cases List.mem_singleton.mp hu
      exact .inr rfl
    · cases hu
  have hwritten {c : Address} {x : Trace} (hx : besideRoot.find? (.cell 2) c = some x) :
      x = .cell 2 := by
    refine Store.find?_inherits (P := (· = .cell 2)) ?_ rfl hx
    rintro _ _ u rfl hu
    cases hu
  refine ⟨?_, ?_, ?_⟩
  · rintro r (⟨⟨⟩⟩ | ⟨⟨⟩⟩) c n hn
    rcases hread hn with ⟨⟨⟩⟩ | ⟨⟨⟩⟩ <;> decide
  · rintro _ ⟨⟩ c x hx
    exact ⟨2, hwritten hx, by decide, by rw [hwritten hx]; rfl⟩
  · rintro _ ⟨⟩ r (⟨⟨⟩⟩ | ⟨⟨⟩⟩) c d n hc hd
    cases hwritten hc
    rcases hread hd with ⟨⟨⟩⟩ | ⟨⟨⟩⟩

/-- Keys that lead off the trace that is read: in one step and in two they lead to no node of it,
and to the same new node of the output. -/
theorem besideRoot_resolved :
    ∃ d e s₁ s₂,
      (Value.tuple [.tag 0 besideRootOverlays, .text "a"]).resolveTag besideRoot = .ok d s₁ ∧
      (Value.list [.tag 1 d, .text "b"]).resolveTag s₁ = .ok e s₂ ∧
      (Value.list [.tag 0 besideRootOverlays, .text "a", .text "b"]).resolveTag besideRoot =
        .ok e s₂ ∧
      (s₂.find? (.cell 2) [.name "a"]).isSome ∧ ¬ (s₂.find? (.cell 2) [.name "b"]).isSome := by
  have hunshared : (Trace.cell 2).Unshared besideRoot := by
    rintro (_ | ⟨k, c⟩) (_ | ⟨j, d⟩) n hc hd
    · rfl
    · cases hd
    · cases hc
    · cases hc
  obtain ⟨d, e, s₁, s₂, hfirst, hsecond, hwhole, houtput⟩ :=
    (besideRoot_clear.resolves_stepwise [.name "a"] [.name "b"]).1 rfl rfl
  obtain ⟨-, -, hpresent⟩ := houtput (.cell 2) rfl
  refine ⟨d, e, s₁, s₂, hfirst _ ⟨0, rfl⟩, hsecond _ ⟨1, rfl⟩, hwhole _ ⟨0, rfl⟩, ?_⟩
  rw [hpresent hunshared, hpresent hunshared]
  decide

/-- A key with too many digits to be written: after the node on the way was resolved, the output has
that node, while resolving all keys at once fails and leaves the output without it. -/
theorem besideRoot_longKey :
    (∃ d s₁,
      (Value.tuple [.tag 0 besideRootOverlays, .text "a"]).resolveTag besideRoot = .ok d s₁ ∧
        (s₁.find? (.cell 2) [.name "a"]).isSome) ∧
    (Value.list [.tag 0 besideRootOverlays, .text "a",
      .int (Int.pow 10 Number.digitLimit)]).resolveTag besideRoot = .error .wrongValue besideRoot ∧
    ¬ (besideRoot.find? (.cell 2) [.name "a"]).isSome := by
  have hlong : Address.hasText [.name "a", .index (Int.pow 10 Number.digitLimit)] = false := by
    simp only [Address.hasText, List.all_cons, List.all_nil, Key.hasText,
      Number.hasText_pow_digitLimit, Bool.false_and, Bool.and_false]
  have hquasi : Value.IsQuasiAddress
      (.list [.tag 0 besideRootOverlays, .text "a", .int (Int.pow 10 Number.digitLimit)])
      besideRootOverlays [.name "a", .index (Int.pow 10 Number.digitLimit)] := ⟨0, rfl⟩
  exact ⟨⟨_, _, rfl, rfl⟩, hquasi.resolveTag_fails hlong besideRoot, by decide⟩

end Overlays.Clear
end ProbTrace
