import ProbTrace.Reader.Form

/-!
# Which faults of reading are reported

A text that cannot be read is reported as an error of syntax if a bracket is not closed, if it is
closed by the other bracket or if nothing was open, and if there is no form at all.

Three faults are not reported that way: a text literal without an end, a backslash at the very end
of the program, and an apostrophe with nothing to quote, that is in front of a closing bracket or
of the end.  Reading raises one of them exactly when all brackets before it are in order, and then
it raises the first.
-/

namespace ProbTrace
namespace Reader

/-- Whether a token closes a bracket. -/
def Token.isClosing : Token → Bool
  | .closing _ _ => true
  | _ => false

/-- The first fault in a sequence of tokens that is not reported as an error of syntax, if the
brackets before it are in order.  The brackets that are open are given, the innermost first. -/
def unreported? : List Bracket → List Token → Option Fault
  | _, [] => none
  | _, .unterminatedText :: _ => some .unterminatedText
  | _, .danglingEscape :: _ => some .danglingEscape
  | opened, .apostrophe i :: toks =>
    if toks.head?.all Token.isClosing then some (.danglingQuote i) else unreported? opened toks
  | opened, .item _ :: toks => unreported? opened toks
  | opened, .opening b :: toks => unreported? (b :: opened) toks
  | o :: opened, .closing b _ :: toks => if o = b then unreported? opened toks else none
  | [], .closing _ _ :: _ => none

theorem kind_of_unreported? {opened : List Bracket} {toks : List Token} {f : Fault}
    (h : unreported? opened toks = some f) : f.kind ≠ .reading := by
  induction toks generalizing opened with
  | nil =>
    rw [unreported?] at h
    cases h
  | cons tok toks ih =>
    cases tok with
    | unterminatedText =>
      rw [unreported?] at h
      cases h
      decide
    | danglingEscape =>
      rw [unreported?] at h
      cases h
      decide
    | apostrophe i =>
      rw [unreported?] at h
      split at h
      · cases h
        exact nofun
      · exact ih h
    | item v =>
      rw [unreported?] at h
      exact ih h
    | opening b =>
      rw [unreported?] at h
      exact ih h
    | closing b rest =>
      cases opened with
      | nil =>
        rw [unreported?] at h
        cases h
      | cons o opened =>
        rw [unreported?] at h
        split at h
        · exact ih h
        · cases h

namespace Open

/-- The bracket that is open. -/
def bracket? : Open → Option Bracket
  | .bracket b _ => some b
  | .apostrophe _ _ => none

/-- The apostrophe that has nothing to quote yet. -/
def waiting? : Open → Option Token
  | .apostrophe i [] => some (.apostrophe i)
  | _ => none

end Open

namespace Progress

variable {p : Progress}

/-- The brackets that are open, the innermost first. -/
def brackets (p : Progress) : List Bracket :=
  p.opened.filterMap Open.bracket?

/-- The apostrophe that was read last, if nothing was read after it. -/
def waiting (p : Progress) : List Token :=
  (p.opened.head?.bind Open.waiting?).toList

theorem brackets_add (p : Progress) (vs : List Value) : (p.add vs).brackets = p.brackets := by
  obtain ⟨opened, done⟩ := p
  rcases opened with _ | ⟨⟨b, us⟩ | ⟨i, us⟩, opened⟩ <;> rfl

theorem waiting_add (p : Progress) (v : Value) : (p.add [v]).waiting = [] := by
  obtain ⟨opened, done⟩ := p
  rcases opened with _ | ⟨⟨b, us⟩ | ⟨i, us⟩, opened⟩ <;> rfl

/-- An apostrophe that has something to quote is closed. -/
theorem quoteFirst_ok (i : Nat) {vs : List Value} (h : vs ≠ []) :
    ∃ us, us ≠ [] ∧ quoteFirst i vs = .ok us := by
  unfold quoteFirst
  cases hvs : vs.reverse with
  | nil => exact absurd (List.reverse_eq_nil_iff.mp hvs) h
  | cons u us => exact ⟨us.reverse ++ [.quoted u], by simp, rfl⟩

/-- What remains open when apostrophes are closed is the innermost bracket with all around it. -/
structure Settled (opened : List Open) (p : Progress) : Prop where
  brackets : p.brackets = opened.filterMap Open.bracket?
  innermost : p.opened = [] ∨ ∃ b done rest, p.opened = .bracket b done :: rest

theorem closeApostrophes_ok (outside : List Value) {opened : List Open} {vs : List Value}
    (h : vs ≠ [] ∨ opened.head?.bind Open.waiting? = none) :
    ∃ p, closeApostrophes outside opened vs = .ok p ∧ Settled opened p := by
  induction opened generalizing vs with
  | nil => exact ⟨_, rfl, rfl, .inl rfl⟩
  | cons o opened ih =>
    cases o with
    | bracket b done => exact ⟨_, rfl, rfl, .inr ⟨_, _, _, rfl⟩⟩
    | apostrophe i done =>
      have hsome : vs ++ done ≠ [] := by
        rcases h with h | h
        · exact List.append_ne_nil_of_left_ne_nil h done
        · refine List.append_ne_nil_of_right_ne_nil vs ?_
          rintro rfl
          cases h
      obtain ⟨us, hus, hquote⟩ := quoteFirst_ok i hsome
      obtain ⟨p, hp, hbrackets, hinnermost⟩ := ih (.inl hus)
      refine ⟨p, ?_, hbrackets, hinnermost⟩
      simp only [closeApostrophes, hquote]
      exact hp

/-- Apostrophes can be closed, if there is something after the last one. -/
theorem settle_ok (h : p.waiting = []) : ∃ p', p.settle = .ok p' ∧ Settled p.opened p' :=
  closeApostrophes_ok p.done (.inr (Option.toList_eq_nil_iff.mp h))

theorem settle_error {i : Nat} (h : p.waiting = [.apostrophe i]) :
    p.settle = .error (.danglingQuote i) := by
  obtain ⟨opened, done⟩ := p
  rcases opened with _ | ⟨⟨b, us⟩ | ⟨j, _ | ⟨u, us⟩⟩, opened⟩
  · cases h
  · cases h
  · cases h
    rfl
  · cases h

/-- A closing bracket that is the right one is taken in, and any other is reported, unless it
comes right after an apostrophe. -/
theorem step_closing (input : String) (b : Bracket) (rest : List Char) (h : p.waiting = []) :
    (∃ f, f.kind = .reading ∧ p.step input (.closing b rest) = .error f ∧
        p.brackets.head? ≠ some b) ∨
      ∃ p', p.step input (.closing b rest) = .ok p' ∧ p.brackets = b :: p'.brackets ∧
        p'.waiting = [] := by
  obtain ⟨⟨opened, done⟩, hsettle, hbrackets, hinnermost⟩ := settle_ok h
  change _ = p.brackets at hbrackets
  unfold step
  rw [hsettle, ← hbrackets]
  rcases hinnermost with hopened | ⟨o, us, outer, hopened⟩
  · cases hopened
    exact .inl ⟨_, rfl, rfl, nofun⟩
  · cases hopened
    by_cases hob : o = b
    · subst hob
      refine .inr ⟨_, if_pos rfl, ?_, waiting_add _ _⟩
      rw [brackets_add]
      rfl
    · refine .inl ⟨_, ?_, if_neg hob, ?_⟩
      · rfl
      · intro heq
        exact hob (Option.some.inj heq)

/-- Nothing was read after the last apostrophe, or there is something to quote. -/
theorem waiting_cases (p : Progress) : p.waiting = [] ∨ ∃ i, p.waiting = [.apostrophe i] := by
  obtain ⟨opened, done⟩ := p
  rcases opened with _ | ⟨⟨b, us⟩ | ⟨j, _ | ⟨u, us⟩⟩, opened⟩
  · exact .inl rfl
  · exact .inl rfl
  · exact .inr ⟨j, rfl⟩
  · exact .inl rfl

end Progress

/-! ## Reading -/

/-- A result that is as foretold: the fault that is not reported, or else none but reported
ones. -/
def Foretold {α : Type} : Option Fault → Except Fault α → Prop
  | some f, r => r = .error f
  | none, r => ∀ f, r = .error f → f.kind = .reading

theorem Foretold.reported {α : Type} {f : Fault} (h : f.kind = .reading) :
    Foretold none (.error f : Except Fault α) := by
  intro g hg
  cases hg
  exact h

/-- What is read after an apostrophe, a closing bracket apart, is quoted by it. -/
theorem unreported?_waiting (p : Progress) (opened : List Bracket) {tok : Token}
    (htok : tok.isClosing = false) (toks : List Token) :
    unreported? opened (p.waiting ++ tok :: toks) = unreported? opened (tok :: toks) := by
  rcases p.waiting_cases with hnone | ⟨i, hsome⟩
  · rw [hnone, List.nil_append]
  · rw [hsome, List.singleton_append, unreported?, if_neg]
    simp [htok]

theorem finish_foretold (input : String) (p : Progress) :
    Foretold (unreported? p.brackets p.waiting) (p.finish input) := by
  rcases p.waiting_cases with hnone | ⟨i, hsome⟩
  · obtain ⟨⟨opened, done⟩, hsettle, -, hinnermost⟩ := Progress.settle_ok hnone
    rw [hnone, unreported?]
    unfold Progress.finish
    rw [hsettle]
    rcases hinnermost with hopened | ⟨b, us, rest, hopened⟩
    · cases hopened
      intro f hf
      cases hf
    · cases hopened
      exact .reported rfl
  · rw [hsome]
    unfold Progress.finish
    rw [Progress.settle_error hsome]
    rfl

/-- Reading tokens from any state on ends as foretold. -/
theorem read_foretold (input : String) (toks : List Token) (p : Progress) :
    Foretold (unreported? p.brackets (p.waiting ++ toks))
      (toks.foldlM (Progress.step input) p >>= Progress.finish input) := by
  induction toks generalizing p with
  | nil =>
    rw [List.append_nil]
    exact finish_foretold input p
  | cons tok toks ih =>
    -- the state after a token that is taken in, with what is foretold from there on
    have hnext {p' : Progress} (hstep : p.step input tok = .ok p') :
        Foretold (unreported? p'.brackets (p'.waiting ++ toks))
          ((tok :: toks).foldlM (Progress.step input) p >>= Progress.finish input) := by
      rw [List.foldlM_cons, hstep]
      exact ih p'
    have hfails {f : Fault} (hstep : p.step input tok = .error f) :
        (tok :: toks).foldlM (Progress.step input) p >>= Progress.finish input = .error f := by
      rw [List.foldlM_cons, hstep]
      rfl
    cases tok with
    | unterminatedText =>
      rw [unreported?_waiting p _ rfl, unreported?]
      exact hfails rfl
    | danglingEscape =>
      rw [unreported?_waiting p _ rfl, unreported?]
      exact hfails rfl
    | apostrophe i =>
      rw [unreported?_waiting p _ rfl]
      exact hnext rfl
    | item v =>
      have hread := hnext rfl
      rw [p.brackets_add, p.waiting_add] at hread
      rw [unreported?_waiting p _ rfl, unreported?]
      exact hread
    | opening b =>
      rw [unreported?_waiting p _ rfl, unreported?]
      exact hnext rfl
    | closing b rest =>
      rcases p.waiting_cases with hnone | ⟨i, hsome⟩
      · rw [hnone, List.nil_append]
        rcases Progress.step_closing input b rest hnone with
          ⟨f, hkind, hstep, hopened⟩ | ⟨p', hstep, hopened, hwaiting⟩
        · have hforetold : unreported? p.brackets (.closing b rest :: toks) = none := by
            cases hbrackets : p.brackets with
            | nil => rw [unreported?]
            | cons o opened =>
              rw [unreported?, if_neg]
              rintro rfl
              exact hopened (by rw [hbrackets]; rfl)
          rw [hforetold, hfails hstep]
          exact .reported hkind
        · have hread := hnext hstep
          rw [hwaiting] at hread
          rw [hopened, unreported?, if_pos rfl]
          exact hread
      -- An apostrophe is still waiting, and the bracket leaves it nothing to quote.
      · have hstep : p.step input (.closing b rest) = .error (.danglingQuote i) := by
          unfold Progress.step
          rw [Progress.settle_error hsome]
          rfl
        have hforetold : unreported? p.brackets (.apostrophe i :: .closing b rest :: toks) =
            some (.danglingQuote i) := by
          rw [unreported?]
          exact if_pos rfl
        rw [hsome, List.singleton_append, hforetold]
        exact hfails hstep

/-- The forms of a text are those of its tokens, of which there has to be one. -/
theorem readAll_eq {text : String} (h : Text.trim text.toList ≠ []) :
    readAll text = ((scan .between 0 (Text.trim text.toList)).foldlM (Progress.step text) {} >>=
      Progress.finish text) >>= fun forms =>
        if forms.isEmpty then .error (.noForm text) else .ok forms := by
  have hempty : (Text.trim text.toList).isEmpty = false := by
    rwa [List.isEmpty_eq_false_iff]
  unfold readAll
  simp only [hempty]
  cases (scan .between 0 (Text.trim text.toList)).foldlM (Progress.step text) {} with
  | error f => rfl
  | ok p =>
    show (p.finish text >>= fun forms => _) = p.finish text >>= fun forms => _
    cases p.finish text with
    | error f => rfl
    | ok forms =>
      cases forms with
      | nil => rfl
      | cons v vs => rfl

/-- Reading any text either raises the first of the faults in it that are not reported, or it
gives at least one form or reports an error of syntax. -/
theorem readAll_foretold (text : String) :
    let foretold := unreported? [] (scan .between 0 (Text.trim text.toList))
    (∀ f, foretold = some f → readAll text = .error f ∧ f.kind ≠ .reading) ∧
      (foretold = none → (∃ forms, readAll text = .ok forms ∧ forms ≠ []) ∨
        ∃ f, readAll text = .error f ∧ f.kind = .reading) := by
  intro foretold
  have hkind {f : Fault} : foretold = some f → f.kind ≠ .reading := kind_of_unreported?
  by_cases hempty : Text.trim text.toList = []
  · have hforetold : foretold = none := by
      simp only [foretold, hempty]
      rfl
    have hreported : readAll text = .error (.emptyInput text) := by
      unfold readAll
      rw [hempty]
      rfl
    rw [hforetold]
    exact ⟨nofun, fun _ => .inr ⟨_, hreported, rfl⟩⟩
  · have hread : Foretold foretold _ :=
      read_foretold text (scan .between 0 (Text.trim text.toList)) {}
    rw [readAll_eq hempty]
    revert hread
    generalize (scan .between 0 (Text.trim text.toList)).foldlM (Progress.step text) {} >>=
      Progress.finish text = r
    intro hread
    clear_value foretold
    cases foretold with
    | some f =>
      obtain rfl : r = .error f := hread
      refine ⟨fun g hg => ?_, nofun⟩
      cases hg
      exact ⟨rfl, hkind rfl⟩
    | none =>
      refine ⟨nofun, fun _ => ?_⟩
      cases r with
      | error f => exact .inr ⟨f, rfl, hread f rfl⟩
      | ok forms =>
        cases forms with
        | nil => exact .inr ⟨_, rfl, rfl⟩
        | cons v vs => exact .inl ⟨_, rfl, nofun⟩

/-- An apostrophe alone is not read, and that is not reported as an error of syntax. -/
theorem loneApostrophe_unreported :
    ¬ ((∃ forms, readAll "'" = .ok forms ∧ forms ≠ []) ∨
      ∃ f, readAll "'" = .error f ∧ f.kind = .reading) := by
  have hread : readAll "'" = .error (.danglingQuote 0) := rfl
  rw [hread]
  rintro (⟨forms, hforms, -⟩ | ⟨f, hf, hkind⟩)
  · cases hforms
  · cases hf
    cases hkind

end Reader
end ProbTrace
