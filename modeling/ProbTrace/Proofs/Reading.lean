import ProbTrace.Observation
import ProbTrace.Proofs.Reachability
import ProbTrace.Proofs.Term

/-!
# What is read

The reader makes forms of atoms and texts by brackets and apostrophes, and of nothing else.  A
property that atoms and texts have, and that apostrophes and the brackets of a text keep, is
therefore a property of all forms that are read from it: the items of the scanner have it, and so
has everything that is open or done while tokens are taken in.

In particular forms are data that have texts, so that a form which is no expression is refused with
a message; the bodies of programs are syntax trees, and observed values are data.
-/

namespace ProbTrace
namespace Reader

/-- A property that items have and that apostrophes and some of the brackets keep. -/
structure Inductive (B : Bracket → Prop) (P : Value → Prop) : Prop where
  atom : ∀ cs, P (atomValue cs)
  text : ∀ s, P (.text s)
  quoted : ∀ {v}, P v → P (.quoted v)
  bracket : ∀ {b}, B b → ∀ {vs}, (∀ v ∈ vs, P v) → P (Progress.bracketForm b vs)

section Properties

variable (B : Bracket → Prop) (P : Value → Prop)

/-- The tokens whose item has a property, or that open one of some brackets. -/
def Token.Has : Token → Prop
  | .item v => P v
  | .opening b => B b
  | .closing _ _ | .apostrophe _ | .unterminatedText | .danglingEscape => True

/-- What is open is no other bracket, and the forms read in it so far have a property. -/
def Open.Has : Open → Prop
  | .bracket b done => B b ∧ ∀ v ∈ done, P v
  | .apostrophe _ done => ∀ v ∈ done, P v

/-- All forms read so far have a property, and only some of the brackets are open. -/
structure Progress.Has (p : Progress) : Prop where
  opened : ∀ o ∈ p.opened, o.Has B P
  done : ∀ v ∈ p.done, P v

end Properties

variable {B : Bracket → Prop} {P : Value → Prop}

/-- All items that the scanner gives have the property, and the brackets it opens are in the
text. -/
theorem Inductive.scan (hP : Inductive B P) (st : State) (i : Nat) {cs : List Char}
    (hcs : ∀ c ∈ cs, ∀ b, opens? c = some b → B b) : ∀ tok ∈ scan st i cs, tok.Has B P := by
  have hcons {tok : Token} {toks : List Token} (htok : tok.Has B P)
      (htoks : ∀ t ∈ toks, t.Has B P) : ∀ t ∈ tok :: toks, t.Has B P :=
    List.forall_mem_cons.mpr ⟨htok, htoks⟩
  have hatom (done : List Char) : (atomToken done).Has B P := hP.atom _
  induction cs generalizing st i with
  | nil =>
    cases st with
    | between | comment => exact nofun
    | inText _ | escapedText _ | escapedAtom _ => exact hcons trivial nofun
    | inAtom done => exact hcons (hatom done) nofun
  | cons c cs ih =>
    obtain ⟨hc, hcs⟩ := List.forall_mem_cons.mp hcs
    replace ih (st : State) (i : Nat) := ih st i hcs
    cases st with
    | comment | escapedText _ | escapedAtom _ => exact ih _ _
    | inText done =>
      rw [Reader.scan]
      split
      · exact hcons (hP.text _) (ih _ _)
      · split <;> exact ih _ _
    | inAtom done =>
      -- The splits are the tests of the scanner, in their order.
      rw [Reader.scan]
      split
      · exact ih _ _
      · split
        · refine hcons (hatom done) ?_
          split
          · exact ih _ _
          · split
            · exact ih _ _
            · split
              · rename_i b hb
                exact hcons (hc b hb) (ih _ _)
              · exact hcons trivial (ih _ _)
              · exact ih _ _
        · exact ih _ _
    | between =>
      rw [Reader.scan]
      split
      · exact ih _ _
      · split
        · exact ih _ _
        · split
          · exact hcons trivial (ih _ _)
          · split
            · exact ih _ _
            · split
              · exact ih _ _
              · split
                · rename_i b hb
                  exact hcons (hc b hb) (ih _ _)
                · exact hcons trivial (ih _ _)
                · exact ih _ _

namespace Progress

variable {p p' : Progress} {vs us : List Value}

theorem Has.add (h : p.Has B P) (hvs : ∀ v ∈ vs, P v) : (p.add vs).Has B P := by
  have happend {done : List Value} (hdone : ∀ v ∈ done, P v) : ∀ v ∈ vs ++ done, P v := by
    intro v hv
    exact (List.mem_append.mp hv).elim (hvs v) (hdone v)
  obtain ⟨opened, done⟩ := p
  rcases opened with _ | ⟨⟨b, us⟩ | ⟨i, us⟩, rest⟩
  · exact ⟨h.opened, happend h.done⟩
  · obtain ⟨⟨hb, hus⟩, hrest⟩ := List.forall_mem_cons.mp h.opened
    exact ⟨List.forall_mem_cons.mpr ⟨⟨hb, happend hus⟩, hrest⟩, h.done⟩
  · obtain ⟨hus, hrest⟩ := List.forall_mem_cons.mp h.opened
    exact ⟨List.forall_mem_cons.mpr ⟨happend hus, hrest⟩, h.done⟩

theorem quoteFirst_all (hP : Inductive B P) {i : Nat} (hvs : ∀ v ∈ vs, P v)
    (h : quoteFirst i vs = .ok us) : ∀ v ∈ us, P v := by
  unfold quoteFirst at h
  split at h
  · cases h
  · rename_i first rest heq
    cases h
    have hall : ∀ v ∈ first :: rest, P v := by
      intro v hv
      rw [← heq, List.mem_reverse] at hv
      exact hvs v hv
    intro v hv
    rcases List.mem_append.mp hv with hv | hv
    · exact hall v (List.mem_cons_of_mem _ (List.mem_reverse.mp hv))
    · cases List.mem_singleton.mp hv
      exact hP.quoted (hall first List.mem_cons_self)

theorem closeApostrophes_has (hP : Inductive B P) {outside : List Value} {opened : List Open}
    (h : Progress.Has B P ⟨opened, outside⟩) (hvs : ∀ v ∈ vs, P v)
    (hok : closeApostrophes outside opened vs = .ok p') : p'.Has B P := by
  induction opened generalizing vs with
  | nil =>
    cases hok
    exact h.add hvs
  | cons o rest ih =>
    have hrest : Progress.Has B P ⟨rest, outside⟩ :=
      ⟨(List.forall_mem_cons.mp h.opened).2, h.done⟩
    cases o with
    | bracket b done =>
      cases hok
      exact h.add hvs
    | apostrophe i done =>
      rw [closeApostrophes] at hok
      obtain ⟨quoted, hquoted, hok⟩ := exists_of_bind_ok hok
      refine ih hrest (quoteFirst_all hP (fun v hv => ?_) hquoted) hok
      exact (List.mem_append.mp hv).elim (hvs v) ((List.forall_mem_cons.mp h.opened).1 v)

theorem settle_has (hP : Inductive B P) (h : p.Has B P) (hok : p.settle = .ok p') : p'.Has B P :=
  closeApostrophes_has hP h (List.forall_mem_nil _) hok

theorem step_has (hP : Inductive B P) {input : String} {tok : Token} (h : p.Has B P)
    (htok : tok.Has B P) (hok : p.step input tok = .ok p') : p'.Has B P := by
  cases tok with
  | item v =>
    cases hok
    exact h.add (List.forall_mem_singleton.mpr htok)
  | opening b =>
    cases hok
    exact ⟨List.forall_mem_cons.mpr ⟨⟨htok, nofun⟩, h.opened⟩, h.done⟩
  | apostrophe i =>
    cases hok
    exact ⟨List.forall_mem_cons.mpr ⟨nofun, h.opened⟩, h.done⟩
  | unterminatedText | danglingEscape => cases hok
  | closing b rest =>
    rw [step] at hok
    obtain ⟨q, hq, hok⟩ := exists_of_bind_ok hok
    have hhas := settle_has hP h hq
    split at hok
    · rename_i o done opened heq
      have hopened := hhas.opened
      rw [heq] at hopened
      have hall := List.forall_mem_cons.mp hopened
      split at hok
      · cases hok
        refine Has.add ⟨hall.2, hhas.done⟩ (List.forall_mem_singleton.mpr (hP.bracket hall.1.1 ?_))
        exact fun v hv => hall.1.2 v (List.mem_reverse.mp hv)
      · cases hok
    · cases hok

theorem foldlM_has (hP : Inductive B P) {input : String} {toks : List Token} (h : p.Has B P)
    (htoks : ∀ tok ∈ toks, tok.Has B P) (hok : toks.foldlM (step input) p = .ok p') : p'.Has B P := by
  induction toks generalizing p with
  | nil =>
    cases hok
    exact h
  | cons tok toks ih =>
    rw [List.foldlM_cons] at hok
    obtain ⟨q, hq, hok⟩ := exists_of_bind_ok hok
    have hall := List.forall_mem_cons.mp htoks
    exact ih (step_has hP h hall.1 hq) hall.2 hok

theorem finish_all (hP : Inductive B P) {input : String} (h : p.Has B P)
    (hok : p.finish input = .ok vs) : ∀ v ∈ vs, P v := by
  rw [finish] at hok
  obtain ⟨q, hq, hok⟩ := exists_of_bind_ok hok
  split at hok
  · cases hok
  · cases hok
    exact fun v hv => (settle_has hP h hq).done v (List.mem_reverse.mp hv)

end Progress

/-- All forms that are read have the property, if it is kept by the brackets in the text. -/
theorem Inductive.readAll (hP : Inductive B P) {input : String} {forms : List Value}
    (hinput : ∀ c ∈ input.toList, ∀ b, opens? c = some b → B b)
    (hok : readAll input = .ok forms) : ∀ v ∈ forms, P v := by
  have htrimmed : ∀ c ∈ Text.trim input.toList, ∀ b, opens? c = some b → B b :=
    fun c hc => hinput c (Text.mem_of_mem_trim hc)
  rw [Reader.readAll] at hok
  split at hok
  · cases hok
  · obtain ⟨p, hp, hok⟩ := exists_of_bind_ok hok
    obtain ⟨vs, hvs, hok⟩ := exists_of_bind_ok hok
    split at hok
    · cases hok
    · cases hok
      exact Progress.finish_all hP
        (Progress.foldlM_has hP ⟨List.forall_mem_nil _, List.forall_mem_nil _⟩ (hP.scan _ _ htrimmed) hp)
        hvs

theorem Inductive.readOne (hP : Inductive B P) {input : String} {v : Value}
    (hinput : ∀ c ∈ input.toList, ∀ b, opens? c = some b → B b)
    (hok : readOne input = .ok v) : P v := by
  rw [Reader.readOne] at hok
  obtain ⟨forms, hforms, hok⟩ := exists_of_bind_ok hok
  split at hok
  · cases hok
    exact hP.readAll hinput hforms v List.mem_cons_self
  · cases hok
  · cases hok

theorem allData_of_forall {vs : List Value} (h : ∀ v ∈ vs, v.isData = true) :
    allData vs = true := by
  induction vs with
  | nil => rfl
  | cons v vs ih =>
    have hall := List.forall_mem_cons.mp h
    rw [allData, Bool.and_eq_true]
    exact ⟨hall.1, ih hall.2⟩

theorem isData_atomValue (cs : List Char) : (atomValue cs).isData = true := by
  unfold atomValue
  dsimp only
  split
  · rfl
  · split
    · rfl
    · split
      · rfl
      · split <;> rfl

/-- Forms are data. -/
theorem inductive_isData : Inductive (fun _ => True) fun v => v.isData = true where
  atom := isData_atomValue
  text _ := rfl
  quoted h := h
  bracket {b} _ _ h := by
    cases b <;> exact allData_of_forall h

end Reader

/-- The body of a program that is accepted is a syntax tree. -/
theorem Expression.exists_of_parseProgram {text : String} {body : Trace}
    (h : Expression.parseProgram text = .ok body) : ∃ e : Term, e.toTrace = body := by
  rw [Expression.parseProgram] at h
  obtain ⟨forms, hforms, h⟩ := exists_of_bind_ok h
  obtain ⟨ts, hts, h⟩ := exists_of_bind_ok h
  cases h
  have hdata := Reader.allData_of_forall (Reader.inductive_isData.readAll (fun _ _ _ _ => trivial) hforms)
  obtain ⟨es, rfl⟩ := Term.exists_of_buildAll hdata hts
  exact ⟨.bodyOf es, Term.toTrace_bodyOf es⟩

/-- A value that is observed is data. -/
theorem Observation.isData_of_read {line : String} {a : Address} {v : Value}
    (h : Observation.read line = .ok (a, v)) : v.isData = true := by
  unfold Observation.read at h
  split at h
  · cases h
  · dsimp only at h
    split at h
    · rename_i form hform
      cases h
      exact isData_datum form (Reader.inductive_isData.readOne (fun _ _ _ _ => trivial) hform)
    · split at h <;> cases h

end ProbTrace
