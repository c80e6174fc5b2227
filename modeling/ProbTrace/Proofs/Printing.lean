import Mathlib.Data.List.TakeDrop
import Mathlib.Data.List.TakeWhile
import ProbTrace.Observation

/-!
# Printed addresses as observations

An address is printed with slashes between its keys, and an observation is read by cutting the
text at the first equals sign and the address in front of it at every slash.  The two rules do not
mirror each other: reading skips empty parts, takes whatever reads as an integer for one, and does
not know the label of the root.

The main statement says which printed addresses read back as themselves.  One half is that reading
undoes printing where no key can be cut or mistaken; the other is that reading gives no other keys.
-/

namespace ProbTrace

namespace Text

theorem trimBoth_of_forall {p : Char → Bool} {cs : List Char} (h : ∀ c ∈ cs, p c = false) :
    trimBoth p cs = cs := by
  have hstart : cs.dropWhile p = cs := by
    cases cs with
    | nil => rfl
    | cons c cs => simp [h c List.mem_cons_self]
  have hend : cs.reverse.dropWhile p = cs.reverse := by
    cases hrev : cs.reverse with
    | nil => rfl
    | cons c rest =>
      have hc : c ∈ cs := List.mem_reverse.mp (hrev ▸ List.mem_cons_self)
      simp [h c hc]
  rw [trimBoth, hstart, hend, List.reverse_reverse]

theorem digitValue?_of_isDigit {c : Char} (h : c.isDigit = true) :
    digitValue? c = some (c.toNat - '0'.toNat) := by
  have hrange : 48 ≤ c.toNat ∧ c.toNat ≤ 57 := Char.isDigit_iff_toNat.mp h
  simp [digitValue?, digitZeros, hrange.1, Nat.lt_succ_of_le hrange.2]

theorem isMargin_of_isDigit {c : Char} (h : c.isDigit = true) : isMargin c = false := by
  have hrange : 48 ≤ c.toNat ∧ c.toNat ≤ 57 := Char.isDigit_iff_toNat.mp h
  simp only [isMargin, isBlank, Bool.and_eq_false_iff, Bool.or_eq_false_iff,
    decide_eq_false_iff_not, beq_eq_false_iff_ne]
  omega

end Text

namespace Number

theorem digitRun?_of_isDigit {cs : List Char} (hne : cs ≠ []) (h : ∀ c ∈ cs, c.isDigit = true) :
    digitRun? cs = some (cs.map fun c => c.toNat - '0'.toNat) := by
  induction cs with
  | nil => exact absurd rfl hne
  | cons c cs ih =>
    have hc := Text.digitValue?_of_isDigit (h c List.mem_cons_self)
    cases cs with
    | nil => simp [digitRun?, hc]
    | cons d cs =>
      have hd : d ≠ '_' := by
        intro hd
        exact absurd (h d (by simp)) (by simp [hd])
      have hrest := ih (by simp) (fun x hx => h x (List.mem_cons_of_mem c hx))
      simp [digitRun?, hd, hc, hrest]

theorem ofDigits_toDigits (n : Nat) :
    Text.ofDigits ((Nat.toDigits 10 n).map fun c => c.toNat - '0'.toNat) = n := by
  have h := Nat.ofDigitChars_toDigits (b := 10) (n := n) (by decide) (by decide)
  rw [Text.ofDigits, List.foldl_map]
  exact h

/-- The characters that an integer is printed with. -/
theorem mem_intText {c : Char} {i : Int} (h : c ∈ (intText i).toList) :
    c = '-' ∨ c.isDigit = true := by
  rw [intText, String.toList_append, String.toList_ofList, List.mem_append] at h
  rcases h with h | h
  · left
    by_cases hi : i < 0
    · simpa [hi] using h
    · simp [hi] at h
  · exact .inr (Nat.isDigit_of_mem_toDigits (by decide) (by decide) h)

/-- An integer that is not too long reads back from its text. -/
theorem readInt?_intText {i : Int} (h : (Nat.toDigits 10 i.natAbs).length ≤ digitLimit) :
    readInt? (intText i).toList = some i := by
  have hdigits : ∀ c ∈ Nat.toDigits 10 i.natAbs, c.isDigit = true := fun c hc =>
    Nat.isDigit_of_mem_toDigits (by decide) (by decide) hc
  have htrim : Text.trimMargin (intText i).toList = (intText i).toList := by
    apply Text.trimBoth_of_forall
    intro c hc
    rcases mem_intText hc with rfl | hc
    · decide
    · exact Text.isMargin_of_isDigit hc
  have hsign : splitSign (intText i).toList = (decide (i < 0), Nat.toDigits 10 i.natAbs) := by
    rw [intText, String.toList_append, String.toList_ofList]
    by_cases hi : i < 0
    · simp [hi, splitSign]
    -- The first digit is not taken for a sign.
    · cases hrun : Nat.toDigits 10 i.natAbs with
      | nil => exact absurd hrun Nat.toDigits_ne_nil
      | cons c cs =>
        have hc := hdigits c (hrun ▸ List.mem_cons_self)
        have hminus : c ≠ '-' := by
          intro hc'
          exact absurd hc (by simp [hc'])
        have hplus : c ≠ '+' := by
          intro hc'
          exact absurd hc (by simp [hc'])
        simp [hi, splitSign, hminus, hplus]
  have hrun := digitRun?_of_isDigit Nat.toDigits_ne_nil hdigits
  rw [readInt?, htrim, hsign]
  simp only [hrun, List.length_map, ofDigits_toDigits, Nat.not_lt.mpr h, if_false]
  by_cases hi : i < 0
  · simp only [hi, decide_true, if_true, Option.some.injEq]
    omega
  · simp only [hi, decide_false, Bool.false_eq_true, if_false, Option.some.injEq]
    omega

/-- A text is cut at its first mark. -/
theorem splitAt?_eq_some_iff {mark : Char → Bool} {cs before after : List Char} :
    splitAt? mark cs = (before, some after) ↔
      ∃ c, cs = before ++ c :: after ∧ mark c = true ∧ ∀ b ∈ before, mark b = false := by
  rw [splitAt?, List.span_eq_takeWhile_dropWhile]
  constructor
  · intro h
    cases hrest : cs.dropWhile (fun c => !mark c) with
    | nil => simp [hrest] at h
    | cons c rest =>
      simp only [hrest, Prod.mk.injEq, Option.some.injEq] at h
      obtain ⟨rfl, rfl⟩ := h
      refine ⟨c, ?_, ?_, ?_⟩
      · rw [← hrest, List.takeWhile_append_dropWhile]
      · simpa [hrest] using List.head_dropWhile_not (fun c => !mark c) (l := cs) (by simp [hrest])
      · intro b hb
        simpa using List.mem_takeWhile_imp hb
  · rintro ⟨c, rfl, hc, hbefore⟩
    have hkept : ∀ b ∈ before, (!mark b) = true := by simpa using hbefore
    rw [List.takeWhile_append_of_pos hkept, List.dropWhile_append_of_pos hkept]
    simp [hc]

end Number

/-- A key that is a text, or an integer that is not too long to be read. -/
def Key.IsPlain : Key → Prop
  | .name _ => True
  | .index i => (Nat.toDigits 10 i.natAbs).length ≤ Number.digitLimit
  | .symbol _ => False

instance : DecidablePred Key.IsPlain
  | .name _ => inferInstanceAs (Decidable True)
  | .index i => inferInstanceAs (Decidable ((Nat.toDigits 10 i.natAbs).length ≤ Number.digitLimit))
  | .symbol _ => inferInstanceAs (Decidable False)

namespace Observation

open Number

/-- The address is cut at every slash. -/
theorem splitSlashes_eq_splitOn (cs : List Char) : splitSlashes cs = cs.splitOn '/' := by
  induction cs with
  | nil => rfl
  | cons c cs ih =>
    simp only [List.splitOn] at ih ⊢
    rw [splitSlashes, ih, List.splitOnP_cons_eq_if_modifyHead]
    cases hparts : cs.splitOnP (· == '/') with
    | nil => exact absurd hparts (List.splitOnP_ne_nil _ _)
    | cons part parts => rfl

/-- The parts between the slashes of a text are made of its other characters. -/
theorem mem_of_mem_splitSlashes {cs part : List Char} (h : part ∈ splitSlashes cs) {c : Char}
    (hc : c ∈ part) : c ∈ cs ∧ c ≠ '/' := by
  induction cs generalizing part with
  | nil =>
    simp only [splitSlashes, List.mem_singleton] at h
    simp [h] at hc
  | cons d cs ih =>
    have hold : ∀ p ∈ splitSlashes cs, c ∈ p → c ∈ d :: cs ∧ c ≠ '/' := fun p hp hcp =>
      (ih hp hcp).imp_left (List.mem_cons_of_mem d)
    rw [splitSlashes] at h
    cases hparts : splitSlashes cs with
    | nil =>
      rw [splitSlashes_eq_splitOn] at hparts
      exact absurd hparts (List.splitOnP_ne_nil _ _)
    | cons first rest =>
      simp only [hparts] at h hold
      by_cases hd : d = '/'
      · simp only [hd, beq_self_eq_true, if_true, List.mem_cons] at h
        rcases h with rfl | h
        · cases hc
        · exact hold part (List.mem_cons.mpr h) hc
      · simp only [beq_iff_eq, hd, if_false, List.mem_cons] at h
        rcases h with rfl | h
        · rcases List.mem_cons.mp hc with rfl | hc
          · exact ⟨List.mem_cons_self, hd⟩
          · exact hold first List.mem_cons_self hc
        · exact hold part (List.mem_cons_of_mem first h) hc

/-- A text that stands for itself as a key of an observation: neither mark can cut it, it is not
skipped, and it is not taken for an integer. -/
structure IsLegible (s : String) : Prop where
  nonempty : s ≠ ""
  slash : '/' ∉ s.toList
  equals : '=' ∉ s.toList
  unreadable : readInt? s.toList = none

instance (s : String) : Decidable (IsLegible s) :=
  decidable_of_iff (s ≠ "" ∧ '/' ∉ s.toList ∧ '=' ∉ s.toList ∧ readInt? s.toList = none)
    ⟨fun h => ⟨h.1, h.2.1, h.2.2.1, h.2.2.2⟩,
      fun h => ⟨h.nonempty, h.slash, h.equals, h.unreadable⟩⟩

/-- The names of an address that was read up to an equals sign stand for themselves. -/
theorem isLegible_of_mem_readAddress {text s : String} (htext : '=' ∉ text.toList)
    (h : .name s ∈ readAddress text) : IsLegible s := by
  obtain ⟨part, hpart, hkey⟩ := List.mem_map.mp h
  obtain ⟨hsplit, hnonempty⟩ := List.mem_filter.mp hpart
  have hread : readInt? part = none ∧ String.ofList part = s := by
    rw [readKey] at hkey
    split at hkey
    · cases hkey
    · exact ⟨by assumption, Key.name.inj hkey⟩
  obtain ⟨hread, rfl⟩ := hread
  refine ⟨?_, ?_, ?_, ?_⟩
  · intro hempty
    have hpart : part = [] := String.ofList_eq_empty_iff.mp hempty
    simp [hpart] at hnonempty
  · rw [String.toList_ofList]
    exact fun hc => (mem_of_mem_splitSlashes hsplit hc).2 rfl
  · rw [String.toList_ofList]
    exact fun hc => htext (mem_of_mem_splitSlashes hsplit hc).1
  · rw [String.toList_ofList]
    exact hread

/-- The text of a key that is not skipped or cut reads as the key. -/
theorem readKey_display {k : Key} (hplain : k.IsPlain) (hlegible : ∀ s, k = .name s → IsLegible s) :
    readKey k.toValue.display.toList = k := by
  cases k with
  | name s =>
    have hread := (hlegible s rfl).unreadable
    simp [readKey, Key.toValue, Value.display, hread]
  | index i =>
    have hread := readInt?_intText (i := i) hplain
    simp [readKey, Key.toValue, Value.display, Value.render, hread]
  | symbol s => exact hplain.elim

/-- The marks of observations do not occur in the text of a key, and the text is not empty. -/
theorem display_unmarked {k : Key} (hplain : k.IsPlain)
    (hlegible : ∀ s, k = .name s → IsLegible s) :
    k.toValue.display.toList ≠ [] ∧ '/' ∉ k.toValue.display.toList ∧
      '=' ∉ k.toValue.display.toList := by
  cases k with
  | name s =>
    have hs := hlegible s rfl
    refine ⟨?_, hs.slash, hs.equals⟩
    intro hempty
    exact hs.nonempty (String.toList_eq_nil_iff.mp hempty)
  | index i =>
    refine ⟨?_, ?_, ?_⟩
    · intro hempty
      simp [Key.toValue, Value.display, Value.render, intText, Nat.toDigits_ne_nil] at hempty
    · intro hc
      rcases mem_intText hc with hc | hc
      · cases hc
      · cases hc
    · intro hc
      rcases mem_intText hc with hc | hc
      · cases hc
      · cases hc
  | symbol s => exact hplain.elim

theorem toList_addressText {a : Address} (hne : a ≠ []) :
    (addressText (a.map Key.toValue)).toList =
      ['/'].intercalate (a.map fun k => k.toValue.display.toList) := by
  cases a with
  | nil => exact absurd rfl hne
  | cons k a =>
    show ("/".intercalate ((k :: a).map Key.toValue |>.map Value.display)).toList = _
    rw [String.toList_intercalate, List.map_map, List.map_map]
    rfl

theorem mem_intercalate_slash {parts : List (List Char)} {c : Char}
    (h : c ∈ ['/'].intercalate parts) : c = '/' ∨ ∃ part ∈ parts, c ∈ part := by
  induction parts with
  | nil => simp at h
  | cons part parts ih =>
    by_cases hparts : parts = []
    · right
      refine ⟨part, List.mem_cons_self, ?_⟩
      simpa [hparts] using h
    · rw [List.intercalate_cons_of_ne_nil hparts, List.mem_append, List.mem_append,
        List.mem_singleton] at h
      rcases h with (h | h) | h
      · exact .inr ⟨part, List.mem_cons_self, h⟩
      · exact .inl h
      · rcases ih h with h | ⟨part', hpart', hc⟩
        · exact .inl h
        · exact .inr ⟨part', List.mem_cons_of_mem part hpart', hc⟩

section Printed

variable {a : Address} (hne : a ≠ []) (hplain : ∀ k ∈ a, k.IsPlain)
variable (hlegible : ∀ s, .name s ∈ a → IsLegible s)
include hne hplain hlegible

/-- Without marks in its keys a printed address has no equals sign. -/
theorem equals_not_mem_addressText : '=' ∉ (addressText (a.map Key.toValue)).toList := by
  intro hmem
  rw [toList_addressText hne] at hmem
  rcases mem_intercalate_slash hmem with h | ⟨part, hpart, hc⟩
  · cases h
  · obtain ⟨k, hk, rfl⟩ := List.mem_map.mp hpart
    exact (display_unmarked (hplain k hk) fun s hs => hlegible s (hs ▸ hk)).2.2 hc

/-- Without marks in its keys a printed address reads back. -/
theorem readAddress_addressText : readAddress (addressText (a.map Key.toValue)) = a := by
  have hunmarked : ∀ k ∈ a, _ := fun k hk =>
    display_unmarked (hplain k hk) fun s hs => hlegible s (hs ▸ hk)
  have hsplit : splitSlashes (addressText (a.map Key.toValue)).toList =
      a.map fun k => k.toValue.display.toList := by
    rw [toList_addressText hne, splitSlashes_eq_splitOn]
    apply List.splitOn_intercalate
    · intro part hpart
      obtain ⟨k, hk, rfl⟩ := List.mem_map.mp hpart
      exact (hunmarked k hk).2.1
    · simpa using hne
  have hkept : (a.map fun k => k.toValue.display.toList).filter (fun part => !part.isEmpty) =
      a.map fun k => k.toValue.display.toList := by
    rw [List.filter_eq_self]
    intro part hpart
    obtain ⟨k, hk, rfl⟩ := List.mem_map.mp hpart
    simpa using (hunmarked k hk).1
  rw [readAddress, hsplit, hkept, List.map_map]
  conv_rhs => rw [← List.map_id a]
  apply List.map_congr_left
  intro k hk
  exact readKey_display (hplain k hk) fun s hs => hlegible s (hs ▸ hk)

end Printed

/-- The address of an observation is what stands before the first equals sign. -/
theorem exists_of_read_ok {text : String} {a : Address} {v : Value} (h : read text = .ok (a, v)) :
    ∃ before : String, '=' ∉ before.toList ∧ readAddress before = a := by
  rw [read] at h
  split at h
  · cases h
  · rename_i before after hcut
    obtain ⟨c, -, -, hbefore⟩ := splitAt?_eq_some_iff.mp hcut
    refine ⟨String.ofList before, ?_, ?_⟩
    · rw [String.toList_ofList]
      intro hmem
      exact absurd (hbefore '=' hmem) (by decide)
    · cases hvalue : Reader.readOne (String.ofList after) with
      | ok form =>
        simp only [hvalue] at h
        exact congrArg Prod.fst (Except.ok.inj h)
      | error f =>
        simp only [hvalue] at h
        split at h <;> cases h

/-- An observation with a form after its first equals sign is read. -/
theorem read_of_readOne {address w : String} {form : Value} (haddress : '=' ∉ address.toList)
    (hw : Reader.readOne w = .ok form) :
    read (address ++ "=" ++ w) = .ok (readAddress address, Expression.datum form) := by
  have hcut : splitAt? (· == '=') (address ++ "=" ++ w).toList =
      (address.toList, some w.toList) := by
    rw [splitAt?_eq_some_iff]
    refine ⟨'=', by simp, by simp, ?_⟩
    intro c hc
    rw [beq_eq_false_iff_ne]
    intro heq
    exact haddress (heq ▸ hc)
  rw [read, hcut]
  simp [hw]

/-- Which printed addresses can be observed.  The keys are texts and integers that are not too
long, and what follows the equals sign is one form. -/
theorem read_addressText_iff {a : Address} (hplain : ∀ k ∈ a, k.IsPlain) {w : String} {form : Value}
    (hw : Reader.readOne w = .ok form) :
    read (addressText (a.map Key.toValue) ++ "=" ++ w) = .ok (a, Expression.datum form) ↔
      a ≠ [] ∧ ∀ s, .name s ∈ a → IsLegible s := by
  constructor
  · intro h
    constructor
    · rintro rfl
      have hroot : read ("<root>" ++ "=" ++ w) = _ := read_of_readOne (by decide) hw
      have hempty : readAddress "<root>" = [] :=
        congrArg Prod.fst (Except.ok.inj (hroot.symm.trans h))
      have hlabel : readAddress "<root>" = [.name "<root>"] := by decide +kernel
      exact absurd (hlabel.symm.trans hempty) (by decide)
    · intro s hs
      obtain ⟨before, hbefore, rfl⟩ := exists_of_read_ok h
      exact isLegible_of_mem_readAddress hbefore hs
  · rintro ⟨hne, hlegible⟩
    rw [read_of_readOne (equals_not_mem_addressText hne hplain hlegible) hw,
      readAddress_addressText hne hplain hlegible]

/-- The value of a coin at an address with a blank and an integer is observed.  The value of a
comparison is not, because its key has an equals sign. -/
theorem coin_observed :
    read (addressText ([.index (-12), .name "x y", .name "flip"].map Key.toValue) ++ "=" ++
        "(1 \"a=b\")") =
        .ok ([.index (-12), .name "x y", .name "flip"], .list [.int 1, .text "a=b"]) ∧
      read (addressText ([.index 0, .name "<="].map Key.toValue) ++ "=" ++ "true") ≠
        .ok ([.index 0, .name "<="], .bool true) := by
  constructor
  · have hform : Reader.readOne "(1 \"a=b\")" = .ok (.list [.int 1, .text "a=b"]) := rfl
    refine (read_addressText_iff (by decide) hform).mpr ⟨by decide, ?_⟩
    intro s hs
    simp only [List.mem_cons, Key.name.injEq, reduceCtorEq, List.not_mem_nil, false_or,
      or_false] at hs
    rcases hs with rfl | rfl
    · decide +kernel
    · decide +kernel
  · intro h
    have hform : Reader.readOne "true" = .ok (.bool true) := rfl
    have hlegible := ((read_addressText_iff (by decide) hform).mp h).2 "<=" (by simp)
    exact absurd hlegible.equals (by decide)

end Observation
end ProbTrace
