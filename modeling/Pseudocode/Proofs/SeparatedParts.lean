import Mathlib.Data.List.Forall2
import Pseudocode.Proofs.LiteralsKept
import Pseudocode.Proofs.OutsideLiterals

/-! # Parts between separators

Parts are joined by a separator, with white space around each of them. Splitting gives them back, the empty ones
included, if the scan is at depth zero and outside literals again after each part and no separator stands there within
a part. Brackets may close before they open: only the depth counts. -/

namespace Pseudocode.Text

/-- A text with white space around it. -/
inductive Padded (s : Text) : Text → Prop
  | mk {a b : Text} (before : ∀ c ∈ a, isBlank c = true) (after : ∀ c ∈ b, isBlank c = true) :
      Padded s (a ++ (s ++ b))

/-- A part that may stand between separators. Its literals and the code between them are its segments, in the one way
in which it can be written. -/
structure Separable (sep : Char) (s : Text) : Prop where
  trimmed : trim s = s
  closed : ∀ l ∈ literals s, l.closed = true
  balanced : net true (outside (segments s).marked) = 0
  covered : ∀ i, (segments s).marked[i]? = some (sep, true) → net true (outside ((segments s).marked.take i)) ≠ 0

instance (sep : Char) (s : Text) : Decidable (Separable sep s) :=
  decidable_of_iff (trim s = s ∧ (∀ l ∈ literals s, l.closed = true) ∧ net true (outside (segments s).marked) = 0 ∧
    ∀ i < (segments s).marked.length, (segments s).marked[i]? = some (sep, true) →
      net true (outside ((segments s).marked.take i)) ≠ 0)
    ⟨fun h => ⟨h.1, h.2.1, h.2.2.1, fun i hi => h.2.2.2 i (List.getElem?_eq_some_iff.mp hi).1 hi⟩,
      fun h => ⟨h.trimmed, h.closed, h.balanced, fun i _ => h.covered i⟩⟩

/-! ### Passing over a part -/

theorem splitFrom_of_covered {sep : Char} {m : Mode} {d : Int} {p : Text}
    (h : ∀ i, (marksFrom m p)[i]? = some (sep, true) → d + net true (outside ((marksFrom m p).take i)) ≠ 0) (s : Text) :
    splitFrom sep m d (p ++ s) =
      (p ++ (splitFrom sep (m.after p) (d + net true (outside (marksFrom m p))) s).1,
        (splitFrom sep (m.after p) (d + net true (outside (marksFrom m p))) s).2) := by
  induction p generalizing m d with
  | nil => simp [outside]
  | cons c p ih =>
    have hhere : (m.role c = .code && bracketWeight c == 0 && c == sep && d == 0) = false := by
      rw [Bool.eq_false_iff]
      intro hcut
      obtain ⟨⟨⟨hrole, _⟩, rfl⟩, rfl⟩ : ((m.role c = .code ∧ bracketWeight c = 0) ∧ c = sep) ∧ d = 0 := by
        simpa using hcut
      exact h 0 (by simp [marksFrom_cons, hrole]) (by simp [outside])
    have hlater (i : Nat) (hi : (marksFrom (m.next c) p)[i]? = some (sep, true)) :
        d + m.weight c + net true (outside ((marksFrom (m.next c) p).take i)) ≠ 0 := by
      have hnext := h (i + 1) (by rwa [marksFrom_cons, List.getElem?_cons_succ])
      rwa [marksFrom_cons, List.take_succ_cons, net_outside_cons, ← Int.add_assoc] at hnext
    rw [List.cons_append, splitFrom, hhere, if_neg (by simp), ih hlater, Mode.after_cons, marksFrom_cons,
      net_outside_cons, ← Int.add_assoc]
    rfl

/-- A text that begins and ends in code at depth zero and is not divided there. -/
def Passed (sep : Char) (p : Text) : Prop :=
  ∀ s, splitFrom sep .code 0 (p ++ s) = (p ++ (splitFrom sep .code 0 s).1, (splitFrom sep .code 0 s).2)

section

variable {sep : Char} {p q : Text}

private theorem Passed.append (hp : Passed sep p) (hq : Passed sep q) : Passed sep (p ++ q) := by
  intro s
  rw [List.append_assoc, hp, hq, List.append_assoc]

private theorem Separable.passed (h : Separable sep p) : Passed sep p := by
  have hcovered := h.covered
  have hbalanced := h.balanced
  rw [marked_segments] at hcovered hbalanced
  intro s
  have hscan := splitFrom_of_covered (m := .code) (d := 0) (fun i hi => by simpa using hcovered i hi) s
  rwa [after_of_closed h.closed, hbalanced, Int.add_zero] at hscan

private theorem passed_of_blank (hsep : isBlank sep = false) (hp : ∀ c ∈ p, isBlank c = true) : Passed sep p := by
  refine splitFrom_append (fun c hc => ⟨isQuote_of_isBlank (hp c hc), bracketWeight_of_isBlank (hp c hc)⟩) ?_
  intro hmem
  rw [hp sep hmem] at hsep
  cases hsep

private theorem Padded.passed (h : Padded p q) (hp : Passed sep p) (hsep : isBlank sep = false) :
    Passed sep q := by
  cases h with
  | mk before after => exact (passed_of_blank hsep before).append (hp.append (passed_of_blank hsep after))

private theorem Padded.trim_eq (h : Padded p q) : trim q = trim p := by
  cases h with
  | mk before after => rw [trim_append_left before, trim_append_right after]

/-! ### Splitting what was joined -/

private theorem splitFrom_join (hquote : isQuote sep = false) (hbracket : bracketWeight sep = 0) {ps : List Text}
    (h : ∀ q ∈ p :: ps, Passed sep q) : splitFrom sep .code 0 (join [sep] (p :: ps)) = (p, ps) := by
  induction ps generalizing p with
  | nil =>
    have halone := h p List.mem_cons_self []
    simpa [join, splitFrom] using halone
  | cons q ps ih =>
    obtain ⟨hp, hps⟩ := List.forall_mem_cons.mp h
    rw [join_of_two, hp, List.singleton_append, splitFrom_separator ⟨hquote, hbracket⟩, ih hps, List.append_nil]

theorem splitTopLevel_of_padded (hquote : isQuote sep = false) (hbracket : bracketWeight sep = 0)
    (hblank : isBlank sep = false) {parts padded : List Text} (hparts : ∀ p ∈ parts, Passed sep p ∧ trim p = p)
    (hpadded : List.Forall₂ Padded parts padded) (hne : parts ≠ []) (hsome : parts ≠ [[]]) :
    splitTopLevel sep (join [sep] padded) = parts := by
  obtain ⟨htrim, hpassed⟩ : padded.map trim = parts ∧ ∀ q ∈ padded, Passed sep q := by
    clear hne hsome
    induction hpadded with
    | nil => exact ⟨rfl, List.forall_mem_nil _⟩
    | cons hpad _ ih =>
      obtain ⟨hp, hparts⟩ := List.forall_mem_cons.mp hparts
      obtain ⟨htrim, hpassed⟩ := ih hparts
      rw [List.map_cons, htrim, hpad.trim_eq, hp.2]
      exact ⟨rfl, List.forall_mem_cons.mpr ⟨hpad.passed hp.1 hblank, hpassed⟩⟩
  cases padded with
  | nil => exact absurd htrim.symm hne
  | cons q qs =>
    rw [splitTopLevel_eq, splitFrom_join hquote hbracket hpassed, if_neg]
    · exact htrim
    · rintro ⟨hq, rfl⟩
      exact hsome (by rw [← htrim, List.map_singleton, hq])

end

/-- Splitting undoes joining. The separator is no quote, no bracket and no white space; each part is trimmed, has its
literals closed and its brackets at depth zero in the end, and has the separator only in literals or at another depth.
Without any part, or with an empty one alone, there is nothing to split. -/
theorem splitTopLevel_join {sep : Char} (hquote : isQuote sep = false) (hbracket : bracketWeight sep = 0)
    (hblank : isBlank sep = false) {parts padded : List Text} (hparts : ∀ p ∈ parts, Separable sep p)
    (hpadded : List.Forall₂ Padded parts padded) (hne : parts ≠ []) (hsome : parts ≠ [[]]) :
    splitTopLevel sep (join [sep] padded) = parts :=
  splitTopLevel_of_padded hquote hbracket hblank (fun p hp => ⟨(hparts p hp).passed, (hparts p hp).trimmed⟩) hpadded
    hne hsome

/-- Commas in a call, in a literal with an escaped quote and between brackets that close first, two empty parts, and
tabs and spaces around some of the parts. -/
theorem splitTopLevel_join_arguments :
    let parts : List Text := ["f(a, [b, c])", "", "'x, \\', (y'", "), (", "\x7bk: \")\"\x7d", ""]
    let padded : List Text := ["f(a, [b, c]) ", "\t", " 'x, \\', (y'", "), (", "  \x7bk: \")\"\x7d ", ""]
    (isQuote ',' = false ∧ bracketWeight ',' = 0 ∧ isBlank ',' = false) ∧ (∀ p ∈ parts, Separable ',' p) ∧
    List.Forall₂ Padded parts padded ∧ parts ≠ [] ∧ parts ≠ [[]] ∧
    join [','] padded = ("f(a, [b, c]) ,\t, 'x, \\', (y',), (,  \x7bk: \")\"\x7d ," : String) ∧
    splitTopLevel ',' (join [','] padded) = parts := by
  intro parts padded
  have hparts : ∀ p ∈ parts, Separable ',' p := by decide +kernel
  have hblank (n : Nat) : ∀ c ∈ spaces n, isBlank c = true := by
    intro c hc
    rw [List.eq_of_mem_replicate hc]
    decide
  have hpadded : List.Forall₂ Padded parts padded :=
    .cons (.mk (hblank 0) (hblank 1)) (.cons (.mk (List.all_eq_true.mp (by decide) : ∀ c ∈ ['\t'], _) (hblank 0))
      (.cons (.mk (hblank 1) (hblank 0)) (.cons (.mk (hblank 0) (hblank 0)) (.cons (.mk (hblank 2) (hblank 1))
        (.cons (.mk (hblank 0) (hblank 0)) .nil)))))
  have hne : parts ≠ [] := List.cons_ne_nil _ _
  have hsome : parts ≠ [[]] := by decide
  exact ⟨by decide, hparts, hpadded, hne, hsome, rfl,
    splitTopLevel_join (by decide) (by decide) (by decide) hparts hpadded hne hsome⟩

end Pseudocode.Text
