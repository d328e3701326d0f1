import Pseudocode.Proofs.RuleForms

/-! # What a rule may do

Rules are run one after another on the state that the one before left, and each of them may write to it before it
declines. Still a rule that declines leaves everything as it was, and one that accepts a line changes nothing but the
notes on names. Every line that a rule writes is empty or stands at the indentation that the rule was given. -/

namespace Pseudocode

open Text

/-- What a state has besides its notes on names. -/
structure State.SameButNotes (s t : State) : Prop where
  blocks : t.blocks = s.blocks
  indents : t.indents = s.indents
  braces : t.braces = s.braces
  chainPending : t.chainPending = s.chainPending
  tryDepth : t.tryDepth = s.tryDepth
  survey : t.symbols.survey = s.symbols.survey
  output : t.output = s.output
  log : t.log = s.log

private theorem State.sameButNotes_withNotes (s : State) (notes : Notes) : s.SameButNotes (s.withNotes notes) :=
  ⟨rfl, rfl, rfl, rfl, rfl, rfl, rfl, rfl⟩

section

variable {st : Style} {conv : Convention} {indent code : Text} {s : State}

theorem Rule.run_of_none {r : Rule} (hr : r ∈ conv.rules) (h : r.apply (s.context st conv indent) code = none) :
    (r.apply.convert code).run ⟨st, conv, indent⟩ s = (none, s) := by
  rw [(conv.computes_rules r hr).run_eq, h]

theorem Rule.run_of_some {r : Rule} (hr : r ∈ conv.rules) {o : Outcome}
    (h : r.apply (s.context st conv indent) code = some o) :
    (r.apply.convert code).run ⟨st, conv, indent⟩ s = (some o.toTranslation, s.withNotes o.notes) := by
  rw [(conv.computes_rules r hr).run_eq, h]

private theorem Rule.contract {r : Rule} (hr : r ∈ conv.rules) :
    let ran := (r.apply.convert code).run ⟨st, conv, indent⟩ s
    (ran.1 = none → ran.2 = s) ∧ s.SameButNotes ran.2 ∧ ∀ c ∈ ran.1, AllStandAt indent c.lines := by
  cases h : r.apply (s.context st conv indent) code with
  | none =>
    rw [run_of_none hr h]
    exact ⟨fun _ => rfl, s.sameButNotes_withNotes _, by simp⟩
  | some o =>
    rw [run_of_some hr h]
    refine ⟨by simp, s.sameButNotes_withNotes _, ?_⟩
    rintro c ⟨⟩
    exact ((s.context st conv indent).form_rules code r hr o h).stands

private theorem State.dispatch_of_none (h : (s.dispatch st conv indent code).1 = none) :
    (s.dispatch st conv indent code).2 = s ∧
      ∀ r ∈ conv.rules, (r.apply.convert code).run ⟨st, conv, indent⟩ s = (none, s) := by
  rw [dispatch_eq] at h ⊢
  cases hconvert : (s.context st conv indent).convert? code with
  | some found =>
    rw [hconvert] at h
    cases h
  | none =>
    refine ⟨rfl, fun r hr => Rule.run_of_none hr ?_⟩
    exact Option.map_eq_none_iff.mp (List.findSome?_eq_none_iff.mp hconvert r hr)

private theorem State.exists_of_dispatch {name : Text} {c : Translation} {t : State}
    (h : s.dispatch st conv indent code = (some (name, c), t)) :
    ∃ before r after, conv.rules = before ++ r :: after ∧ r.name = name ∧
      (∀ q ∈ before, (q.apply.convert code).run ⟨st, conv, indent⟩ s = (none, s)) ∧
        (r.apply.convert code).run ⟨st, conv, indent⟩ s = (some c, t) := by
  rw [dispatch_eq] at h
  cases hconvert : (s.context st conv indent).convert? code with
  | none =>
    rw [hconvert] at h
    cases h
  | some found =>
    rw [hconvert] at h
    obtain ⟨before, r, after, hrules, hr, hbefore⟩ := List.findSome?_eq_some_iff.mp hconvert
    obtain ⟨o, ho, rfl⟩ := Option.map_eq_some_iff.mp hr
    cases h
    have hmem : ∀ q ∈ before ++ r :: after, q ∈ conv.rules := fun q hq => hrules ▸ hq
    refine ⟨before, r, after, hrules, rfl, fun q hq => ?_, Rule.run_of_some (hmem r (by simp)) ho⟩
    exact Rule.run_of_none (hmem q (by simp [hq])) (Option.map_eq_none_iff.mp (hbefore q hq))

end

/-- A rule that declines leaves the state as it was. One that accepts changes nothing but the notes, and each of its
lines is empty or begins with the indentation. If no rule accepts, the state is as it was; otherwise the first rule
that accepts has its effect on the state at the start, and no other rule has any. -/
theorem rules_contract (st : Style) (conv : Convention) (indent code : Text) (s : State) :
    let site : Site := { style := st, convention := conv, indent }
    (∀ r ∈ conv.rules,
        let ran := (r.apply.convert code).run site s
        (ran.1 = none → ran.2 = s) ∧ s.SameButNotes ran.2 ∧
          ∀ c, ran.1 = some c → ∀ line ∈ c.lines, line = [] ∨ indent <+: line) ∧
      ((s.dispatch st conv indent code).1 = none →
        (s.dispatch st conv indent code).2 = s ∧
          ∀ r ∈ conv.rules, (r.apply.convert code).run site s = (none, s)) ∧
      ∀ name c t, s.dispatch st conv indent code = (some (name, c), t) →
        ∃ before r after, conv.rules = before ++ r :: after ∧ r.name = name ∧
          (∀ q ∈ before, (q.apply.convert code).run site s = (none, s)) ∧
            (r.apply.convert code).run site s = (some c, t) :=
  ⟨fun _ hr => Rule.contract hr, State.dispatch_of_none, fun _ _ _ => State.exists_of_dispatch⟩

/-- A list is declined by the rules before its own, which then takes note of a type. One with a comprehension is
declined by all. -/
theorem rules_contract_list :
    let s : State := {}
    let site : Site := { style := .cambridge, convention := .indentation, indent := "  " }
    let code : Text := "marks = [1, 2]"
    let written : Translation := .statement
      ["  DECLARE marks : ARRAY[0:1] OF INTEGER", "  marks[0] ← 1", "  marks[1] ← 2"]
    (∃ before r after t, Indented.rules = before ++ r :: after ∧ r.name = ("list_literal" : Text) ∧
      (∀ q ∈ before, (q.apply.convert code).run site s = (none, s)) ∧
        (r.apply.convert code).run site s = (some written, t) ∧ s.SameButNotes t ∧
          t.symbols.notes.types.get? "marks" = some ("ARRAY OF INTEGER" : Text)) ∧
      ∀ r ∈ Indented.rules, (r.apply.convert "marks = [x for x in y]").run site s = (none, s) := by
  intro s site code written
  obtain ⟨hrules, _, hfirst⟩ := rules_contract .cambridge .indentation "  " code s
  obtain ⟨_, hdeclined, _⟩ := rules_contract .cambridge .indentation "  " "marks = [x for x in y]" s
  have haccepted : (s.dispatch .cambridge .indentation "  " code).1 = some ("list_literal".toList, written) := by
    decide +kernel
  have htypes : (s.dispatch .cambridge .indentation "  " code).2.symbols.notes.types.get? "marks" =
      some "ARRAY OF INTEGER".toList := by
    decide +kernel
  have hnone : (s.dispatch .cambridge .indentation "  " "marks = [x for x in y]").1 = none := by decide +kernel
  generalize hdispatch : s.dispatch .cambridge .indentation "  " code = ran at haccepted htypes
  obtain ⟨accepted, t⟩ := ran
  obtain rfl : accepted = _ := haccepted
  obtain ⟨before, r, after, happend, hname, hbefore, hran⟩ := hfirst _ _ _ hdispatch
  obtain ⟨_, hsame, _⟩ := hrules r (by rw [happend]; simp)
  rw [hran] at hsame
  exact ⟨⟨before, r, after, t, happend, hname, hbefore, hran, hsame, htypes⟩, (hdeclined hnone).2⟩

end Pseudocode
