import Pseudocode.Proofs.LineNumbers
import Pseudocode.Proofs.LineOrigins

/-! # Reports of unsupported lines

Code that no rule takes is reported and marked in the output, and nothing else is. The reports come in the order of
the lines, each with the number and the code of its line, and there are as many of them as marks. -/

namespace Pseudocode

open Text

namespace Run

private theorem reports_handle (o : Options) (a : Attempt) :
    (a.run.handle o a.line a.code).2.reports =
      ([a].filter (Attempt.unmatched o)).map (fun a => Report.ofLine a.line.code a.line.number) ++ a.run.reports := by
  rw [handle]
  by_cases hu : a.unmatched o = true
  · obtain ⟨hcode, hconvert⟩ := Attempt.unmatched_iff.mp hu
    rw [List.filter_cons_of_pos hu, hcode, if_neg (by simp), convertCode_of_none hconvert]
    rfl
  · rw [List.filter_cons_of_neg hu, List.filter_nil]
    split
    · unfold writeComment
      split <;> rfl
    · next hcode =>
      obtain ⟨_, _, hconvert⟩ := Attempt.exists_of_not_unmatched hu hcode
      rw [convertCode_of_some hconvert]
      rfl

private theorem reports_step (o : Options) (line : Line) (following : List Line) (r : Run) :
    (r.step o line following).reports =
      ((r.attempt? o line following).toList.filter (Attempt.unmatched o)).map
        (fun a => Report.ofLine a.line.code a.line.number) ++ r.reports := by
  cases hl : line.isCode with
  | false =>
    obtain ⟨text, _, hstep⟩ := step_of_not_code o hl following r
    rw [hstep, attempt?_of_not_code hl]
    split <;> rfl
  | true =>
    rw [step_of_code o hl, codeLine_eq, attempt?_of_code hl]
    exact reports_handle o ⟨line, (r.entryOf o line following).code, r.entered o line following⟩

private theorem reports_steps (o : Options) (lines : List Line) (r : Run) :
    (steps o lines r).reports =
      (((attempts o lines r).filter (Attempt.unmatched o)).map
        fun a => Report.ofLine a.line.code a.line.number).reverse ++ r.reports := by
  induction lines generalizing r with
  | nil => rfl
  | cons line following ih =>
    rw [steps, ih, reports_step, attempts, List.filter_append, List.map_append, List.reverse_append,
      List.append_assoc]
    cases r.attempt? o line following with
    | none => rfl
    | some a => by_cases h : a.unmatched o = true <;> simp [h]

theorem attempts_of_blank {o : Options} {source : Text} (h : trim source = []) (r : Run) :
    attempts o (Line.ofSource o.convention source) r = [] := by
  have hlines := line_attempts o (Line.ofSource o.convention source) r
  rw [List.filter_eq_nil_iff.mpr (by simpa using Line.isCode_ofSource_of_blank h o.convention)] at hlines
  exact List.map_eq_nil_iff.mp hlines

end Run

private theorem reports_convert (o : Options) (source : Text) :
    (convert o source).reports =
      ((Run.attempts o (Line.ofSource o.convention source) (Run.start o (Line.ofSource o.convention source))).filter
        (Attempt.unmatched o)).map fun a => Report.ofLine a.line.code a.line.number := by
  rw [convert]
  split
  · next hblank =>
    rw [Run.attempts_of_blank (List.isEmpty_iff.mp hblank)]
    rfl
  · change (Run.ofLines o _).reports.reverse = _
    rw [show (Run.ofLines o (Line.ofSource o.convention source)).reports = _ from Run.reports_steps o _ _]
    simp [Run.start]

private theorem exists_explains_convert (o : Options) (source : Text) :
    ∃ output origins, (convert o source).output = join "\n" output ∧
      Explains o (Line.ofSource o.convention source) origins [] output ∧
      origins.filterMap Origin.fallback? =
        (Run.attempts o (Line.ofSource o.convention source) (Run.start o (Line.ofSource o.convention source))).filter
          (Attempt.unmatched o) := by
  rw [convert]
  split
  · next hblank =>
    rw [Run.attempts_of_blank (List.isEmpty_iff.mp hblank)]
    exact ⟨[], [], rfl, .nil, rfl⟩
  · obtain ⟨origins, hexplains, hmarks⟩ := Run.exists_explains_ofLines o (Line.ofSource o.convention source)
    exact ⟨_, origins, rfl, hexplains, hmarks⟩

/-- The logical lines of a source have numbers of its physical lines, in order. Each code line is handed to the rules
once, and for the code that no rule takes and no other there is one report, with the kind, the code and the number of
its line, so that the numbers of the reports increase as well. Every line of the output has an origin. The marks are
the lines whose origin is code that no rule took: they are as many as the reports, each at its own place, after the
marks before it. -/
theorem unsupported_lines_reported (o : Options) (source : Text) :
    let lines := Line.ofSource o.convention source
    let attempts := Run.attempts o lines (Run.start o lines)
    let unmatched := attempts.filter (Attempt.unmatched o)
    let result := convert o source
    ((lines.map Line.number).Pairwise (· < ·) ∧
      ∀ l ∈ lines, 1 ≤ l.number ∧ l.number ≤ (physicalLines source).length) ∧
    attempts.map Attempt.line = lines.filter Line.isCode ∧
    result.reports = unmatched.map (fun a =>
      { construct := Construct.ofLine a.line.code, line := a.line.code, number := a.line.number }) ∧
    (result.reports.map Report.number).Pairwise (· < ·) ∧
    ∃ (output : List Text) (origins : List Origin), result.output = join "\n" output ∧
      List.Forall₂ (Origin.Gives o lines) origins output ∧
      (∀ i a, origins[i]? = some (.fallback a) ↔ a ∈ unmatched ∧ a.place = i) ∧
      (origins.filterMap Origin.fallback?).length = result.reports.length ∧
      (unmatched.map Attempt.place).Pairwise (· < ·) ∧
      ∀ a ∈ unmatched, output[a.place]? =
        some (o.dialect.style.indent a.depth ++ "// Unsupported: " ++ a.code ++ a.line.commentSuffix) := by
  intro lines attempts unmatched result
  have hnumbered := Line.numbered_ofSource o.convention source
  have hattempts : attempts.map Attempt.line = lines.filter Line.isCode := Run.line_attempts o lines _
  have hreports : result.reports = unmatched.map _ := reports_convert o source
  obtain ⟨output, origins, houtput, hexplains, hmarks⟩ := exists_explains_convert o source
  refine ⟨⟨hnumbered.increasing, fun l hl => ⟨hnumbered.low_le l hl, ?_⟩⟩, hattempts, hreports, ?_, output, origins,
    houtput, hexplains.gives, fun i a => ?_, ?_, ?_, fun a ha => ?_⟩
  · have hlt := hnumbered.lt_high l hl
    omega
  · have hsublist : (unmatched.map Attempt.line).Sublist lines :=
      (List.filter_sublist.map _).trans (hattempts ▸ List.filter_sublist)
    have hincreasing := hnumbered.increasing.sublist (hsublist.map Line.number)
    rw [List.map_map] at hincreasing
    rw [hreports, List.map_map]
    exact hincreasing
  · rw [hexplains.fallback_iff, hmarks]
  · rw [hmarks, hreports, List.length_map]
  · have hordered := hexplains.ordered
    rwa [hmarks] at hordered
  · exact hexplains.mark (hmarks ▸ ha)

/-- Two marks among five lines. A comment of the source that looks like a mark is none. -/
theorem unsupported_lines_reported_loop :
    let o : Options := ⟨.indentation, .ib⟩
    let source : Text := "while x > 0:\n    with x: # a\n# Unsupported: y\n    break"
    (convert o source).reports = [⟨.withStatement, "with x:", 2⟩, ⟨.loopControl, "break", 4⟩] ∧
    ∃ (output : List Text) (origins : List Origin), (convert o source).output = join "\n" output ∧
      join "\n" output = join "\n" ["WHILE x > 0 DO", "    // Unsupported: with x:  // a", "// Unsupported: y",
        "    // Unsupported: break", "END WHILE"] ∧
      List.Forall₂ (Origin.Gives o (Line.ofSource o.convention source)) origins output ∧
      (origins.filterMap Origin.fallback?).length = 2 ∧
      ∀ i, (∃ a, origins[i]? = some (.fallback a)) ↔ i = 1 ∨ i = 3 := by
  intro o source
  let lines := Line.ofSource o.convention source
  have hreports : (convert o source).reports = [⟨.withStatement, "with x:", 2⟩, ⟨.loopControl, "break", 4⟩] := by
    decide +kernel
  have hplaces : ((Run.attempts o lines (Run.start o lines)).filter (Attempt.unmatched o)).map Attempt.place =
      [1, 3] := by
    decide +kernel
  obtain ⟨_, _, _, _, output, origins, houtput, hgives, hfallback, hlength, _, _⟩ :=
    unsupported_lines_reported o source
  refine ⟨hreports, output, origins, houtput, houtput.symm.trans (by decide +kernel), hgives, ?_, fun i => ?_⟩
  · rw [hlength, hreports]
    rfl
  · have hmem : (∃ a, origins[i]? = some (.fallback a)) ↔ i ∈ [1, 3] := by
      rw [← hplaces, List.mem_map]
      exact exists_congr fun a => hfallback i a
    simpa using hmem

end Pseudocode
