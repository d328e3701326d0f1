import Pseudocode.Proofs.Journal
import Pseudocode.Proofs.RulePlacement

/-! # Lines without code are inert

A run over some lines and the run over their code lines alone go on in step. The first writes what the
second writes and, woven in, what the other lines pass through: nothing of either is lost, repeated or
reordered, although blank lines are held back while blocks close and headers are rewritten at places
that have moved. -/

namespace Pseudocode

theorem Symbols.surveyed_filter_isCode (conv : Convention) (lines : List Line) (s : Symbols) :
    s.surveyed conv (lines.filter Line.isCode) = s.surveyed conv lines := by
  simp only [surveyed, List.filter_filter, Bool.and_self]

theorem Line.passthrough?_of_blank {line : Line} (h : line.kind = .blank) :
    line.passthrough? = some [] := by
  simp [Line.passthrough?, h]

private theorem Block.woven_placedAt {marks : List Bool} {i j k : Nat} {b : Block}
    (hb : ∀ r ∈ b.routine, r.headerIndex = i ∧ 0 < k) (hi : i = marks.length)
    (hj : j = marks.count true) :
    b.Woven (marks ++ List.replicate k true) (b.placedAt j) := by
  refine ⟨?_, ?_⟩
  · simp only [placedAt, Option.map_map]
    rfl
  · intro r hr r' hr'
    obtain ⟨_, _, rfl⟩ := Option.map_eq_some_iff.mp hr'
    obtain ⟨hindex, hk⟩ := hb r hr
    obtain ⟨k, rfl⟩ := Nat.exists_eq_succ_of_ne_zero (Nat.ne_of_gt hk)
    rw [hindex, hi, hj]
    exact .intro marks (List.replicate k true)

namespace Run

/-- The first run has taken the lines of the second and others, which pass `passed` through: part of
it is written, and the last blank lines may still be held back. -/
structure Woven (marks : List Bool) (passed : List Text) (r r' : Run) : Prop where
  state : ∃ extra, passed = extra ++ List.replicate r.held [] ∧
    r.state.Woven marks extra r'.state
  held : r'.held = 0
  reports : r.reports = r'.reports

private theorem release_of_held {r : Run} (h : r.held = 0) : r.release = r := by
  obtain ⟨state, held, reports⟩ := r
  obtain rfl : held = 0 := h
  simp [release, State.emitAll]

namespace Woven

variable {marks : List Bool} {passed : List Text} {r r' : Run} (h : Woven marks passed r r')

include h

/-- Lines that were held back are passed through, and nothing else changes. -/
theorem release : ∃ more, Woven (marks ++ more) passed r.release r'.release := by
  obtain ⟨extra, hpassed, hs⟩ := h.state
  rw [release_of_held h.held]
  exact ⟨_, ⟨passed, by simp [Run.release], hpassed ▸ hs.weave _⟩, h.held, h.reports⟩

/-! ### Converting a line -/

private theorem ruleContext (o : Options) :
    r'.ruleContext o = (r.ruleContext o).moved r'.state.blocks r'.state.output.length := by
  obtain ⟨extra, _, hs⟩ := h.state
  unfold Run.ruleContext State.context Context.moved
  rw [hs.depth, hs.symbols]

private theorem convertCode (o : Options) (line : Line) (code : Text) :
    ∃ more, Woven (marks ++ more) passed (r.convertCode o line code).2
        (r'.convertCode o line code).2 ∧
      Option.Rel (Block.Woven (marks ++ more)) (r.convertCode o line code).1
        (r'.convertCode o line code).1 := by
  obtain ⟨extra, hpassed, hs⟩ := h.state
  have hb : r'.state.blocks.map (Block.placedAt 0) =
      (r.ruleContext o).blocks.map (Block.placedAt 0) :=
    (Block.Woven.map_placedAt hs.blocks).symm
  have hmoved := Context.convert?_moved hb r'.state.output.length code
  rw [← h.ruleContext o] at hmoved
  cases hc : (r.ruleContext o).convert? code with
  | none =>
    rw [hc, Option.map_none] at hmoved
    rw [convertCode_of_none hc, convertCode_of_none hmoved, ← hs.depth]
    exact ⟨_, ⟨⟨extra, hpassed, (hs.note _ _).emitAll _⟩, h.held, congrArg (_ :: ·) h.reports⟩, .none⟩
  | some c =>
    obtain ⟨rule, outcome⟩ := c
    rw [hc, Option.map_some] at hmoved
    rw [convertCode_of_some hc, convertCode_of_some hmoved, State.withNotes, State.withNotes, ← hs.symbols]
    refine ⟨_, ⟨⟨extra, hpassed, ((hs.withSymbols _).note _ _).emitAll _⟩, h.held, h.reports⟩, ?_⟩
    rw [length_attachComment]
    cases ho : outcome.opens with
    | none =>
      simp only [Outcome.placedAt, ho, Option.map_none]
      exact .none
    | some b =>
      simp only [Outcome.placedAt, ho, Option.map_some]
      refine .some (Block.woven_placedAt ?_ hs.length.symm hs.length_output)
      intro routine hr
      obtain ⟨hindex, hlines⟩ := Context.routine_of_convert? code hc ho hr
      exact ⟨hindex, List.length_pos_iff.mpr hlines⟩

private theorem handle (o : Options) (line : Line) (code : Text) :
    ∃ more, Woven (marks ++ more) passed (r.handle o line code).2 (r'.handle o line code).2 ∧
      Option.Rel (Block.Woven (marks ++ more)) (r.handle o line code).1
        (r'.handle o line code).1 := by
  unfold Run.handle
  split
  · obtain ⟨extra, hpassed, hs⟩ := h.state
    unfold Run.writeComment
    rw [← hs.depth]
    split
    · exact ⟨_, ⟨⟨extra, hpassed, hs.emitAll [_]⟩, h.held, h.reports⟩, .none⟩
    · exact ⟨[], by rwa [List.append_nil], .none⟩
  · exact h.convertCode o line code

/-! ### Steps -/

theorem step_of_not_code (o : Options) {line : Line} (hl : line.isCode = false)
    (following : List Line) :
    ∃ more text, line.passthrough? = some text ∧
      Woven (marks ++ more) (passed ++ [text]) (r.step o line following) r' := by
  obtain ⟨extra, hpassed, hs⟩ := h.state
  obtain ⟨text, htext, hstep⟩ := Run.step_of_not_code o hl following r
  rw [hstep]
  split
  · next hblank =>
    have hkind : line.kind = .blank := by simp_all
    obtain rfl : [] = text := by
      rw [Line.passthrough?_of_blank hkind] at htext
      exact Option.some.inj htext
    refine ⟨[], [], htext, ⟨extra, ?_, by rwa [List.append_nil]⟩, h.held, h.reports⟩
    rw [hpassed, List.append_assoc, ← List.replicate_succ']
  · have hreleased := (hs.weave (List.replicate r.held [])).weave [text]
    rw [← hpassed, List.append_assoc marks] at hreleased
    exact ⟨_, text, htext, ⟨_, (List.append_nil _).symm, hreleased⟩, h.held, h.reports⟩

variable (o : Options) (line : Line) {following following' : List Line}
  (hf : Line.nextCode following = Line.nextCode following')

include hf

private theorem entered :
    ∃ more, Woven (marks ++ more) passed (r.entered o line following) (r'.entered o line following') ∧
      (r.entryOf o line following).code = (r'.entryOf o line following').code ∧
      Option.Rel (Block.Woven (marks ++ more)) (r.entryOf o line following).taken
        (r'.entryOf o line following').taken := by
  obtain ⟨extra, hpassed, hs⟩ := h.state
  have henter := State.enter_alike o.dialect.style o.dialect.style o.convention line hf hs.outline
  obtain ⟨closed, hclosed, hcode, htaken⟩ := henter.woven hs
  have hmet : Woven (marks ++ closed) passed
      { r with state := (r.state.enter o.dialect.style o.convention line following).2 }
      { r' with state := (r'.state.enter o.dialect.style o.convention line following').2 } :=
    ⟨⟨extra, hpassed, hclosed⟩, h.held, h.reports⟩
  obtain ⟨released, hreleased⟩ := hmet.release
  rw [List.append_assoc] at hreleased
  refine ⟨closed ++ released, hreleased, hcode, ?_⟩
  rw [← List.append_assoc]
  exact Block.Woven.rel_append htaken released

private theorem codeLine :
    ∃ more, Woven (marks ++ more) passed (r.codeLine o line following)
      (r'.codeLine o line following') := by
  obtain ⟨closed, hentered, hcode, htaken⟩ := h.entered o line hf
  obtain ⟨written, hconverted, hopened⟩ :=
    hentered.handle o line (r.entryOf o line following).code
  -- the block that the line took away stays woven in while the line is written
  have htaken' := Block.Woven.rel_append htaken written
  obtain ⟨extra, hpassed, hs⟩ := hconverted.state
  have hleave := State.leave_alike o.dialect.style o.dialect.style o.convention line hf hs.outline
    hcode (Block.Woven.rel_outline htaken') (Block.Woven.rel_outline hopened)
  obtain ⟨settled, hleft⟩ := hleave.woven hs hopened htaken'
  rw [codeLine_eq, codeLine_eq]
  unfold Run.converted
  rw [← hcode]
  rw [List.append_assoc, List.append_assoc] at hleft
  exact ⟨_, ⟨extra, hpassed, hleft⟩, hconverted.held, hconverted.reports⟩

omit hf

/-! ### Runs -/

private theorem steps (lines : List Line) :
    ∃ more, Woven (marks ++ more) (passed ++ lines.filterMap Line.passthrough?)
      (steps o lines r) (steps o (lines.filter Line.isCode) r') := by
  induction lines generalizing marks passed r r' with
  | nil => exact ⟨[], by simpa [Run.steps] using h⟩
  | cons line following ih =>
    cases hl : line.isCode with
    | false =>
      obtain ⟨passing, text, htext, hstep⟩ := h.step_of_not_code o hl following
      obtain ⟨more, hsteps⟩ := ih hstep
      rw [List.append_assoc, List.append_assoc] at hsteps
      rw [List.filter_cons_of_neg (by simp [hl]), List.filterMap_cons_some htext]
      exact ⟨_, hsteps⟩
    | true =>
      have hnone : line.passthrough? = none := by
        rw [Line.isCode_eq_isNone_passthrough?] at hl
        simpa using hl
      have hf : Line.nextCode following = Line.nextCode (following.filter Line.isCode) := by
        simpa using (Line.nextCode_filter_append following []).symm
      obtain ⟨taking, hstep⟩ := h.codeLine o line hf
      rw [← step_of_code o hl, ← step_of_code o hl] at hstep
      obtain ⟨more, hsteps⟩ := ih hstep
      rw [List.append_assoc] at hsteps
      rw [List.filter_cons_of_pos hl, List.filterMap_cons_none hnone]
      exact ⟨_, hsteps⟩

private theorem finish : ∃ more, Woven (marks ++ more) passed (r.finish o) (r'.finish o) := by
  obtain ⟨extra, hpassed, hs⟩ := h.state
  obtain ⟨closed, hclosed⟩ := hs.closeAll o.dialect.style
  have hend : Woven (marks ++ closed) passed
      { r with state := r.state.closeAll o.dialect.style }
      { r' with state := r'.state.closeAll o.dialect.style } :=
    ⟨⟨extra, hpassed, hclosed⟩, h.held, h.reports⟩
  obtain ⟨released, hreleased⟩ := hend.release
  rw [List.append_assoc] at hreleased
  exact ⟨_, hreleased⟩

end Woven

private theorem woven_start (o : Options) (lines : List Line) :
    Woven [] [] (start o lines) (start o (lines.filter Line.isCode)) := by
  refine ⟨⟨[], rfl, ?_⟩, rfl, rfl⟩
  refine ⟨.nil, rfl, rfl, rfl, rfl, ?_, rfl, rfl, rfl⟩
  simp only [start, State.survey, State.note, Symbols.surveyed_filter_isCode]

/-- Nothing is held back in the end. -/
theorem held_ofLines (o : Options) (lines : List Line) : (ofLines o lines).held = 0 := rfl

/-- Whatever the lines, the run over all of them writes what the run over the code lines alone writes,
with what the blank and comment lines pass through woven in: each in its own order, each line once.
Both runs report the same lines. So it is for the conversion of every source that is not blank. -/
theorem inert_lines_interleave (o : Options) :
    (∀ lines : List Line,
      Interleaving (ofLines o (lines.filter Line.isCode)).state.output
          (lines.filterMap Line.passthrough?) (ofLines o lines).state.output ∧
        (ofLines o lines).reports = (ofLines o (lines.filter Line.isCode)).reports) ∧
      ∀ source : Text, (Text.trim source).isEmpty = false →
        let lines := Line.ofSource o.convention source
        (convert o source).output = Text.join "\n" (ofLines o lines).state.output ∧
          Interleaving (ofLines o (lines.filter Line.isCode)).state.output
            (lines.filterMap Line.passthrough?) (ofLines o lines).state.output ∧
          (convert o source).reports = (ofLines o (lines.filter Line.isCode)).result.reports := by
  have hlines (lines : List Line) :
      Interleaving (ofLines o (lines.filter Line.isCode)).state.output
          (lines.filterMap Line.passthrough?) (ofLines o lines).state.output ∧
        (ofLines o lines).reports = (ofLines o (lines.filter Line.isCode)).reports := by
    obtain ⟨_, hsteps⟩ := (woven_start o lines).steps o lines
    obtain ⟨_, hfinish⟩ := hsteps.finish o
    obtain ⟨extra, hpassed, hs⟩ := hfinish.state
    rw [← ofLines_eq, held_ofLines, List.replicate_zero, List.append_nil, List.nil_append] at hpassed
    rw [hpassed]
    exact ⟨hs.interleaving, hfinish.reports⟩
  refine ⟨hlines, ?_⟩
  intro source hsource lines
  obtain ⟨hwritten, hreports⟩ := hlines lines
  have hconvert : convert o source = (ofLines o lines).result := by
    rw [convert, if_neg (by simp [hsource])]
  rw [hconvert]
  exact ⟨rfl, hwritten, congrArg List.reverse hreports⟩

/-- The header of a routine is rewritten below two further lines, a blank line waits until the routine
is closed, and another ends the source. -/
theorem inert_lines_interleave_routine :
    let o : Options := ⟨.indentation, .cambridge⟩
    let source : Text := "# top\n\ndef f(x):\n    # inner\n\n    return x\n\nraise f\n\n"
    let header : Text := "FUNCTION F(x : INTEGER) RETURNS INTEGER"
    let failed : Text := "// Unsupported: raise f"
    let code : List Text := [header, "   RETURN x", "ENDFUNCTION", failed]
    let passed : List Text := ["// top", [], "    // inner", [], [], []]
    let written : List Text :=
      ["// top", [], header, "    // inner", [], "   RETURN x", "ENDFUNCTION", [], failed, []]
    (Text.trim source).isEmpty = false ∧ (convert o source).output = Text.join "\n" written ∧
      Interleaving code passed written ∧ (convert o source).reports = [.ofLine "raise f" 8] := by
  intro o source header failed code passed written
  have hsource : (Text.trim source).isEmpty = false := by decide +kernel
  have hall : (ofLines o (Line.ofSource o.convention source)).state.output = written := by
    decide +kernel
  have hcode : (ofLines o ((Line.ofSource o.convention source).filter Line.isCode)).state.output =
      code := by
    decide +kernel
  have hpassed : (Line.ofSource o.convention source).filterMap Line.passthrough? = passed := by
    decide +kernel
  obtain ⟨houtput, hwritten, hreports⟩ := (inert_lines_interleave o).2 source hsource
  rw [hall] at houtput
  rw [hcode, hpassed, hall] at hwritten
  refine ⟨hsource, houtput, hwritten, hreports.trans ?_⟩
  decide +kernel

end Run

end Pseudocode
