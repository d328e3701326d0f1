import Pseudocode.Proofs.Passage
import Pseudocode.Proofs.RuleOpenings
import Mathlib.Data.List.Forall2

/-! # Runs in two dialects

Two runs over the same lines, each in a dialect of its own, go through the same nesting. Their outputs
and their notes on names part, but at every line their blocks are open alike, and a line opens a block
in both runs or in neither. In indented sources they also report the same lines. -/

namespace Pseudocode

/-! ### Blocks and states that nest alike -/

def Kind.isRoutine (k : Kind) : Bool := k ∈ [.function, .procedure]

/-- Blocks that differ at most in what their header and their last line show. -/
structure Block.NestsAlike (b c : Block) : Prop where
  kind : b.kind = c.kind ∨ (b.kind.isRoutine = true ∧ c.kind.isRoutine = true)
  loopVariable : b.loopVariable = c.loopVariable
  name : b.name = c.name
  braceless : b.braceless = c.braceless

structure State.NestsAlike (s t : State) : Prop where
  blocks : List.Forall₂ Block.NestsAlike s.blocks t.blocks
  indents : s.indents = t.indents
  braces : s.braces = t.braces
  chainPending : s.chainPending = t.chainPending
  tryDepth : s.tryDepth = t.tryDepth

private theorem Kind.eq_or_isRoutine_of_outline {k l : Kind} (h : k.outline = l.outline) :
    k = l ∨ (k.isRoutine = true ∧ l.isRoutine = true) := by
  revert h
  cases k <;> cases l <;> decide

private theorem Block.nestsAlike_of_outline {b c : Block} (h : b.outline = c.outline) : b.NestsAlike c := by
  injection h with hkind hvariable _ hname _ hbraceless
  exact ⟨Kind.eq_or_isRoutine_of_outline hkind, hvariable, hname, hbraceless⟩

theorem State.nestsAlike_of_outline {s t : State} (h : s.outline = t.outline) : s.NestsAlike t where
  blocks := by
    have hblocks : List.Forall₂ (· = ·) (s.blocks.map Block.outline) (t.blocks.map Block.outline) := by
      rw [List.forall₂_eq_eq_eq]
      exact State.blocks_of_outline h
    rw [List.forall₂_map_left_iff, List.forall₂_map_right_iff] at hblocks
    exact hblocks.imp fun _ _ => Block.nestsAlike_of_outline
  indents := State.indents_of_outline h
  braces := State.braces_of_outline h
  chainPending := State.chainPending_of_outline h
  tryDepth := State.tryDepth_of_outline h

theorem State.SameNesting.outline {s t : State} (h : s.SameNesting t) : t.outline = s.outline := by
  rw [State.outline, State.outline, h.blocks, h.indents, h.braces, h.chainPending, h.tryDepth]

/-- Two runs take a line through states that nest alike, and both open a block or neither does. -/
structure Passage.NestsAlike (p q : Passage) : Prop where
  met : p.met.NestsAlike q.met
  entered : p.entered.NestsAlike q.entered
  converted : p.converted.NestsAlike q.converted
  left : p.left.NestsAlike q.left
  opened : p.opened.isSome = q.opened.isSome

namespace Run

open State

/-! ### Converting a line -/

private theorem opened_convertCode (o : Options) (line : Line) (code : Text) (r : Run) :
    (r.convertCode o line code).1.map Block.outline =
      ((r.ruleContext o).opening? code).join := by
  unfold Context.opening?
  cases hc : (r.ruleContext o).convert? code with
  | none => rw [convertCode_of_none hc]; rfl
  | some c => rw [convertCode_of_some hc]; rfl

private theorem reports_convertCode (o : Options) (line : Line) (code : Text) (r : Run) :
    (r.convertCode o line code).2.reports =
      if ((r.ruleContext o).opening? code).isSome then r.reports
      else Report.ofLine line.code line.number :: r.reports := by
  unfold Context.opening?
  cases hc : (r.ruleContext o).convert? code with
  | none => rw [convertCode_of_none hc]; rfl
  | some c => rw [convertCode_of_some hc]; rfl

private theorem survey_convertCode (o : Options) (line : Line) (code : Text) (r : Run) :
    (r.convertCode o line code).2.state.symbols.survey = r.state.symbols.survey := by
  cases hc : (r.ruleContext o).convert? code with
  | none => rw [convertCode_of_none hc]; rfl
  | some c => rw [convertCode_of_some hc]; rfl

private theorem writeComment_keeps (o : Options) (line : Line) (r : Run) :
    (r.writeComment o line).state.symbols = r.state.symbols ∧
      (r.writeComment o line).reports = r.reports := by
  unfold writeComment
  split
  · exact ⟨rfl, rfl⟩
  · exact ⟨rfl, rfl⟩

/-! ### Two runs -/

/-- Two runs whose blocks are open alike and that know the same of the whole source. -/
structure Alike (conv : Convention) (r r' : Run) : Prop where
  outline : r.state.outline = r'.state.outline
  survey : r.state.symbols.survey = r'.state.symbols.survey
  reports : conv = .indentation → r.reports = r'.reports

variable {conv : Convention} {r r' : Run} (h : Alike conv r r') (d d' : Dialect) (line : Line)

include h

private theorem Alike.ruleContext : (r.ruleContext ⟨conv, d⟩).Alike (r'.ruleContext ⟨conv, d'⟩) :=
  ⟨rfl, h.survey, State.blocks_of_outline h.outline⟩

private theorem Alike.convertCode (code : Text) :
    Alike conv (r.convertCode ⟨conv, d⟩ line code).2 (r'.convertCode ⟨conv, d'⟩ line code).2 ∧
      (r.convertCode ⟨conv, d⟩ line code).1.map Block.outline =
        (r'.convertCode ⟨conv, d'⟩ line code).1.map Block.outline := by
  have hcontext := h.ruleContext d d'
  refine ⟨⟨?_, ?_, ?_⟩, ?_⟩
  · rw [(sameNesting_convertCode ⟨conv, d⟩ line code r).outline,
      (sameNesting_convertCode ⟨conv, d'⟩ line code r').outline, h.outline]
  · rw [survey_convertCode, survey_convertCode, h.survey]
  · intro hconv
    rw [reports_convertCode, reports_convertCode, h.reports hconv,
      hcontext.opening?_of_indentation code hconv]
  · rw [opened_convertCode, opened_convertCode, hcontext.opening?_join code]

/-- What is left of a line opens blocks that are alike, and the runs go on alike. -/
theorem Alike.handle (code : Text) :
    Alike conv (r.handle ⟨conv, d⟩ line code).2 (r'.handle ⟨conv, d'⟩ line code).2 ∧
      (r.handle ⟨conv, d⟩ line code).1.map Block.outline =
        (r'.handle ⟨conv, d'⟩ line code).1.map Block.outline := by
  unfold Run.handle
  split
  · obtain ⟨hsymbols, hreports⟩ := writeComment_keeps ⟨conv, d⟩ line r
    obtain ⟨hsymbols', hreports'⟩ := writeComment_keeps ⟨conv, d'⟩ line r'
    refine ⟨⟨?_, ?_, ?_⟩, rfl⟩
    · rw [(sameNesting_writeComment ⟨conv, d⟩ line r).outline,
        (sameNesting_writeComment ⟨conv, d'⟩ line r').outline, h.outline]
    · rw [hsymbols, hsymbols', h.survey]
    · intro hconv
      rw [hreports, hreports', h.reports hconv]
  · exact h.convertCode d d' line code

variable (following : List Line)

/-- Closing blocks and writing what was held back is no report and tells nothing about names. -/
theorem Alike.entered :
    Alike conv (r.entered ⟨conv, d⟩ line following) (r'.entered ⟨conv, d'⟩ line following) ∧
      (r.entryOf ⟨conv, d⟩ line following).code = (r'.entryOf ⟨conv, d'⟩ line following).code ∧
        (r.entryOf ⟨conv, d⟩ line following).taken.map Block.outline =
          (r'.entryOf ⟨conv, d'⟩ line following).taken.map Block.outline := by
  have henter := State.enter_alike d.style d'.style conv line
    (rfl : Line.nextCode following = _) h.outline
  have hkeep (d : Dialect) (s : State) :
      (s.enter d.style conv line following).2.symbols = s.symbols :=
    (State.enter_alike d.style d.style conv line rfl rfl).symbols
  obtain ⟨houtline, hcode, htaken⟩ := henter.outline h.outline
  refine ⟨⟨houtline, ?_, h.reports⟩, hcode, htaken⟩
  change (r.state.enter d.style conv line following).2.symbols.survey =
    (r'.state.enter d'.style conv line following).2.symbols.survey
  rw [hkeep, hkeep, h.survey]

theorem Alike.converted :
    Alike conv (r.converted ⟨conv, d⟩ line following).2 (r'.converted ⟨conv, d'⟩ line following).2 ∧
      (r.converted ⟨conv, d⟩ line following).1.map Block.outline =
        (r'.converted ⟨conv, d'⟩ line following).1.map Block.outline := by
  obtain ⟨hentered, hcode, _⟩ := h.entered d d' line following
  unfold Run.converted
  rw [hcode]
  exact hentered.handle d d' line _

private theorem Alike.codeLine :
    Alike conv (r.codeLine ⟨conv, d⟩ line following) (r'.codeLine ⟨conv, d'⟩ line following) := by
  obtain ⟨_, hcode, htaken⟩ := h.entered d d' line following
  obtain ⟨hconverted, hopened⟩ := h.converted d d' line following
  have hleave := State.leave_alike d.style d'.style conv line
    (rfl : Line.nextCode following = _) hconverted.outline hcode htaken hopened
  have hkeep (d : Dialect) (r : Run) :
      (r.codeLine ⟨conv, d⟩ line following).state.symbols =
        (r.converted ⟨conv, d⟩ line following).2.state.symbols :=
    (State.leave_alike d.style d.style conv line rfl rfl rfl rfl rfl).symbols
  refine ⟨hleave.outline hconverted.outline hopened htaken, ?_, hconverted.reports⟩
  rw [hkeep, hkeep, hconverted.survey]

theorem Alike.step :
    Alike conv (r.step ⟨conv, d⟩ line following) (r'.step ⟨conv, d'⟩ line following) := by
  cases hl : line.isCode with
  | true =>
    rw [step_of_code _ hl, step_of_code _ hl]
    exact h.codeLine d d' line following
  | false =>
    obtain ⟨text, htext, hstep⟩ := step_of_not_code ⟨conv, d⟩ hl following r
    obtain ⟨text', htext', hstep'⟩ := step_of_not_code ⟨conv, d'⟩ hl following r'
    rw [hstep, hstep']
    split
    · exact ⟨h.outline, h.survey, h.reports⟩
    · exact ⟨h.outline, h.survey, h.reports⟩

private theorem Alike.passage :
    (r.passage ⟨conv, d⟩ line following).NestsAlike (r'.passage ⟨conv, d'⟩ line following) := by
  have hmet := State.nestsAlike_of_outline h.outline
  have hleft := State.nestsAlike_of_outline (h.step d d' line following).outline
  unfold Run.passage
  cases hl : line.isCode with
  | false => exact ⟨hmet, hmet, hleft, hleft, rfl⟩
  | true =>
    obtain ⟨hentered, _⟩ := h.entered d d' line following
    obtain ⟨hconverted, hopened⟩ := h.converted d d' line following
    have hisSome := congrArg Option.isSome hopened
    rw [Option.isSome_map, Option.isSome_map] at hisSome
    exact ⟨hmet, State.nestsAlike_of_outline hentered.outline,
      State.nestsAlike_of_outline hconverted.outline, hleft, hisSome⟩

private theorem Alike.steps (lines : List Line) :
    Alike conv (steps ⟨conv, d⟩ lines r) (steps ⟨conv, d'⟩ lines r') ∧
      List.Forall₂ Passage.NestsAlike (passages ⟨conv, d⟩ lines r) (passages ⟨conv, d'⟩ lines r') := by
  induction lines generalizing r r' with
  | nil => exact ⟨h, .nil⟩
  | cons line following ih =>
    obtain ⟨hsteps, hpassages⟩ := ih (h.step d d' line following)
    exact ⟨hsteps, .cons (h.passage d d' line following) hpassages⟩

omit h

private theorem alike_start (lines : List Line) :
    Alike conv (start ⟨conv, d⟩ lines) (start ⟨conv, d'⟩ lines) :=
  ⟨rfl, rfl, fun _ => rfl⟩

/-- Whatever the lines, runs in two dialects pass every line with their blocks open alike: the kinds
of their blocks differ at most as function and procedure do, and columns, braces and pending chains
are equal. Each line opens a block in both runs or in neither. Runs over indented sources also report
the same lines, in the same order. -/
theorem dialects_nest_alike (conv : Convention) (d d' : Dialect) :
    (∀ lines : List Line,
      List.Forall₂ Passage.NestsAlike (passages ⟨conv, d⟩ lines (start ⟨conv, d⟩ lines))
        (passages ⟨conv, d'⟩ lines (start ⟨conv, d'⟩ lines))) ∧
      (conv = .indentation →
        (∀ lines, (ofLines ⟨conv, d⟩ lines).reports = (ofLines ⟨conv, d'⟩ lines).reports) ∧
          ∀ source, (convert ⟨conv, d⟩ source).reports = (convert ⟨conv, d'⟩ source).reports) := by
  refine ⟨fun lines => ((alike_start d d' lines).steps d d' lines).2, ?_⟩
  intro hconv
  have hreports (lines : List Line) :
      (ofLines ⟨conv, d⟩ lines).reports = (ofLines ⟨conv, d'⟩ lines).reports :=
    ((alike_start d d' lines).steps d d' lines).1.reports hconv
  refine ⟨hreports, ?_⟩
  intro source
  unfold convert
  split
  · rfl
  · exact congrArg List.reverse (hreports _)

/-- A method is a procedure in one dialect and a function in the other; a constant and an unsupported
line come out differently and are reported alike. -/
theorem dialects_nest_alike_procedure :
    let method : Line := ⟨1, .code, [], 0, "static void show() \x7b", none⟩
    let p := (start ⟨.braces, .cambridge⟩ [method]).passage ⟨.braces, .cambridge⟩ method []
    let q := (start ⟨.braces, .ib⟩ [method]).passage ⟨.braces, .ib⟩ method []
    let lines : List Line :=
      [⟨1, .code, [], 0, "LIMIT = 3", none⟩, ⟨2, .code, [], 0, "raise LIMIT", none⟩]
    (p.left.topKind = some .procedure ∧ q.left.topKind = some .function ∧ p.NestsAlike q) ∧
      (ofLines ⟨.indentation, .cambridge⟩ lines).state.output ≠
        (ofLines ⟨.indentation, .ib⟩ lines).state.output ∧
      (ofLines ⟨.indentation, .cambridge⟩ lines).reports = [.ofLine "raise LIMIT" 2] ∧
        (ofLines ⟨.indentation, .ib⟩ lines).reports = [.ofLine "raise LIMIT" 2] := by
  intro method p q lines
  obtain ⟨hnest, _⟩ := dialects_nest_alike .braces .cambridge .ib
  obtain ⟨hpq, _⟩ := List.forall₂_cons.mp (hnest [method])
  obtain ⟨hreports, _⟩ := (dialects_nest_alike .indentation .cambridge .ib).2 rfl
  have hcambridge : (ofLines ⟨.indentation, .cambridge⟩ lines).reports =
      [.ofLine "raise LIMIT" 2] := by
    decide +kernel
  refine ⟨⟨by decide +kernel, by decide +kernel, hpq⟩, by decide +kernel, hcambridge, ?_⟩
  rw [← hreports lines, hcambridge]

end Run

end Pseudocode
