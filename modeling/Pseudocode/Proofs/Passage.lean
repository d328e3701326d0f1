import Pseudocode.Proofs.Lockstep

/-! # The passages of a run

A run takes one line after another. The passage of a line keeps the states through which the line led
the run, the block that the line took away and the block that its conversion opened. -/

namespace Pseudocode

/-- How a line led from one state to the next. A line without code takes and opens nothing. -/
structure Passage where
  /-- The state that the line met. -/
  met : State
  /-- The state after the blocks were closed that the line ends. -/
  entered : State
  /-- The state after the line was converted and written. -/
  converted : State
  /-- The state that the line left behind. -/
  left : State
  entry : Entry := { code := [] }
  opened : Option Block := none
  deriving DecidableEq, Repr

namespace Run

/-! ### The parts of a step -/

/-- The context in which the next code is converted. -/
def ruleContext (o : Options) (r : Run) : Context :=
  r.state.context o.dialect.style o.convention (o.dialect.style.indent r.state.depth)

theorem convertCode_of_some {o : Options} {code rule : Text} {r : Run} {outcome : Outcome}
    (h : (r.ruleContext o).convert? code = some (rule, outcome)) (line : Line) :
    r.convertCode o line code =
      (outcome.opens,
        { r with
          state := ((r.state.withNotes outcome.notes).note (.converted line.number rule)).emitAll
            (attachComment (line.comment.getD []) outcome.lines) }) := by
  unfold ruleContext at h
  simp only [convertCode, State.dispatch_eq, h]

theorem convertCode_of_none {o : Options} {code : Text} {r : Run}
    (h : (r.ruleContext o).convert? code = none) (line : Line) :
    r.convertCode o line code =
      (none,
        { r with
          state := (r.state.note (.unmatched (.ofLine line.code line.number))).emitAll
            (attachComment (line.comment.getD [])
              [unsupportedLine (o.dialect.style.indent r.state.depth) code])
          reports := .ofLine line.code line.number :: r.reports }) := by
  unfold ruleContext at h
  simp only [convertCode, State.dispatch_eq, h]

/-- Converts what is left of a code line, if anything is. -/
def handle (o : Options) (line : Line) (code : Text) (r : Run) : Option Block × Run :=
  if code.isEmpty then (none, r.writeComment o line) else r.convertCode o line code

/-- The run in which a code line is converted. -/
def entered (o : Options) (line : Line) (following : List Line) (r : Run) : Run :=
  { r with state := (r.state.enter o.dialect.style o.convention line following).2 }.release

/-- The entry with which a code line is converted. -/
def entryOf (o : Options) (line : Line) (following : List Line) (r : Run) : Entry :=
  (r.state.enter o.dialect.style o.convention line following).1

/-- The block that a code line opens, and the run in which the line has been written. -/
def converted (o : Options) (line : Line) (following : List Line) (r : Run) : Option Block × Run :=
  (r.entered o line following).handle o line (r.entryOf o line following).code

theorem codeLine_eq (o : Options) (line : Line) (following : List Line) (r : Run) :
    r.codeLine o line following =
      { (r.converted o line following).2 with
        state := (r.converted o line following).2.state.leave o.dialect.style o.convention line
          following (r.entryOf o line following) (r.converted o line following).1 } := rfl

theorem step_of_code (o : Options) {line : Line} (h : line.isCode = true) (following : List Line)
    (r : Run) : r.step o line following = r.codeLine o line following := by
  have hkind : line.kind = .code := by simpa [Line.isCode] using h
  simp [step, Line.passthrough?, hkind]

/-- A line without code is held back or written, after the blank lines that were held back. -/
theorem step_of_not_code (o : Options) {line : Line} (h : line.isCode = false)
    (following : List Line) (r : Run) :
    ∃ text, line.passthrough? = some text ∧
      r.step o line following =
        if o.convention = .indentation && line.kind = .blank then { r with held := r.held + 1 }
        else { r.release with state := r.release.state.emit text } := by
  have hpass : line.passthrough?.isSome := by
    rw [Line.isCode_eq_isNone_passthrough?] at h
    simpa using h
  obtain ⟨text, htext⟩ := Option.isSome_iff_exists.mp hpass
  refine ⟨text, htext, ?_⟩
  unfold step
  rw [htext]

private theorem sameNesting_handle (o : Options) (line : Line) (code : Text) (r : Run) :
    r.state.SameNesting (r.handle o line code).2.state := by
  unfold handle
  split
  · exact sameNesting_writeComment o line r
  · exact sameNesting_convertCode o line code r

theorem sameNesting_converted (o : Options) (line : Line) (following : List Line) (r : Run) :
    (r.state.enter o.dialect.style o.convention line following).2.SameNesting
      (r.converted o line following).2.state :=
  (sameNesting_release { r with
    state := (r.state.enter o.dialect.style o.convention line following).2 }).trans
      (sameNesting_handle o line _ _)

theorem sameNesting_step_of_not_code (o : Options) {line : Line} (h : line.isCode = false)
    (following : List Line) (r : Run) : r.state.SameNesting (r.step o line following).state := by
  obtain ⟨text, _, hstep⟩ := step_of_not_code o h following r
  rw [hstep]
  split
  · exact .refl _
  · exact (sameNesting_release r).trans (.emitAll _ [text])

/-! ### Passages -/

def passage (o : Options) (line : Line) (following : List Line) (r : Run) : Passage :=
  if line.isCode then
    { met := r.state
      entered := (r.state.enter o.dialect.style o.convention line following).2
      converted := (r.converted o line following).2.state
      left := (r.step o line following).state
      entry := r.entryOf o line following
      opened := (r.converted o line following).1 }
  else
    { met := r.state, entered := r.state, converted := (r.step o line following).state
      left := (r.step o line following).state }

/-- The passages of some lines, one for each. -/
def passages (o : Options) : List Line → Run → List Passage
  | [], _ => []
  | line :: following, r =>
    r.passage o line following :: passages o following (r.step o line following)

/-- The run before the first of some lines: they have been surveyed. -/
def start (o : Options) (lines : List Line) : Run :=
  { state := (State.survey o.convention lines {}).note (.converting o lines.length) }

theorem ofLines_eq (o : Options) (lines : List Line) :
    ofLines o lines = (steps o lines (start o lines)).finish o := rfl

end Run

end Pseudocode
