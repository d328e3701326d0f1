import Pseudocode.Nesting.Braces
import Pseudocode.Nesting.Indentation
import Pseudocode.Rule.Book
import Pseudocode.Survey

/-! # Conversion of a whole source

The source is cut into logical lines and surveyed. Then every line closes the blocks it ends, is
converted by the first rule that accepts it, and opens the block that the rule asks for. -/

namespace Pseudocode

open Text

/-- Closes what a code line ends; `following` are the lines after it. -/
def State.enter (st : Style) (conv : Convention) (line : Line) (following : List Line) (s : State) :
    Entry × State :=
  match conv with
  | .indentation => Indentation.enter st line s
  | .braces => Braces.enter st line (Line.nextCode following) s

def State.leave (st : Style) (conv : Convention) (line : Line) (following : List Line) (entry : Entry)
    (opened : Option Block) (s : State) : State :=
  match conv with
  | .indentation => Indentation.leave entry opened s
  | .braces => Braces.leave st line (Line.nextCode following) entry opened s

def State.survey (conv : Convention) (lines : List Line) (s : State) : State :=
  let symbols := s.symbols.surveyed conv lines
  { s with symbols }.note
    (.surveyed symbols.survey.routines.length symbols.survey.classes.length
      symbols.survey.records.entries.length symbols.survey.names.length)

/-- The outcome of the rule that accepts some code, and the state that it leaves. -/
def State.convert? (st : Style) (conv : Convention) (indent code : Text) (s : State) :
    Option ((Text × Outcome) × State) :=
  match s.dispatch st conv indent code with
  | (some (rule, translation), s) => some ((rule, { translation with notes := s.symbols.notes }), s)
  | (none, _) => none

structure Run where
  state : State := {}
  /-- Blank lines that are written only after the blocks that the next code line ends. -/
  held : Nat := 0
  /-- Reports so far, latest first. -/
  reports : List Report := []
  deriving DecidableEq, Repr

namespace Run

/-- Writes the blank lines that were held back. -/
def release (r : Run) : Run :=
  { r with state := r.state.emitAll (List.replicate r.held []), held := 0 }

def convertCode (o : Options) (line : Line) (code : Text) (r : Run) : Option Block × Run :=
  let st := o.dialect.style
  let indent := st.indent r.state.depth
  let comment := line.comment.getD []
  match r.state.dispatch st o.convention indent code with
  | (some (rule, translation), s) =>
    let s := (s.note (.converted line.number rule)).emitAll (attachComment comment translation.lines)
    (translation.opens, { r with state := s })
  | (none, s) =>
    let report := Report.ofLine line.code line.number
    let s := (s.note (.unmatched report)).emitAll (attachComment comment [unsupportedLine indent code])
    (none, { r with state := s, reports := report :: r.reports })

def writeComment (o : Options) (line : Line) (r : Run) : Run :=
  match line.comment with
  | some (c :: cs) =>
    let indent := o.dialect.style.indent r.state.depth
    { r with state := r.state.emit (indent ++ "// " ++ c :: cs) }
  | _ => r

/-- Takes one code line from its closings to its opening. -/
def codeLine (o : Options) (line : Line) (following : List Line) (r : Run) : Run :=
  let st := o.dialect.style
  let (entry, s) := r.state.enter st o.convention line following
  let r := { r with state := s }.release
  let (opened, r) :=
    if entry.code.isEmpty then (none, r.writeComment o line) else r.convertCode o line entry.code
  { r with state := r.state.leave st o.convention line following entry opened }

/-- Takes one logical line. In indented sources blank lines wait for the next line, because blocks
may end before it. -/
def step (o : Options) (line : Line) (following : List Line) (r : Run) : Run :=
  if o.convention = .indentation && line.kind = .blank then { r with held := r.held + 1 }
  else match line.passthrough? with
    | some text =>
      let r := r.release
      { r with state := r.state.emit text }
    | none => r.codeLine o line following

def steps (o : Options) : List Line → Run → Run
  | [], r => r
  | line :: following, r => steps o following (r.step o line following)

def finish (o : Options) (r : Run) : Run :=
  { r with state := r.state.closeAll o.dialect.style }.release

def ofLines (o : Options) (lines : List Line) : Run :=
  let s := (State.survey o.convention lines {}).note (.converting o lines.length)
  (steps o lines { state := s }).finish o

end Run

/-- What comes of a source: the text, a report for each unsupported line, and the events. -/
structure Result where
  output : Text
  reports : List Report
  events : List Event
  deriving DecidableEq, Repr

def Run.result (r : Run) : Result :=
  { output := join "\n" r.state.output, reports := r.reports.reverse, events := r.state.log.reverse }

/-- Converts a source. Nothing comes of a blank one. -/
def convert (o : Options) (source : Text) : Result :=
  if (trim source).isEmpty then { output := [], reports := [], events := [] }
  else (Run.ofLines o (Line.ofSource o.convention source)).result

end Pseudocode
