import Pseudocode.Expr
import Pseudocode.Header

/-! # Translation rules

A rule is a program on the state of the conversion. It looks at one line of code and declines it or says what is
written for it, and it may note what it learns about names. What a rule changes before it declines stays changed. -/

namespace Pseudocode

open Text

/-- What a rule sees besides the line. -/
structure Context extends Setting where
  /-- Open blocks, innermost first. -/
  blocks : List Block
  /-- Number of output lines so far. -/
  written : Nat
  /-- Indentation of the lines to be written. -/
  indent : Text

namespace Context

def notes (cx : Context) : Notes := cx.symbols.notes

def line (cx : Context) (text : Text) : Text := cx.indent ++ text

def inner (cx : Context) (text : Text) : Text := cx.indent ++ spaces cx.style.indentWidth ++ text

def assign (cx : Context) (target value : Text) : Text := cx.line (cx.style.assignment target value)

def assignInner (cx : Context) (target value : Text) : Text :=
  cx.inner (cx.style.assignment target value)

def openClass? (cx : Context) : Option Text := Pseudocode.openClass? cx.blocks

def declaration (cx : Context) (name type : Text) : Text :=
  cx.line (cx.kw .declareWord ++ " " ++ name ++ " : " ++ type)

end Context

def State.context (s : State) (st : Style) (conv : Convention) (indent : Text) : Context :=
  { style := st, convention := conv, symbols := s.symbols, blocks := s.blocks
    written := s.output.length, indent }

def State.withNotes (s : State) (notes : Notes) : State := s.withSymbols { s.symbols with notes }

/-! ### Programs of rules -/

/-- What is written for a line, and the block that it opens. -/
structure Translation where
  lines : List Text
  opens : Option Block := none
  deriving DecidableEq, Repr

namespace Translation

def nothing : Translation := { lines := [] }

def statement (lines : List Text) : Translation := { lines }

def header (lines : List Text) (b : Block) : Translation := { lines, opens := some b }

end Translation

/-- What a rule finds besides the state. -/
structure Site where
  style : Style
  convention : Convention
  indent : Text

/-- Programs that may decline. The state is kept beneath, so that declining undoes nothing. -/
abbrev Converting := ReaderT Site (OptionT (StateM State))

instance : MonadLift Option Converting where
  monadLift o := fun _ => OptionT.mk (pure o)

namespace Converting

variable {α : Type}

def run (x : Converting α) (site : Site) (s : State) : Option α × State := (x site).run.run s

def context : Converting Context := do
  let site ← read
  let s ← get
  return s.context site.style site.convention site.indent

def note (f : Notes → Notes) : Converting Unit := modify fun s => s.withNotes (f s.symbols.notes)

/-- Declares a variable unless its type is known. -/
def declareOnce (name type text : Text) : Converting (List Text) := do
  let cx ← context
  if cx.notes.types.has name then return []
  note (·.addType name type)
  return [text]

end Converting

structure Converter where
  convert : Text → Converting Translation

namespace Converter

def reading (f : Context → Text → Option Translation) : Converter where
  convert code := do f (← Converting.context) code

end Converter

/-! ### Outcomes in a given context -/

/-- A translation with what is known of the names after it. -/
structure Outcome extends Translation where
  notes : Notes
  deriving DecidableEq, Repr

namespace Context

def site (cx : Context) : Site := { style := cx.style, convention := cx.convention, indent := cx.indent }

/-- A state in which a line has this context. -/
def state (cx : Context) : State :=
  { blocks := cx.blocks, symbols := cx.symbols, output := List.replicate cx.written [] }

end Context

/-- What a rule makes of a line in a context. -/
def Converter.outcome? (c : Converter) (cx : Context) (code : Text) : Option Outcome :=
  match (c.convert code).run cx.site cx.state with
  | (some translation, s) => some { translation with notes := s.symbols.notes }
  | (none, _) => none

instance : CoeFun Converter fun _ => Context → Text → Option Outcome := ⟨Converter.outcome?⟩

structure Rule where
  name : Text
  apply : Converter

end Pseudocode
