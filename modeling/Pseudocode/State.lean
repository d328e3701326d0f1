import Pseudocode.Event
import Pseudocode.Symbols

/-! # The state of a conversion -/

namespace Pseudocode

structure State where
  /-- Open blocks, innermost first. -/
  blocks : List Block := []
  /-- Columns of the bodies that have begun, innermost first. -/
  indents : List Nat := [0]
  /-- Open braces, innermost first, each with whether it belongs to a block. -/
  braces : List Bool := []
  /-- The body of the innermost block has ended, and the next line goes on with its chain. -/
  chainPending : Bool := false
  /-- Depth of the innermost open try chain. -/
  tryDepth : Option Nat := none
  symbols : Symbols := {}
  output : List Text := []
  /-- Events so far, latest first. -/
  log : List Event := []
  deriving DecidableEq, Repr

namespace State

/-- Nesting depth, by which output is indented. -/
def depth (s : State) : Nat := s.blocks.length

def topKind (s : State) : Option Kind := s.blocks.head?.map (·.kind)

def level (s : State) : Nat := s.indents.head?.getD 0

def topIsBraceless (s : State) : Bool := s.blocks.head?.any (·.braceless)

def emit (s : State) (line : Text) : State := { s with output := s.output ++ [line] }

def emitAll (s : State) (lines : List Text) : State := { s with output := s.output ++ lines }

def note (s : State) (e : Event) : State := { s with log := e :: s.log }

def withSymbols (s : State) (symbols : Symbols) : State := { s with symbols }

end State

/-- The class whose body is directly open. -/
def openClass? (blocks : List Block) : Option Text :=
  match blocks with
  | b :: _ => if b.kind = .classBody then b.name else none
  | [] => none

end Pseudocode
