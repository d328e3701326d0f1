import Pseudocode.Line
import Pseudocode.Name
import Pseudocode.Nesting.Basic

/-! # Nesting of indented sources

A header waits for its body, which begins with the first line that is indented deeper. Every body
that has begun has its column on a stack, so a line that is indented less closes blocks. -/

namespace Pseudocode.Indentation

open Text

def continuation? (code : Text) : Option Kind :=
  if !endsWith ":" code then none
  else if Name.beginsWith "elif" code then some .elseIfBranch
  else if Name.beginsWith "else" code then some .elseBranch
  else if Name.beginsWith "except" code then some .catchBranch
  else if Name.beginsWith "finally" code then some .finallyBranch
  else none

def leaveBody (st : Style) (s : State) : State := { s with indents := s.indents.tail }.close st

def leaveBodiesUntil (st : Style) (stop : List Nat → Bool) : Nat → State → State
  | 0, s => s
  | n + 1, s => if stop s.indents then s else leaveBodiesUntil st stop n (leaveBody st s)

/-- The column around the innermost body is no deeper than `cur`. -/
def chainReached (cur : Nat) : List Nat → Bool
  | _ :: outer :: _ => outer ≤ cur
  | _ => true

/-- The innermost column is no deeper than `cur`, or no body is open. -/
def bodyReached (cur : Nat) : List Nat → Bool
  | top :: _ :: _ => top ≤ cur
  | _ => true

/-- Begins the body of a waiting header, or closes the header if the line does not belong to it. -/
def settleHeader (st : Style) (line : Line) (s : State) : State :=
  if s.blocks.length < s.indents.length then s
  else if s.level < line.columns then
    { s.note (.bodyBegins line.number line.columns) with indents := line.columns :: s.indents }
  else
    let accepted := match s.topKind, continuation? line.code with
      | some top, some next => top.accepts next
      | _, _ => false
    if accepted then s else (s.note (.bodyMissing line.number)).close st

/-- Warns of a line that is indented deeper than the innermost body. -/
def checkAligned (line : Line) (popped : Bool) (s : State) : State :=
  if s.level < line.columns then
    s.note (.misaligned (if popped then .unbalancedDedent else .unexpectedIndent) line.number
      line.columns s.level)
  else s

def enter (st : Style) (line : Line) (s : State) : Entry × State :=
  let s := settleHeader st line s
  match continuation? line.code with
  | some kind =>
    let s := leaveBodiesUntil st (chainReached line.columns) s.indents.length s
    let (taken, s) := s.take kind line.number
    ({ code := line.code, taken }, s)
  | none =>
    let left := leaveBodiesUntil st (bodyReached line.columns) s.indents.length s
    ({ code := line.code }, checkAligned line (left.indents.length < s.indents.length) left)

/-- Opens the block that a line opened; a branch that was taken away and not replaced goes on. -/
def leave (entry : Entry) (opened : Option Block) (s : State) : State :=
  match opened, entry.taken with
  | some b, _ => s.push b
  | none, some b => s.push b
  | none, none => s

end Pseudocode.Indentation
