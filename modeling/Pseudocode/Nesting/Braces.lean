import Pseudocode.Expr
import Pseudocode.Line
import Pseudocode.Nesting.Basic

/-! # Nesting of braced sources

Every open block either owns a brace or is braceless, and then its body is the next statement. When
a body ends and the chain of its block goes on, the block stays open without a brace until the line
that continues it. -/

namespace Pseudocode.Braces

open Text

def continuation? (code : Text) : Option Kind :=
  let code := trimStart code
  if Name.beginsWith "else" code then
    if Name.beginsWith "if" (trimStart (code.drop 4)) then some .elseIfBranch else some .elseBranch
  else if Name.beginsWith "catch" code then some .catchBranch
  else if Name.beginsWith "finally" code then some .finallyBranch
  else none

/-- Whether the chain of the innermost block goes on with the code `next`. -/
def chainContinues (s : State) (next : Text) : Bool :=
  match s.topKind, continuation? next with
  | some top, some kind => top.accepts kind
  | some .repeatLoop, none => Name.beginsWith "while" (trimStart next)
  | _, _ => false

/-- Ends the body of the innermost block: the block is kept for its chain or closed, and with it the
braceless blocks of which it was the body. At most `n` blocks are closed. -/
def finishBodies (st : Style) (next : Text) : Nat → State → State
  | 0, s => s
  | n + 1, s =>
    if chainContinues s next then { s.note (.chainContinues s.topKind) with chainPending := true }
    else
      let s := s.close st
      if s.topIsBraceless then finishBodies st next n s else s

def finishBody (st : Style) (next : Text) (s : State) : State :=
  finishBodies st next s.blocks.length s

def closeUnfilledMany (st : Style) : Nat → State → State
  | 0, s => s
  | n + 1, s => if s.topIsBraceless then closeUnfilledMany st n (s.close st) else s

def closeUnfilled (st : Style) (s : State) : State := closeUnfilledMany st s.blocks.length s

/-- A pending chain that does not go on after all is finished. -/
def dropPending (st : Style) (s : State) : State :=
  if s.chainPending then finishBody st [] { s with chainPending := false } else s

def closeBrace (st : Style) (line : Nat) (next : Text) (s : State) : State :=
  let s := dropPending st s
  match s.braces with
  | [] => s.note (.strayBrace line)
  | owned :: outer =>
    let s := { s with braces := outer }
    if owned then finishBody st next (closeUnfilled st s) else s

/-- Takes the closing braces that begin a line; `following` is the code of the next line. -/
def closeLeading (st : Style) (line : Nat) (following : Text) : Nat → Text → State → Text × State
  | 0, code, s => (code, s)
  | n + 1, code, s =>
    match after? "\x7d" code with
    | none => (code, s)
    | some rest =>
      let rest := trimStart rest
      let next := if rest.isEmpty then following else rest
      closeLeading st line following n rest (closeBrace st line next s)

/-- The condition between the outermost parentheses of the tail of a repetition. -/
def tailCondition? (rest : Text) : Option Text :=
  if Name.beginsWith "while" rest && endsWith ";" rest then
    match splitAt? "(" rest with
    | some (_, tail) =>
      match (tail.reverse.dropWhile (· != ')')) with
      | _ :: cond => some cond.reverse
      | [] => none
    | none => none
  else none

def closeRepeat? (st : Style) (rest : Text) (s : State) : Option State :=
  match s.blocks, tailCondition? rest with
  | b :: outer, some cond =>
    if b.kind = .repeatLoop then
      let setting : Setting := ⟨st, .braces, s.symbols⟩
      let exit := st.keyword .notWord ++ " (" ++ setting.expr cond ++ ")"
      some ({ s with blocks := { b with exitCondition := some exit } :: outer }.close st)
    else none
  | _, _ => none

def checkOrphan (line : Nat) (rest : Text) (s : State) : State :=
  match continuation? rest with
  | some kind => s.note (.orphan line kind s.topKind)
  | none => s

/-- Goes on with a pending chain: the tail of a repetition, a further branch, or neither. -/
def enterPending (st : Style) (line : Nat) (following rest : Text) (s : State) : Entry × State :=
  match closeRepeat? st rest s with
  | some s => ({ code := [] }, if s.topIsBraceless then finishBody st following s else s)
  | none =>
    match continuation? rest with
    | some kind =>
      let (taken, s) := s.take kind line
      ({ code := rest, taken }, s)
    | none => ({ code := rest }, finishBody st [] s)

/-- Closes what a code line ends, and takes away the branch that it continues. -/
def enter (st : Style) (line : Line) (following : Text) (s : State) : Entry × State :=
  let code := trimStart line.code
  let (rest, s) := closeLeading st line.number following code.length code s
  if s.chainPending && !rest.isEmpty then
    enterPending st line.number following rest { s with chainPending := false }
  else ({ code := rest }, checkOrphan line.number rest s)

def openBlock (b : Block) (opens : Nat) (s : State) : State :=
  if 0 < opens then
    let s := s.push { b with braceless := false }
    { s with braces := true :: s.braces }
  else (s.note (.openedBraceless b.kind)).push { b with braceless := true }

def closeMany (st : Style) (line : Nat) (following : Text) : Nat → State → State
  | 0, s => s
  | n + 1, s => closeMany st line following n (closeBrace st line following s)

/-- Settles the braces of a line and the block that it opened. A whole statement is the body of a
braceless block; a branch that was taken away and not replaced ends its chain. -/
def leave (st : Style) (line : Line) (following : Text) (entry : Entry) (opened : Option Block)
    (s : State) : State :=
  let (opens, closes) := braceCounts entry.code
  let s := match opened, entry.taken with
    | some b, _ => openBlock b opens s
    | none, some b => finishBody st [] (s.push b)
    | none, none => s
  let unowned := if opened.isSome then opens - 1 else opens
  let s := { s with braces := List.replicate unowned false ++ s.braces }
  let s := closeMany st line.number following closes s
  if opened.isNone && entry.taken.isNone && !entry.code.isEmpty && opens = closes && !s.chainPending
      && s.topIsBraceless then
    finishBody st following s
  else s

end Pseudocode.Braces
