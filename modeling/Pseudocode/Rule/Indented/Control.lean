import Pseudocode.Pattern
import Pseudocode.Rule.Phrase

/-! # Branches, loops and exception handling in Python -/

namespace Pseudocode.Indented

open Text Pattern

def conditionPattern (keyword : String) : Pattern :=
  keyword ++ .wordEdge ++ gap ++ .group 1 upto1 ++ gap ++ ":"

def wordPattern (keyword : String) : Pattern := keyword ++ gap ++ ":"

def rangePattern : Pattern :=
  "for" ++ gap1 ++ .group 1 name ++ gap1 ++ "in" ++ gap1 ++ "range" ++ gap ++ "(" ++ .group 2 rest ++ ")"
    ++ gap ++ ":"

def forEachPattern : Pattern :=
  "for" ++ gap1 ++ .group 1 name ++ gap1 ++ "in" ++ gap1 ++ .group 2 upto1 ++ gap ++ ":"

def exceptPattern : Pattern := "except" ++ .wordEdge ++ gap ++ .group 1 upto ++ gap ++ ":"

def ifRule : Converter := .reading fun cx code => do
  let m ← (conditionPattern "if").whole? code
  return .header [cx.ifHeader (m.group 1)] { kind := .ifBranch }

def elseIfRule : Converter := .reading fun cx code => do
  let m ← (conditionPattern "elif").whole? code
  return .header [cx.elseIfHeader (m.group 1)] { kind := .elseIfBranch }

def elseRule : Converter := .reading fun cx code => do
  guard ((wordPattern "else").fits code)
  return cx.wordHeader .elseWord .elseBranch

/-- Bounds and step of a counting loop, both bounds included. -/
structure Bounds where
  start : Text
  stop : Text
  step : Option Text := none

/-- The bounds that the arguments of a range stand for; a range excludes its end, which lies below it
for a step that `isDown` recognises, given as written and in the spelling of the dialect. -/
def rangeBounds? (cx : Context) (isDown : Text → Text → Bool) (args : Text) : Option Bounds :=
  match splitTopLevel ',' args with
  | [stop] => some { start := "0", stop := minusOne (cx.expr stop) }
  | [start, stop] => some { start := cx.expr start, stop := minusOne (cx.expr stop) }
  | [start, stop, step] =>
    let last := if isDown step (cx.expr step) then plusOne (cx.expr stop) else minusOne (cx.expr stop)
    some { start := cx.expr start, stop := last, step := some (cx.expr step) }
  | _ => none

def rangeRule : Converter := .reading fun cx code => do
  let m ← rangePattern.whole? code
  let b ← rangeBounds? cx (fun _ step => startsWith "-" (trim step)) (m.group 2)
  return .header [cx.line (cx.style.forHeader (m.group 1) b.start b.stop b.step)] (.loop (m.group 1))

def forEachRule : Converter := .reading fun cx code => do
  let m ← forEachPattern.whole? code
  return cx.collectionLoop (m.group 1) (cx.expr (m.group 2))

def whileRule : Converter := .reading fun cx code => do
  let m ← (conditionPattern "while").whole? code
  return .header [cx.whileHeader (m.group 1)] { kind := .whileLoop }

def tryRule : Converter := .reading fun cx code => do
  guard ((wordPattern "try").fits code)
  return cx.wordHeader .tryWord .tryBranch

/-- The exceptions of a handler, without the name they are bound to and the parentheses around
them. -/
def caught (clause : Text) : Text :=
  dropEndWhile (· == ')') ((trim (upTo " as " (trim clause))).dropWhile (· == '('))

def exceptRule : Converter := .reading fun cx code => do
  let m ← exceptPattern.whole? code
  let exception := caught (m.group 1)
  let text :=
    if exception.isEmpty then cx.kw .catchWord else cx.kw .catchWord ++ " " ++ exception
  return .header [cx.line text] { kind := .catchBranch }

def finallyRule : Converter := .reading fun cx code => do
  guard ((wordPattern "finally").fits code)
  return cx.wordHeader .finallyWord .finallyBranch

end Pseudocode.Indented
