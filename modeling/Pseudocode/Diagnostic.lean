import Pseudocode.Options

/-! # Diagnostics: stable codes and reports of unsupported lines -/

namespace Pseudocode

open Text

inductive Category where
  | configuration
  | structural
  | unsupported
  deriving DecidableEq, Repr

def Category.name : Category → Text
  | .configuration => "configuration"
  | .structural => "structure"
  | .unsupported => "unsupported"

inductive Code where
  | unknownConvention
  | unknownDialect
  | invalidOptions
  /-- A line is indented less than its block and more than the block around it. -/
  | unbalancedDedent
  /-- A closing brace with nothing open. -/
  | strayClosingBrace
  /-- A further branch of a chain where no such chain is open. -/
  | orphanContinuation
  /-- A line is indented more than its block. -/
  | unexpectedIndent
  /-- A block was to be closed and none was open. -/
  | stackInvariant
  | unsupportedConstruct
  deriving DecidableEq, Repr

namespace Code

def all : List Code :=
  [unknownConvention, unknownDialect, invalidOptions, unbalancedDedent, strayClosingBrace,
   orphanContinuation, unexpectedIndent, stackInvariant, unsupportedConstruct]

/-- Codes below 20 are about configuration, those below 40 about nesting. -/
def number : Code → Nat
  | unknownConvention => 1
  | unknownDialect => 2
  | invalidOptions => 3
  | unbalancedDedent => 20
  | strayClosingBrace => 21
  | orphanContinuation => 22
  | unexpectedIndent => 23
  | stackInvariant => 30
  | unsupportedConstruct => 40

def category (c : Code) : Category :=
  if c.number < 20 then .configuration else if c.number < 40 then .structural else .unsupported

def name (c : Code) : Text :=
  let digits := Nat.toDigits 10 c.number
  "PSC" ++ List.replicate (3 - digits.length) '0' ++ digits

end Code

def OptionsError.code : OptionsError → Code
  | .unknownConvention _ => .unknownConvention
  | .unknownDialect _ => .unknownDialect
  | .malformed _ => .invalidOptions

inductive Construct where
  | comprehension
  | lambda
  | decorator
  | withStatement
  | loopControl
  | statement
  deriving DecidableEq, Repr

namespace Construct

/-- What a comprehension looks like, apart from the brackets around it. -/
def hasForIn (s : Text) : Bool := has " for " s && has " in " s

def ofLine (line : Text) : Construct :=
  let t := trim line
  if startsWith "@" t then decorator
  else if startsWith "with " t then withStatement
  else if isOneOf ["break", "continue"] (dropEndWhile (· == ';') t) then loopControl
  else if has "lambda" t || has "->" t then lambda
  else if (t.contains '[' || t.contains '{' || t.contains '(') && hasForIn t then comprehension
  else statement

def name : Construct → Text
  | comprehension => "comprehension"
  | lambda => "lambda"
  | decorator => "decorator"
  | withStatement => "with statement"
  | loopControl => "loop control"
  | statement => "statement"

end Construct

/-- One report per line that is only marked in the output. -/
structure Report where
  construct : Construct
  line : Text
  number : Nat
  deriving DecidableEq, Repr

def Report.ofLine (line : Text) (number : Nat) : Report := ⟨.ofLine line, line, number⟩

def Report.message (r : Report) : Text :=
  Code.unsupportedConstruct.name ++ ": unsupported " ++ r.construct.name ++ " at line "
    ++ Nat.toDigits 10 r.number ++ ": " ++ r.line

end Pseudocode
