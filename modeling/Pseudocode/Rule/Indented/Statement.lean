import Pseudocode.Pattern
import Pseudocode.Rule.Phrase

/-! # Statements of one line in Python -/

namespace Pseudocode.Indented

open Text Pattern Converting

def importPattern : Pattern :=
  oneOf ["import" ++ gap1 ++ .one (fun c => !isBlank c),
    "from" ++ gap1 ++ most1 (fun c => !isBlank c) ++ gap1 ++ "import" ++ .wordEdge]

def printPattern : Pattern := "print" ++ gap ++ "(" ++ .group 1 rest ++ ")"

/-- Arguments that only say how something is printed. -/
def printOption : Pattern := oneOf ["sep", "end", "file", "flush"] ++ gap ++ "="

def inputTarget : Pattern := .group 1 dottedName ++ gap ++ "=" ++ gap ++ .group 2 rest1

def conversionCall : Pattern :=
  .group 1 (oneOf ["int", "float", "str"]) ++ gap ++ "(" ++ .group 2 rest ++ ")"

def inputCall : Pattern := "input" ++ gap ++ "(" ++ .group 1 rest ++ ")"

def callee : Pattern := name ++ .many ("." ++ name) ++ gap

def passRule : Converter := .reading fun _ code => do
  guard (code = "pass")
  return .nothing

def importRule : Converter := .reading fun _ code => do
  guard (importPattern.leads code)
  return .nothing

def printRule : Converter := .reading fun cx code => do
  let m ← printPattern.whole? code
  let args := (splitTopLevel ',' (m.group 1)).filter fun a => !a.isEmpty && !printOption.leads a
  return cx.output (args.map cx.expr)

def conversionType (conversion : Text) : DataType :=
  if conversion = "int" then .integer else if conversion = "float" then .real else .string

def converted (value : Text) : Text × DataType :=
  match conversionCall.whole? value with
  | some m => (trim (m.group 2), conversionType (m.group 1))
  | none => (value, .string)

/-- The first parenthesis is the one that matches the last. -/
def isSingleCall (value : Text) : Bool :=
  (splitLastParens? value).map (·.1) = (splitAt? "(" value).map (·.1)

def inputRule : Converter where
  convert code := do
    let m ← inputTarget.whole? code
    let target := m.group 1
    let (value, type) := converted (trim (m.group 2))
    guard (isSingleCall value)
    let call ← inputCall.whole? value
    let prompt := trim (call.group 1)
    note (·.addType target type.name)
    let cx ← context
    let asked := if cx.style.promptInput && !prompt.isEmpty then
        [cx.line (cx.kw .outputWord ++ " " ++ cx.expr prompt)]
      else []
    return .statement (asked ++ [cx.line (cx.kw .inputWord ++ " " ++ target)])

def callRule : Converter := .reading fun cx code => do
  let _ ← callArguments? code
  let (before, _) ← splitLastParens? code
  guard (callee.fits before)
  return .statement [cx.callLine code]

end Pseudocode.Indented
