import Pseudocode.Pattern
import Pseudocode.Rule.Basic

/-! # Classes, routines and results in Python -/

namespace Pseudocode.Indented

open Text Pattern Converting

def classPattern : Pattern :=
  "class" ++ gap1 ++ .group 1 name ++ gap
    ++ opt ("(" ++ gap ++ .group 2 (.fewest (noneOf ")")) ++ gap ++ ")") ++ gap ++ ":"

def defPattern : Pattern :=
  "def" ++ gap1 ++ .group 1 name ++ gap ++ "(" ++ .group 2 rest ++ ")" ++ gap
    ++ opt ("->" ++ gap ++ .group 3 upto1) ++ gap ++ ":"

def returnPattern : Pattern := "return" ++ .wordEdge ++ gap ++ .group 1 rest

def lambdaPattern : Pattern :=
  .group 1 name ++ gap ++ "=" ++ gap ++ "lambda" ++ .wordEdge ++ gap ++ .group 2 (.most (noneOf ":"))
    ++ ":" ++ gap ++ .group 3 rest1

def parameterName (param : Text) : Text :=
  trim ((trim (upTo ":" (upTo "=" param))).dropWhile (· == '*'))

def parameterNames (list : Text) : List Text :=
  ((splitTopLevel ',' list).map parameterName).filter fun p => !p.isEmpty && p != "/"

/-- The first base class that is worth writing. -/
def baseClass? (bases : Option Text) : Option Text := do
  let list ← bases
  let base ← (splitTopLevel ',' list).head?
  if base.isEmpty || base = "object" then none else some base

def fieldLines (cx : Context) (cls : Text) : List Text :=
  if cx.style.objectModel then
    ((cx.symbols.survey.fields.get? cls).getD []).map fun field =>
      cx.inner (cx.kw .privateWord ++ " " ++ field ++ " : " ++ (DataType.ofName field).name)
  else []

def classRule : Converter := .reading fun cx code => do
  let m ← classPattern.whole? code
  let header := cx.kw .classWord ++ " " ++ m.group 1
  let header := match baseClass? (m.group? 2) with
    | some base => header ++ " " ++ cx.kw .inheritsWord ++ " " ++ base
    | none => header
  return .header (cx.line header :: fieldLines cx (m.group 1)) (.ofClass (m.group 1))

def routineOf (cx : Context) (name params : Text) : Routine where
  headerIndex := cx.written
  name := name
  inClass := cx.openClass?
  params := parameterNames params
  isMethod := cx.openClass?.isSome
  isConstructor := cx.openClass?.isSome && name = "__init__"

/-- A routine opens with a provisional header; an annotated return type is noted. -/
def defRule : Converter where
  convert code := do
    let m ← defPattern.whole? code
    let cx ← context
    let r := routineOf cx (m.group 1) (m.group 2)
    note fun n => match (m.group? 3).bind DataType.ofPython? with
      | some type => { n with returnTypes := n.returnTypes.set r.key type.name }
      | none => n
    return .header [cx.line (r.header cx.style false none)] (.ofRoutine r)

def unassignedType? (cx : Context) (value : Text) : Option Text :=
  if cx.style.typedParameters && Name.isIdentifier value && !isOneOf ["None", "self"] value
      && !cx.symbols.survey.names.contains value then
    some (DataType.ofName value).name
  else none

/-- The type of a returned value: from the expression, from what is known of a variable, or from its
name. -/
def returnType? (cx : Context) (value : Text) : Option Text :=
  (DataType.ofExpression? value).map DataType.name <|> cx.notes.types.get? value
    <|> unassignedType? cx value

def returnRule : Converter where
  convert code := do
    let m ← returnPattern.whole? code
    let cx ← context
    match trim (m.group 1) with
    | [] => return .statement [cx.line (cx.kw .returnWord)]
    | value =>
      note (·.markReturn cx.blocks (returnType? cx value))
      let cx ← context
      return .statement [cx.line (cx.kw .returnWord ++ " " ++ cx.expr value)]

def lambdaRule : Converter where
  convert code := do
    let m ← lambdaPattern.whole? code
    note (·.addLambda (m.group 1))
    let cx ← context
    let r : Routine := { name := m.group 1, params := parameterNames (m.group 2) }
    let type := (DataType.ofExpression? (m.group 3)).map DataType.name
    return .statement
      [cx.line (r.header cx.style true type),
       cx.inner (cx.kw .returnWord ++ " " ++ cx.expr (m.group 3)),
       cx.line (cx.style.terminator (r.kind cx.style true) none none),
       []]

end Pseudocode.Indented
