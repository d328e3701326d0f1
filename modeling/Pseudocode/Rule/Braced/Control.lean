import Pseudocode.Pattern
import Pseudocode.Rule.Phrase

/-! # Classes, methods, branches and loops in Java -/

namespace Pseudocode.Braced

open Text Pattern Converting

/-- The brace at the end of a header, which may stand elsewhere. -/
def brace : Pattern := gap ++ opt "\x7b"

/-! ### Classes and methods -/

def classPattern : Pattern :=
  modifiers ["public", "private", "protected", "abstract", "final", "static"] ++ "class" ++ gap1
    ++ .group 1 name ++ opt (gap ++ "<" ++ .most (noneOf ">") ++ ">")
    ++ opt (gap1 ++ "extends" ++ gap1 ++ .group 2 name)
    ++ opt (gap1 ++ "implements" ++ gap1 ++ fewest1 (fun c => wordOr ",<>" c || isBlank c)) ++ brace

def methodPattern : Pattern :=
  .group 1
      (modifiers ["public", "private", "protected", "static", "final", "abstract", "synchronized"])
    ++ opt (.group 2 (most1 (wordOr "<>[]") ++ .many (gap ++ "," ++ gap ++ most1 (wordOr "<>[]"))) ++ gap1)
    ++ .group 3 name ++ gap ++ "(" ++ .group 4 (.most (noneOf ")")) ++ ")" ++ gap
    ++ opt ("throws" ++ gap1 ++ fewest1 (fun c => wordOr ",." c || isBlank c)) ++ gap ++ "\x7b"

/-- Words before a parenthesis that name no method. -/
def notMethods : List Text :=
  ["if", "while", "for", "switch", "catch", "synchronized", "return", "new"]

def classRule : Converter := .reading fun cx code => do
  let m ← classPattern.whole? code
  let header := cx.kw .classWord ++ " " ++ m.group 1
  let header := match m.group? 2 with
    | some base => header ++ " " ++ cx.kw .inheritsWord ++ " " ++ base
    | none => header
  return .header [cx.line header] (.ofClass (m.group 1))

structure Method where
  modifiers : List Text
  name : Text
  /-- Names and types. -/
  params : List (Text × Text)
  type : Option Text
  isConstructor : Bool
  inClass : Bool

namespace Method

def kind (st : Style) (m : Method) : Kind :=
  if st.procedures && (m.type = none || m.type = some "void") then .procedure else .function

def visibility (st : Style) (m : Method) : Text :=
  if m.inClass && st.objectModel then
    st.keyword (if m.modifiers.contains "private" then .privateWord else .publicWord) ++ " "
  else []

def spelledName (st : Style) (m : Method) : Text :=
  if m.isConstructor && st.objectModel then st.keyword .newWord
  else if st.capitaliseRoutines then Name.pascalCase m.name
  else m.name

def parameterText (st : Style) (p : Text × Text) : Text :=
  if st.typedParameters then p.1 ++ " : " ++ p.2 else p.1

def resultText (st : Style) (m : Method) : Text :=
  match m.type with
  | some type =>
    if m.kind st = .function && st.typedParameters && type != "void" then
      " " ++ st.keyword .returnsWord ++ " " ++ DataType.ofJavaParameter type
    else []
  | none => []

def header (st : Style) (m : Method) : Text :=
  m.visibility st ++ Routine.keyword st (m.kind st) ++ " " ++ m.spelledName st ++ "("
    ++ join ", " (m.params.map (parameterText st)) ++ ")" ++ m.resultText st

end Method

/-- Drops leading occurrences of the word that marks a parameter as final. -/
def dropFinal : Nat → Text → Text
  | 0, s => s
  | n + 1, s =>
    match after? "final " s with
    | some rest => dropFinal n rest
    | none => s

def parameter? (param : Text) : Option (Text × Text) := do
  let (type, name) ← splitLastBlank? (trim (dropFinal param.length param))
  return (name, DataType.ofJavaParameter type)

/-- Parameters of a method; those of the main method are not written. -/
def parameters (name list : Text) : List (Text × Text) :=
  if name = "main" then [] else (splitTopLevel ',' list).filterMap parameter?

def noteTypes : List (Text × Text) → Converting Unit
  | [] => return
  | p :: ps => do
    note (·.setType p.1 p.2)
    noteTypes ps

/-- A method of any kind, or a constructor of the open class. -/
def methodRule : Converter where
  convert code := do
    let m ← methodPattern.whole? code
    let name := m.group 3
    let type := m.group? 2
    guard (!isOneOf notMethods name)
    guard (type.all fun t => !isOneOf notMethods t && t != "else")
    let cx ← context
    let isConstructor := type.isNone && cx.openClass? = some name
    guard (type.isSome || isConstructor)
    let params := parameters name (m.group 4)
    let method : Method :=
      { modifiers := words (m.group 1), name, params, type, isConstructor
        inClass := cx.openClass?.isSome }
    noteTypes params
    return .header [cx.line (method.header cx.style)] { kind := method.kind cx.style }

/-! ### Branches -/

def conditionPattern (keyword : Pattern) : Pattern :=
  keyword ++ gap ++ "(" ++ .group 1 rest ++ ")" ++ brace

def elseIfRule : Converter := .reading fun cx code => do
  let m ← (conditionPattern ("else" ++ gap1 ++ "if")).whole? code
  return .header [cx.elseIfHeader (m.group 1)] { kind := .elseIfBranch }

def ifRule : Converter := .reading fun cx code => do
  let m ← (conditionPattern "if").whole? code
  return .header [cx.ifHeader (m.group 1)] { kind := .ifBranch }

def wordPattern (keyword : String) : Pattern := keyword ++ brace

def elseRule : Converter := .reading fun cx code => do
  guard ((wordPattern "else").fits code)
  return cx.wordHeader .elseWord .elseBranch

def tryRule : Converter := .reading fun cx code => do
  guard ((wordPattern "try").fits code)
  return cx.wordHeader .tryWord .tryBranch

def catchPattern : Pattern :=
  "catch" ++ gap ++ "(" ++ gap ++ opt ("final" ++ gap1)
    ++ .group 1 (most1 (wordOr ".") ++ .many (gap ++ "|" ++ gap ++ most1 (wordOr "."))) ++ gap1 ++ name ++ gap
    ++ ")" ++ brace

def catchRule : Converter := .reading fun cx code => do
  let m ← catchPattern.whole? code
  let exceptions := join ", " ((pieces '|' (m.group 1)).map trim)
  return .header [cx.line (cx.kw .catchWord ++ " " ++ exceptions)] { kind := .catchBranch }

def finallyRule : Converter := .reading fun cx code => do
  guard ((wordPattern "finally").fits code)
  return cx.wordHeader .finallyWord .finallyBranch

/-! ### Loops -/

def countPattern : Pattern :=
  "for" ++ gap ++ "(" ++ gap ++ opt (oneOf ["int", "long", "short", "byte"] ++ gap1) ++ .group 1 name ++ gap
    ++ "=" ++ gap ++ .group 2 (fewest1 (noneOf ";")) ++ gap ++ ";" ++ gap ++ .group 3 name ++ gap
    ++ .group 4 (oneOf ["<=", "<", ">=", ">"]) ++ gap ++ .group 5 (fewest1 (noneOf ";")) ++ gap ++ ";"
    ++ gap ++ .group 6 (.fewest (noneOf ")")) ++ gap ++ ")" ++ brace

/-- The step of an update clause. A unit step and any clause of another form have none. -/
def loopStep? (update var : Text) : Option Text :=
  let u := update.filter fun c => !isBlank c
  if u = var ++ "++" || u = "++" ++ var then none
  else if u = var ++ "--" || u = "--" ++ var then some "-1"
  else after? (var ++ "+=") u <|> (after? (var ++ "-=") u).map ('-' :: ·)

/-- The last value of a loop variable, from its comparison with a bound. -/
def lastValue (comparison bound : Text) : Text :=
  if comparison = "<" then minusOne bound
  else if comparison = ">" then plusOne bound
  else bound

def countRule : Converter where
  convert code := do
    let m ← countPattern.whole? code
    let var := m.group 1
    guard (m.group 3 = var)
    let cx ← context
    let stop := lastValue (m.group 4) (cx.expr (m.group 5))
    let header := cx.style.forHeader var (cx.expr (m.group 2)) stop (loopStep? (m.group 6) var)
    note (·.addType var DataType.integer.name)
    return .header [cx.line header] (.loop var)

def forEachPattern : Pattern :=
  "for" ++ gap ++ "(" ++ gap ++ opt ("final" ++ gap1) ++ most1 (wordOr "<>[]") ++ gap1 ++ .group 1 name
    ++ gap ++ ":" ++ gap ++ .group 2 upto1 ++ gap ++ ")" ++ brace

def forEachRule : Converter := .reading fun cx code => do
  let m ← forEachPattern.whole? code
  return cx.collectionLoop (m.group 1) (cx.expr (m.group 2))

def whileRule : Converter := .reading fun cx code => do
  let m ← (conditionPattern "while").whole? code
  return .header [cx.whileHeader (m.group 1)] { kind := .whileLoop }

/-- A loop without a body is opened and closed at once. -/
def emptyWhileRule : Converter := .reading fun cx code => do
  let m ← Pattern.whole? ("while" ++ gap ++ "(" ++ .group 1 rest ++ ")" ++ gap ++ ";") code
  return .statement [cx.whileHeader (m.group 1), cx.line (cx.style.terminator .whileLoop none none)]

def doRule : Converter := .reading fun cx code => do
  guard ((wordPattern "do").fits code)
  return cx.wordHeader .repeatWord .repeatLoop

end Pseudocode.Braced
