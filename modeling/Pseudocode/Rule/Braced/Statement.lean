import Pseudocode.Rule.Braced.Control

/-! # Statements in Java that end with a semicolon -/

namespace Pseudocode.Braced

open Text Pattern Converting

/-! ### Imports and input -/

def importPattern : Pattern :=
  oneOf ["package", "import"] ++ gap1 ++ opt ("static" ++ gap1) ++ most1 (wordOr ".*") ++ gap ++ ";"

def importRule : Converter := .reading fun _ code => do
  guard (importPattern.fits code)
  return .nothing

def scanner : Text := "Scanner"

def scannerPattern : Pattern :=
  opt (opt ("final" ++ gap1) ++ "Scanner" ++ gap1) ++ .group 1 name ++ gap ++ "=" ++ gap ++ "new" ++ gap1
    ++ "Scanner" ++ gap ++ "(" ++ rest ++ ")" ++ gap ++ ";"

def closePattern : Pattern :=
  .group 1 name ++ ".close" ++ gap ++ "(" ++ gap ++ ")" ++ gap ++ ";"

def isScanner (cx : Context) (var : Text) : Bool := cx.notes.types.get? var = some scanner

/-- Opening and closing an input reader leaves no trace. -/
def scannerRule : Converter where
  convert code :=
    match scannerPattern.whole? code with
    | some m => do
      note (·.setType (m.group 1) scanner)
      return .nothing
    | none => do
      let m ← closePattern.whole? code
      let cx ← context
      guard (isScanner cx (m.group 1))
      return .nothing

def readPattern : Pattern :=
  opt (.group 1 (most1 (wordOr "<>")) ++ gap1) ++ .group 2 name ++ gap ++ "=" ++ gap ++ .group 3 name ++ "."
    ++ .group 4
      (oneOf ["nextInt", "nextLong", "nextDouble", "nextFloat", "nextBoolean", "nextLine", "next"])
    ++ gap ++ "(" ++ gap ++ ")" ++ gap ++ ";"

def readType (method : Text) : DataType :=
  if isOneOf ["nextInt", "nextLong"] method then .integer
  else if isOneOf ["nextDouble", "nextFloat"] method then .real
  else if method = "nextBoolean" then .boolean
  else .string

/-- Declares a variable once, in dialects that declare variables; its type is noted in all. -/
def declareVariable (var type : Text) : Converting (List Text) := do
  let cx ← context
  if cx.style.declareVariables then declareOnce var type (cx.declaration var type)
  else
    note (·.addType var type)
    return []

def declareRead (m : Match) : Converting (List Text) :=
  match m.group? 1 with
  | some type => declareVariable (m.group 2) (DataType.ofJavaParameter type)
  | none => do
    note (·.addType (m.group 2) (readType (m.group 4)).name)
    return []

def inputRule : Converter where
  convert code := do
    let m ← readPattern.whole? code
    let cx ← context
    guard (isScanner cx (m.group 3) || !cx.notes.types.has (m.group 3))
    let lines ← declareRead m
    return .statement (lines ++ [cx.line (cx.kw .inputWord ++ " " ++ m.group 2)])

/-! ### Output and results -/

def returnPattern : Pattern := "return" ++ .wordEdge ++ gap ++ .group 1 upto ++ gap ++ ";"

def returnRule : Converter := .reading fun cx code => do
  let m ← returnPattern.whole? code
  match trim (m.group 1) with
  | [] => return .statement [cx.line (cx.kw .returnWord)]
  | value => return .statement [cx.line (cx.kw .returnWord ++ " " ++ cx.expr value)]

def printPattern : Pattern :=
  "System.out." ++ oneOf ["println", "print", "printf"] ++ gap ++ "(" ++ .group 1 rest ++ ")" ++ gap ++ ";"

def printRule : Converter := .reading fun cx code => do
  let m ← printPattern.whole? code
  return cx.output ((splitTopLevel ',' (m.group 1)).map cx.expr)

/-! ### Declarations -/

/-- Element type, name and brackets of an array declaration up to its value. -/
def arrayLead : Pattern :=
  opt ("final" ++ gap1) ++ .group 1 (most1 isWordChar) ++ gap ++ opt (.group 2 "[]") ++ gap1
    ++ .group 3 name ++ gap ++ opt (.group 4 "[]") ++ gap ++ "=" ++ gap

def arrayNewPattern : Pattern :=
  arrayLead ++ "new" ++ gap1 ++ most1 isWordChar ++ gap ++ "[" ++ gap ++ .group 5 upto1 ++ gap ++ "]" ++ gap
    ++ ";"

def arrayLiteralPattern : Pattern :=
  arrayLead ++ "\x7b" ++ .group 5 rest ++ "\x7d" ++ gap ++ ";"

def hasBrackets (m : Match) : Bool := (m.group? 2).isSome || (m.group? 4).isSome

def newArray (m : Match) : Converting Translation := do
  let cx ← context
  let type := DataType.ofJavaParameter (m.group 1)
  let text := cx.line (cx.style.arrayDeclaration (m.group 3) (cx.expr (m.group 5)) type)
  note (·.setType (m.group 3) (DataType.arrayOf type))
  return .statement [text]

def declareArray (array type : Text) (count : Nat) : Converting (List Text) := do
  let cx ← context
  if cx.style.declareVariables then
    declareOnce array (DataType.arrayOf type) (cx.line (cx.style.arrayDeclaration array (ofNat count) type))
  else return []

def arrayLiteral (m : Match) : Converting Translation := do
  let cx ← context
  let items := (splitTopLevel ',' (m.group 5)).map cx.expr
  let lines ← declareArray (m.group 3) (DataType.ofJavaParameter (m.group 1)) items.length
  return .statement (lines ++ [cx.assign (m.group 3) ("[" ++ join ", " items ++ "]")])

def arrayRule : Converter where
  convert code :=
    match arrayNewPattern.whole? code with
    | some m => do
      guard (hasBrackets m)
      newArray m
    | none => do
      let m ← arrayLiteralPattern.whole? code
      guard (hasBrackets m)
      arrayLiteral m

def declarationPattern : Pattern :=
  .group 1 (modifiers ["public", "private", "protected", "static", "final"])
    ++ .group 2 (most1 (wordOr "<>") ++ opt "[]") ++ gap1
    ++ .group 3 (name ++ .many (gap ++ "," ++ gap ++ name)) ++ gap ++ opt ("=" ++ gap ++ .group 4 upto1)
    ++ gap ++ ";"

def notTypes : List Text :=
  ["return", "throw", "new", "else", "case", "goto", "break", "continue"]

def declareAll (type : Text) : List Text → Converting (List Text)
  | [] => return []
  | var :: vars => do
    let lines ← declareVariable var type
    let more ← declareAll type vars
    return lines ++ more

/-- Fields are declared with their visibility. Without an object model only their initial value is
written. -/
def declareFields (mods : List Text) (type : Text) (vars : List Text) (value : Option Text) :
    Converting Translation := do
  let cx ← context
  if cx.style.objectModel then
    let visibility := cx.kw (if mods.contains "public" then .publicWord else .privateWord)
    noteTypes (vars.map (·, type))
    return .statement (vars.map fun v => cx.line (visibility ++ " " ++ v ++ " : " ++ type))
  else match value with
    | some value => return .statement [cx.assign (vars.headD []) (cx.expr value)]
    | none => return .nothing

def declareConstant (type var value : Text) : Converting Translation := do
  note (·.addType var type)
  let cx ← context
  return .statement [cx.line (cx.kw .constantWord ++ " " ++ var ++ " = " ++ cx.expr value)]

/-- Variables are declared one after another, then the value is assigned. -/
def declareVariables (type : Text) (vars : List Text) (value : Option Text) : Converting Translation := do
  let lines ← declareAll type vars
  let cx ← context
  match value with
  | some value => return .statement (lines ++ [cx.assign (vars.headD []) (cx.expr value)])
  | none => return .statement lines

/-- Declarations of constants, of fields directly inside a class, and of variables. -/
def declarationRule : Converter where
  convert code := do
    let m ← declarationPattern.whole? code
    guard (!isOneOf notTypes (m.group 2))
    let mods := words (m.group 1)
    let type := DataType.ofJavaParameter (m.group 2)
    let vars := (pieces ',' (m.group 3)).map trim
    let value := (m.group? 4).map trim
    guard (value.isNone || vars.length ≤ 1)
    let cx ← context
    match value with
    | some v =>
      if mods.contains "final" && cx.style.constants then declareConstant type (vars.headD []) v
      else if cx.openClass?.isSome then declareFields mods type vars value
      else declareVariables type vars value
    | none =>
      if cx.openClass?.isSome then declareFields mods type vars value
      else declareVariables type vars value

/-! ### Assignments and calls -/

def stepOperator : Pattern := oneOf ["++", "--"]

def incrementPattern : Pattern :=
  oneOf [.group 1 target ++ gap ++ .group 2 stepOperator,
    .group 3 stepOperator ++ gap ++ .group 4 target] ++ gap ++ ";"

def incrementRule : Converter := .reading fun cx code => do
  let m ← incrementPattern.whole? code
  let target := cx.expr ((m.group? 1 <|> m.group? 4).getD [])
  let sign : Text := if (m.group? 2 <|> m.group? 3).getD [] = "++" then "+" else "-"
  return .statement [cx.assign target (target ++ " " ++ sign ++ " 1")]

def compoundPattern : Pattern :=
  .group 1 target ++ gap ++ .group 2 (oneOf ["+", "-", "*", "/", "%"]) ++ "=" ++ gap
    ++ .group 3 upto1 ++ gap ++ ";"

def compoundRule : Converter := .reading fun cx code => do
  let m ← compoundPattern.whole? code
  let value := m.group 1 ++ " " ++ m.group 2 ++ " " ++ m.group 3
  return .statement [cx.assign (cx.expr (m.group 1)) (cx.expr value)]

def assignmentRule : Converter := .reading fun cx code => do
  let code ← before? ";" code
  let (target, value) ← splitAssignment? (trimEnd code)
  let target := trim target
  let value := trim value
  guard (!value.isEmpty && Name.isTarget target)
  return .statement [cx.assign (cx.expr target) (cx.expr value)]

def callPattern : Pattern :=
  .group 1 (name ++ .many ("." ++ name)) ++ gap ++ "(" ++ .group 2 rest ++ ")" ++ gap ++ ";"

def notCalls : List Text :=
  ["if", "while", "for", "do", "switch", "catch", "synchronized", "return", "throw"]

def callRule : Converter := .reading fun cx code => do
  let m ← callPattern.whole? code
  guard (!isOneOf notCalls (m.group 1))
  return .statement [cx.callLine (trimEnd (dropEndWhile (· == ';') code))]

end Pseudocode.Braced
