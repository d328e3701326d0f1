import Pseudocode.Line
import Pseudocode.Name
import Pseudocode.Pattern
import Pseudocode.Symbols

/-! # Survey of a source

Before any line is converted, all code lines are searched for the names that later lines rely on:
routines, classes, record fields, instance fields and assigned variables. -/

namespace Pseudocode

open Text Pattern

namespace Symbols

def mapSurvey (f : Survey → Survey) (s : Symbols) : Symbols := { s with survey := f s.survey }

/-! ### Indented sources -/

def defLead : Pattern := opt ("async" ++ gap1) ++ "def" ++ gap1 ++ .group 1 name ++ gap ++ "("

def classLead : Pattern := "class" ++ gap1 ++ .group 1 name

def lambdaLead : Pattern := .group 1 name ++ gap ++ "=" ++ gap ++ "lambda" ++ .wordEdge

def dictionary : Pattern :=
  .group 1 name ++ gap ++ opt (":" ++ gap ++ most1 (wordOr "[], ")) ++ "=" ++ gap ++ "\x7b"
    ++ .group 2 rest ++ "\x7d"

def keyWrite : Pattern :=
  .group 1 name ++ gap ++ "[" ++ gap
    ++ oneOf ["\"" ++ .group 2 (.most (noneOf "\"")) ++ "\"", "'" ++ .group 3 (.most (noneOf "'")) ++ "'"]
    ++ gap ++ "]" ++ gap ++ "=" ++ gap ++ .group 4 rest1

def receiverField : Pattern :=
  oneOf ["self", "this"] ++ "." ++ .group 1 name ++ gap ++ opt (.one ("-+*/%".toList.contains ·)) ++ "="

def annotated : Pattern := .group 1 name ++ gap ++ ":" ++ gap ++ most1 (wordOr "[], ")

/-- A field is recorded if its key is an identifier, with the type of a literal value. -/
def addField (record key value : Text) (s : Survey) : Survey :=
  if Name.isIdentifier key then
    s.addRecordField record key ((DataType.ofLiteral? value).getD .string).name
  else s

def addFields (record body : Text) (s : Survey) : Survey :=
  (splitTopLevel ',' body).foldl (fun s pair =>
    match splitAt? ":" pair with
    | some (key, value) =>
      match between? "\"" "\"" (trim key) <|> between? "'" "'" (trim key) with
      | some key => addField record key value s
      | none => s
    | none => s) s

def addTargets (code : Text) (s : Survey) : Survey :=
  match annotated.whole? code with
  | some m => s.addName (m.group 1)
  | none =>
    match splitAssignment? code with
    | some (target, _) =>
      (splitTopLevel ',' (trim (upTo ":" (trim target)))).foldl
        (fun s t => if Name.isIdentifier t then s.addName t else s) s
    | none => s

/-- The class around a line and the column of its header. -/
abbrev ClassScope := Option (Text × Nat)

/-- A class ends before the first line that is not indented deeper than its header. -/
def ClassScope.before (scope : ClassScope) (columns : Nat) : ClassScope :=
  scope.filter fun c => c.2 < columns

/-- Adds what a line says that opens neither class nor routine. -/
def surveyStatement (scope : ClassScope) (code : Text) (s : Survey) : Survey :=
  match receiverField.lead? code, scope with
  | some m, some (cls, _) => s.addClassField cls (m.group 1)
  | _, _ =>
    let s := match dictionary.whole? code with
      | some m => addFields (m.group 1) (m.group 2) s
      | none => s
    let s := match keyWrite.whole? code with
      | some m => addField (m.group 1) ((m.group? 2 <|> m.group? 3).getD []) (m.group 4) s
      | none => s
    addTargets code s

def surveyIndentedLine (scope : ClassScope) (line : Line) (s : Symbols) : ClassScope × Symbols :=
  let scope := scope.before line.columns
  match classLead.lead? line.code with
  | some m => (some (m.group 1, line.columns), s.mapSurvey (·.addClass (m.group 1)))
  | none =>
    match defLead.lead? line.code with
    | some m => (scope, s.mapSurvey (·.addRoutine (m.group 1)))
    | none =>
      match lambdaLead.lead? line.code with
      | some m => (scope, { s with notes := s.notes.addLambda (m.group 1) })
      | none => (scope, s.mapSurvey (surveyStatement scope line.code))

def surveyIndented (s : Symbols) (lines : List Line) : Symbols :=
  (lines.foldl (fun acc line => surveyIndentedLine acc.1 line acc.2) (none, s)).2

/-! ### Braced sources -/

def classMention : Pattern := .wordEdge ++ "class" ++ gap1 ++ .group 1 name

def methodHeader : Pattern :=
  modifiers ["public", "private", "protected", "static", "final", "abstract", "synchronized"]
    ++ most1 (wordOr "<>[],") ++ gap1 ++ .group 1 name ++ gap ++ "(" ++ .most (noneOf ";") ++ ")" ++ gap
    ++ opt ("throws" ++ gap1 ++ most1 (fun c => wordOr ".," c || isBlank c)) ++ opt "\x7b"

def declarationLead : Pattern :=
  modifiers ["final", "static", "private", "public", "protected"]
    ++ .group 1 (most1 (wordOr "<>")) ++ opt "[]" ++ gap1 ++ .group 2 name ++ gap ++ opt "[]" ++ gap
    ++ .one ("=;".toList.contains ·)

/-- Words that are neither types nor names of routines. -/
def controlWords : List Text := ["if", "for", "while", "switch", "catch", "return", "new", "else"]

/-- Classes around a line, innermost first, with the brace depth inside each. -/
abbrev ClassScopes := List (Text × Nat)

def surveyBracedCode (scopes : ClassScopes) (depth : Nat) (code : Text) (s : Survey) :
    ClassScopes × Survey :=
  match classMention.find? code with
  | some m => ((m.group 1, depth + 1) :: scopes, s.addClass (m.group 1))
  | none =>
    match methodHeader.whole? code with
    | some m => (scopes, if isOneOf controlWords (m.group 1) then s else s.addRoutine (m.group 1))
    | none =>
      match declarationLead.lead? code with
      | some m => (scopes, if isOneOf controlWords (m.group 1) then s else s.addName (m.group 2))
      | none =>
        match receiverField.lead? code, scopes with
        | some m, (cls, _) :: _ => (scopes, s.addClassField cls (m.group 1))
        | _, _ => (scopes, s)

def surveyBraced (s : Symbols) (lines : List Line) : Symbols :=
  let r := lines.foldl (fun (acc : (ClassScopes × Nat) × Survey) line =>
    let (scopes, survey) := surveyBracedCode acc.1.1 acc.1.2 line.code acc.2
    let (opens, closes) := braceCounts line.code
    let depth := acc.1.2 + opens - closes
    ((scopes.dropWhile fun c => depth < c.2, depth), survey)) (([], 0), s.survey)
  { s with survey := r.2 }

def surveyed (conv : Convention) (lines : List Line) (s : Symbols) : Symbols :=
  let code := lines.filter Line.isCode
  match conv with
  | .indentation => s.surveyIndented code
  | .braces => s.surveyBraced code

end Symbols

end Pseudocode
