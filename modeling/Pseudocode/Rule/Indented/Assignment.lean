import Pseudocode.Rule.Indented.Control

/-! # Assignments in Python -/

namespace Pseudocode.Indented

open Text Pattern Converting

/-! ### Comprehensions -/

def comprehensionPattern : Pattern :=
  .group 1 name ++ gap ++ "=" ++ gap ++ "[" ++ gap ++ .group 2 upto1 ++ gap1 ++ "for" ++ gap1
    ++ .group 3 name ++ gap1 ++ "in" ++ gap1 ++ "range" ++ gap ++ "(" ++ .group 4 rest ++ ")" ++ gap ++ "]"

def isComprehension (value : Text) : Bool :=
  let v := trim value
  (v.head?.any (· ∈ ['[', '{', '('])) && Construct.hasForIn v

/-- A list built from a range becomes a loop with an index of its own. -/
def comprehensionRule : Converter := .reading fun cx code => do
  let m ← comprehensionPattern.whole? code
  let var := m.group 3
  let b ← rangeBounds? cx (fun step _ => startsWith "-" (trim step)) (m.group 4)
  let element := Setting.respell "*" "*" (m.group 2)
  return .statement
    [cx.assign "index" "0",
     cx.line (cx.style.forHeader var b.start b.stop b.step),
     cx.assignInner (m.group 1 ++ "[index]") (cx.expr element),
     cx.assignInner "index" "index + 1",
     cx.line (cx.style.terminator .forLoop (some var) none)]

/-! ### Compound and multiple assignment -/

def compoundPattern : Pattern :=
  .group 1 target ++ gap ++ .group 2 (oneOf ["**", "//", "+", "-", "*", "/", "%"]) ++ "=" ++ gap
    ++ .group 3 rest1

def compoundRule : Converter := .reading fun cx code => do
  let m ← compoundPattern.whole? code
  let value := m.group 1 ++ " " ++ m.group 2 ++ " " ++ trim (m.group 3)
  return .statement [cx.assign (cx.expr (m.group 1)) (cx.expr value)]

def multiplePattern : Pattern :=
  .group 1 (name ++ (gap ++ "," ++ gap ++ name) ++ .many (gap ++ "," ++ gap ++ name)) ++ gap ++ "=" ++ gap
    ++ .group 2 rest1

/-- Writes a word, or its replacement when it is the name looked for and no attribute. -/
def renamedWord (old new : Text) (before : Option Char) (word : Text) : Text :=
  if word = old && before != some '.' then new else word

/-- Renames a name in code without literals. `word` is the word that is being read, and `before` the
character before it. -/
def renameFrom (old new : Text) : Option Char → Text → Text → Text
  | before, word, [] => renamedWord old new before word
  | before, word, c :: cs =>
    if isNameChar c then renameFrom old new before (word ++ [c]) cs
    else renamedWord old new before word ++ c :: renameFrom old new (some c) [] cs

/-- Renames a name in an expression, string literals and attributes apart. -/
def rename (old new expr : Text) : Text := mapCode false (renameFrom old new none []) expr

/-- Whether an expression reads a variable: renaming it then makes a difference. -/
def reads (expr var : Text) : Bool := rename var ['\x00'] expr != expr

def savedName (var : Text) : Text := "temp_" ++ var

/-- Targets that a value after their own reads. -/
def savedTargets : List Text → List Text → List Text
  | t :: ts, _ :: vs => if vs.any (reads · t) then t :: savedTargets ts vs else savedTargets ts vs
  | _, _ => []

def assignAll (saved : List Text) : List (Text × Text) → Converting (List Text)
  | [] => return []
  | (target, value) :: rest => do
    let value := saved.foldl (fun v t => rename t (savedName t) v) value
    note (·.addTypeOf target value)
    let cx ← context
    let lines ← assignAll saved rest
    return cx.assign target (cx.expr value) :: lines

/-- A tuple assignment becomes one assignment per target. Variables that a later value reads are saved
before they are overwritten. -/
def multipleRule : Converter where
  convert code := do
    let m ← multiplePattern.whole? code
    let targets := (pieces ',' (m.group 1)).map trim
    let values := splitTopLevel ',' (m.group 2)
    guard (targets.length = values.length)
    let saved := savedTargets targets values
    let cx ← context
    let assigned ← assignAll saved (targets.zip values)
    return .statement (saved.map (fun t => cx.assign (savedName t) t) ++ assigned)

/-! ### Dictionaries and lists -/

def dictPattern : Pattern :=
  .group 1 name ++ gap ++ "=" ++ gap ++ "\x7b" ++ .group 2 rest ++ "\x7d"

def dictEntry? (entry : Text) : Option (Text × Text) := do
  let (key, value) ← splitAt? ":" entry
  guard (DataType.isStringLiteral key)
  let key := (trim key).tail.dropLast
  guard (Name.isIdentifier key)
  return (key, trim value)

def dictPairs? (list : Text) : Option (List (Text × Text)) := (splitTopLevel ',' list).mapM dictEntry?

/-- The fields of a record: all that the source writes, then those of this dictionary. -/
def recordFields (cx : Context) (record : Text) (pairs : List (Text × Text)) : Table Text :=
  pairs.foldl (fun t p => t.add p.1 ((DataType.ofLiteral? p.2).getD .string).name)
    ((cx.symbols.survey.records.get? record).getD {})

def recordType (record : Text) : Text := Name.pascalCase record ++ "Record"

def recordLines (cx : Context) (record : Text) (pairs : List (Text × Text)) : List Text :=
  let field (f : Text × Text) := cx.inner (cx.kw .declareWord ++ " " ++ f.1 ++ " : " ++ f.2)
  cx.line ("TYPE " ++ recordType record) :: (recordFields cx record pairs).entries.map field
    ++ [cx.line "ENDTYPE", [], cx.declaration record (recordType record)]

def declareRecord (record : Text) (pairs : List (Text × Text)) : Converting (List Text) := do
  let cx ← context
  if cx.notes.declaredRecords.contains record then return []
  note fun n => { n with declaredRecords := n.declaredRecords.add record }
  return recordLines cx record pairs

/-- A dictionary becomes a record, whose type is written the first time. -/
def dictRule : Converter where
  convert code := do
    let m ← dictPattern.whole? code
    let record := m.group 1
    let body := "\x7b" ++ m.group 2 ++ "\x7d"
    guard (!isComprehension body)
    let pairs ← dictPairs? (m.group 2)
    let cx ← context
    if !cx.style.records then return .statement [cx.assign record (cx.expr body)]
    let declared ← declareRecord record pairs
    let cx ← context
    return .statement (declared ++ pairs.map fun p => cx.assign (record ++ "." ++ p.1) (cx.expr p.2))

def listPattern : Pattern := .group 1 name ++ gap ++ "=" ++ gap ++ "[" ++ .group 2 rest ++ "]"

def elementText (cx : Context) (type : DataType) (item : Text) : Text :=
  if type = .string && !DataType.isStringLiteral item then "\"" ++ cx.expr item ++ "\""
  else cx.expr item

def listRule : Converter where
  convert code := do
    let m ← listPattern.whole? code
    let array := m.group 1
    let body := "[" ++ m.group 2 ++ "]"
    guard (!isComprehension body)
    let items := splitTopLevel ',' (m.group 2)
    let cx ← context
    if !cx.style.arrayDeclarations || items.isEmpty then
      return .statement [cx.assign array (cx.expr body)]
    let type := DataType.ofElements items
    let declared ← declareOnce array (DataType.arrayOf type.name)
      (cx.line (cx.style.arrayDeclaration array (ofNat items.length) type.name))
    let cx ← context
    let elements := items.mapIdx fun i item =>
      cx.assign (array ++ "[" ++ ofNat i ++ "]") (elementText cx type item)
    return .statement (declared ++ elements)

/-! ### Objects, constants and plain assignment -/

def instancePattern : Pattern :=
  .group 1 dottedName ++ gap ++ "=" ++ gap ++ .group 2 name ++ gap ++ "(" ++ .group 3 rest ++ ")"

def declareObject (target cls : Text) : Converting (List Text) := do
  let cx ← context
  if cx.style.objectModel && Name.isIdentifier target then
    declareOnce target cls (cx.declaration target cls)
  else return []

def instanceRule : Converter where
  convert code := do
    let m ← instancePattern.whole? code
    let target := m.group 1
    let cls := m.group 2
    let cx ← context
    guard (cx.symbols.isClass cls)
    let declared ← declareObject target cls
    let cx ← context
    return .statement (declared ++ [cx.assign target (cx.expr (cls ++ "(" ++ m.group 3 ++ ")"))])

def constantPattern : Pattern :=
  .group 1 (.one Char.isUpper ++ .most fun c => c.isUpper || c.isDigit || c == '_') ++ gap ++ "=" ++ gap
    ++ .group 2 rest1

def constantRule : Converter where
  convert code := do
    let cx ← context
    guard cx.style.constants
    let m ← constantPattern.whole? code
    let value := trim (m.group 2)
    let type ← DataType.ofLiteral? value
    guard (Name.isConstant (m.group 1))
    note (·.addType (m.group 1) type.name)
    let cx ← context
    return .statement [cx.line (cx.kw .constantWord ++ " " ++ m.group 1 ++ " = " ++ cx.expr value)]

/-- The target of an assignment without its annotation. -/
def bareTarget (target : Text) : Text :=
  match splitTopLevel ':' target with
  | [var, _] => var
  | _ => target

def assignmentRule : Converter where
  convert code := do
    let (target, value) ← splitAssignment? code
    let target := bareTarget (trim target)
    let value := trim value
    guard (!value.isEmpty && Name.isTarget target && !isComprehension value)
    note fun n => if Name.isIdentifier target then n.addTypeOf target value else n
    let cx ← context
    return .statement [cx.assign (cx.expr target) (cx.expr value)]

end Pseudocode.Indented
