import Pseudocode.Text.Quoting
import Pseudocode.Text.Number

/-! # Types of values, as far as their spelling shows them -/

namespace Pseudocode

open Text

inductive DataType where
  | integer
  | real
  | string
  | boolean
  | char
  deriving DecidableEq, Repr

namespace DataType

def name : DataType → Text
  | integer => "INTEGER"
  | real => "REAL"
  | string => "STRING"
  | boolean => "BOOLEAN"
  | char => "CHAR"

/-! ### Types of expressions -/

/-- A text in quotes of one kind. Quotes inside are not looked at. -/
def isStringLiteral (s : Text) : Bool :=
  (between? "\"" "\"" (trim s)).isSome || (between? "'" "'" (trim s)).isSome

def doubleQuoted (s : Text) : Text :=
  match between? "'" "'" (trim s) with
  | some body => "\"" ++ body ++ "\""
  | none => trim s

/-- Begins as an interpolated string does and has at least one more character. -/
def isInterpolated (s : Text) : Bool :=
  let t := trim s
  (startsWith "f\"" t || startsWith "f'" t) && 3 ≤ t.length

/-- The spellings of the truth values in all the languages involved. -/
def truthWords : List Text := ["True", "False", "true", "false", "TRUE", "FALSE"]

def ofLiteral? (expr : Text) : Option DataType :=
  let t := trim expr
  let magnitude := (after? "-" t).getD t
  if isStringLiteral t || isInterpolated t then some string
  else if isOneOf truthWords t then some boolean
  else if !magnitude.isEmpty && magnitude.all Char.isDigit then some integer
  else if isDecimal magnitude then some real
  else none

def comparisonMarks : List Text :=
  ["==", "!=", "<=", ">=", " < ", " > ", " and ", " or ", "&&", "||"]

/-- The type of an expression, where literals, operators or conversion calls give it away. -/
def ofExpression? (expr : Text) : Option DataType :=
  let t := trim expr
  let operands := splitTopLevel '+' expr
  match ofLiteral? expr with
  | some type => some type
  | none =>
    if 1 < operands.length && operands.any (fun p => ofLiteral? p = some string) then some string
    else if comparisonMarks.any (has · t) then some boolean
    else if startsWith "len(" t || startsWith "int(" t then some integer
    else if startsWith "float(" t || startsWith "round(" t then some real
    else if startsWith "str(" t || startsWith "input(" t then some string
    else none

/-- The type that all elements of a list share; integers and reals meet in real, any other mixture
in string. Elements that are not literals count as integers. -/
def ofElements (items : List Text) : DataType :=
  match items.map fun i => (ofLiteral? i).getD integer with
  | [] => integer
  | t :: ts => go t ts
where
  go : DataType → List DataType → DataType
    | found, [] => found
    | found, t :: ts =>
      if t = found then go found ts
      else if (found = integer ∧ t = real) ∨ (found = real ∧ t = integer) then go real ts
      else string

/-! ### Types of declarations -/

def ofJava (type : Text) : Text :=
  let t := trim type
  if isOneOf ["int", "long", "short", "byte", "Integer", "Long"] t then integer.name
  else if isOneOf ["double", "float", "Double", "Float"] t then real.name
  else if t = "String" then string.name
  else if isOneOf ["boolean", "Boolean"] t then boolean.name
  else if isOneOf ["char", "Character"] t then char.name
  else t

def arrayOf (element : Text) : Text := "ARRAY OF " ++ element

def ofJavaParameter (type : Text) : Text :=
  match before? "[]" (trim type) with
  | some element => arrayOf (ofJava element)
  | none => ofJava type

def ofPython? (type : Text) : Option DataType :=
  let t := trim type
  if t = "int" then some integer
  else if t = "float" then some real
  else if t = "str" then some string
  else if t = "bool" then some boolean
  else none

/-! ### Types guessed from names -/

def booleanLeads : List Text := ["is_", "has_", "can_", "should_"]

def booleanNames : List Text := ["flag", "found", "done", "valid", "ok"]

def stringHints : List Text :=
  ["name", "text", "str", "word", "message", "msg", "operation", "title", "label", "prompt", "line",
   "sentence", "letter", "colour", "color", "email", "address"]

def integerNames : List Text :=
  ["number", "count", "index", "n", "i", "j", "k", "size", "length", "age"]

def realHints : List Text :=
  ["num", "price", "amount", "total", "average", "avg", "rate", "weight", "height", "salary", "cost",
   "balance", "temperature", "radius"]

/-- The type that a parameter or field most likely has, from its name alone. -/
def ofName (name : Text) : DataType :=
  let n := asciiLower name
  if booleanLeads.any (startsWith · n) || isOneOf booleanNames n then boolean
  else if stringHints.any (has · n) then string
  else if isOneOf integerNames n then integer
  else if realHints.any (has · n) then real
  else integer

/-- The name of the return type of a routine, from those of its parameters: the first numeric one,
else the first one, else integer. -/
def ofParameters (types : List Text) : Text :=
  match types.find? fun t => t = real.name || t = integer.name with
  | some t => t
  | none => types.head?.getD integer.name

end DataType

end Pseudocode
