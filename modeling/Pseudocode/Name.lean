import Pseudocode.Text.Numeral
import Pseudocode.Text.UpperCase

/-! # Names and what may stand on the left of an assignment -/

namespace Pseudocode.Name

open Text

/-- A letter or underscore, then letters, numerals and underscores. -/
def isIdentifier (s : Text) : Bool :=
  match s with
  | c :: cs => (isLetter c || c == '_') && cs.all isNameChar
  | [] => false

def isField (s : Text) : Bool :=
  match splitAt? "." s with
  | some r => isIdentifier r.1 && isIdentifier r.2
  | none => false

/-- An identifier, a field, or either of them with a subscript. -/
def isTarget (s : Text) : Bool :=
  let t := trim s
  isIdentifier t || isField t ||
    match splitAt? "[" t with
    | some r => endsWith "]" t && (isIdentifier r.1 || isField r.1)
    | none => false

/-- Two or more capitals, digits and underscores, among them a capital. -/
def isConstant (s : Text) : Bool :=
  2 ≤ s.length && isIdentifier s && s.any Char.isUpper
    && s.all fun c => c.isUpper || c.isDigit || c == '_'

def capitalise : Text → Text
  | c :: cs => upperCase c ++ cs
  | [] => []

/-- Words between underscores, each capitalised and written together. -/
def pascalCase (s : Text) : Text := (pieces '_' s).flatMap capitalise

/-- The text begins with a word that no longer name contains. -/
def beginsWith (word s : Text) : Bool := beginsWithWord isNameChar word s

end Pseudocode.Name
