import Pseudocode.Interpolation
import Pseudocode.Name
import Pseudocode.Style
import Pseudocode.Symbols

/-! # Expressions in the spelling of a dialect

Interpolated strings are expanded first. Then subscripts of records and strings take the form of the
dialect, and concatenations are marked. Operators, truth values and calls are respelled last, and only
outside string literals. -/

namespace Pseudocode

open Text Pattern

structure Setting where
  style : Style
  convention : Convention
  symbols : Symbols

namespace Setting

def kw (st : Setting) (k : Keyword) : Text := st.style.keyword k

def isPython (st : Setting) : Bool := st.convention = .indentation

/-! ### Subscripts -/

def recordAccess : Pattern :=
  .wordEdge ++ .group 1 name ++ "[" ++ gap ++ .one isQuote ++ .group 2 name ++ .one isQuote ++ gap ++ "]"

def fieldAccess (st : Setting) (s : Text) : Text :=
  if st.style.records && !st.symbols.survey.records.entries.isEmpty then
    recordAccess.replace (fun m =>
      if st.symbols.survey.records.has (m.group 1) then m.group 1 ++ "." ++ m.group 2
      else m.text) s
  else s

def subscript : Pattern :=
  .wordEdge ++ .group 1 name ++ "[" ++ .group 2 (most1 (noneOf "[]")) ++ "]"

def stringIndex (st : Setting) (s : Text) : Text :=
  if st.style.substrings then
    subscript.replace (fun m =>
      if st.symbols.notes.isString (m.group 1) then
        st.kw .substringWord ++ "(" ++ m.group 1 ++ ", " ++ trim (m.group 2) ++ ", 1)"
      else m.text) s
  else s

/-! ### Concatenation -/

def isStringOperand (st : Setting) (operand : Text) : Bool :=
  let p := trim operand
  DataType.isStringLiteral p || startsWith "str(" p || startsWith "String.valueOf(" p
    || st.symbols.notes.isString p

/-- Concatenation converts by itself, so an explicit conversion of one argument is dropped. -/
def dropConversion (operand : Text) : Text :=
  match between? "str(" ")" operand with
  | some inner => if (splitTopLevel ',' inner).length = 1 then inner else operand
  | none => operand

/-- A sum with a string among its operands is a concatenation. -/
def concatenate (st : Setting) (s : Text) : Text :=
  let operands := splitTopLevel '+' s
  if operands.length < 2 || operands.any List.isEmpty || !operands.any st.isStringOperand then s
  else join (" " ++ st.style.concat ++ " ") (operands.map dropConversion)

/-! ### Operators -/

def respell (op : String) (new s : Text) : Text :=
  Pattern.replace (gap ++ op ++ gap) (fun _ => " " ++ new ++ " ") s

def respellWord (w : String) (new s : Text) : Text := (word w).replace (fun _ => new) s

def power : Pattern :=
  "Math.pow(" ++ gap ++ .group 1 (fewest1 (noneOf ",()")) ++ gap ++ "," ++ gap
    ++ .group 2 (fewest1 (noneOf "()")) ++ gap ++ ")"

def mathCalls : List (Text × Text) :=
  [("Math.sqrt(", "SQRT("), ("Math.abs(", "ABS("), ("Math.max(", "MAX("), ("Math.min(", "MIN("),
   ("Math.round(", "ROUND("), ("Math.random()", "RANDOM()")]

/-- Powers and divisions that only Python writes as operators. -/
def pythonArithmetic (st : Setting) (s : Text) : Text :=
  respell "//" (st.kw .divWord) (respell "**" "^" s)

/-- Powers and functions that Java writes as calls, and its word for the receiver. -/
def javaArithmetic (s : Text) : Text :=
  let s := power.replace (fun m => m.group 1 ++ " ^ " ++ m.group 2) s
  let s := mathCalls.foldl (fun s call => replaceAll call.1 call.2 s) s
  Pattern.replace (.wordEdge ++ "this.") (fun _ => "self.") s

def comparisons (st : Setting) (s : Text) : Text :=
  let s := respell "%" (st.kw .modWord) s
  let s := respell "!=" "≠" s
  let s := respell "==" "=" s
  let s := respell "<=" "≤" s
  respell ">=" "≥" s

def pythonLogic (st : Setting) (s : Text) : Text :=
  let s := respellWord "and" (st.kw .andWord) s
  let s := respellWord "or" (st.kw .orWord) s
  let s := respellWord "not" (st.kw .notWord) s
  let s := respellWord "True" (st.kw .trueWord) s
  let s := respellWord "False" (st.kw .falseWord) s
  Pattern.replace (.wordEdge ++ "len(") (fun _ => st.kw .lengthWord ++ "(") s

def javaLogic (st : Setting) (s : Text) : Text :=
  let s := respell "&&" (st.kw .andWord) s
  let s := respell "||" (st.kw .orWord) s
  let s := Pattern.replace ("!" ++ gap) (fun _ => st.kw .notWord ++ " ") s
  let s := respellWord "true" (st.kw .trueWord) s
  respellWord "false" (st.kw .falseWord) s

/-! ### Calls -/

/-- A dotted name that ends as soon as it can. -/
def shortDottedName : Pattern := .one isNameStart ++ .fewest (wordOr ".")

def stringMethod : Pattern :=
  .wordEdge ++ .group 1 shortDottedName ++ "."
    ++ .group 2 (oneOf ["upper", "lower", "toUpperCase", "toLowerCase", "length"]) ++ "()"

def stringCalls (st : Setting) (s : Text) : Text :=
  stringMethod.replace (fun m =>
    let function :=
      if isOneOf ["upper", "toUpperCase"] (m.group 2) then Keyword.upperWord
      else if isOneOf ["lower", "toLowerCase"] (m.group 2) then .lowerWord
      else .lengthWord
    st.kw function ++ "(" ++ m.group 1 ++ ")") s

/-- The length of an array, which Java writes as a field. -/
def lengthField (st : Setting) (s : Text) : Text :=
  Pattern.replace (.wordEdge ++ .group 1 shortDottedName ++ ".length" ++ .wordEdge)
    (fun m => st.kw .lengthWord ++ "(" ++ m.group 1 ++ ")") s

def newObject (st : Setting) (s : Text) : Text :=
  if st.style.objectModel then
    Pattern.replace
      (.wordEdge ++ "new" ++ gap1 ++ .group 1 (.one Char.isUpper ++ .most isWordChar) ++ gap ++ "(")
      (fun m => st.kw .newWord ++ " " ++ m.group 1 ++ "(") s
  else s

/-- The text before a match ends, white space apart, with `tail`. -/
def follows (m : Match) (tail : Text) : Bool := tail.reverse.isPrefixOf (m.seen.dropWhile isBlank)

/-- Calls of classes create objects, and calls of routines take the spelling of their headers. -/
def routineCalls (st : Setting) (s : Text) : Text :=
  if st.style.capitaliseRoutines || st.style.objectModel then
    Pattern.replace (.wordEdge ++ .group 1 name ++ "(") (fun m =>
      let callee := m.group 1
      if st.style.objectModel && st.isPython && st.symbols.isClass callee && !follows m "."
          && !follows m (st.kw .newWord) then
        st.kw .newWord ++ " " ++ callee ++ "("
      else if st.style.capitaliseRoutines && st.symbols.isRoutine callee then
        Name.pascalCase callee ++ "("
      else m.text) s
  else s

/-! ### Whole expressions -/

def respellCode (st : Setting) (code : Text) : Text :=
  if (trim code).isEmpty then code
  else if st.isPython then
    st.routineCalls (st.newObject (st.stringCalls
      (st.pythonLogic (st.comparisons (st.pythonArithmetic code)))))
  else
    st.routineCalls (st.newObject (st.lengthField (st.stringCalls
      (st.javaLogic (st.comparisons (javaArithmetic code))))))

def expr (st : Setting) (e : Text) : Text :=
  let s := if st.isPython then Interpolation.expand (trim e) else trim e
  mapCode st.isPython st.respellCode (st.concatenate (st.stringIndex (st.fieldAccess s)))

end Setting

end Pseudocode
