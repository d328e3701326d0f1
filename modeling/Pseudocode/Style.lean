import Pseudocode.Block
import Pseudocode.Options
import Pseudocode.Text.Number

/-! # Spelling of the two dialects -/

namespace Pseudocode

open Text

/-- The words of pseudocode that a dialect may spell in its own way. -/
inductive Keyword where
  | ifWord
  | thenWord
  | elseIfWord
  | elseWord
  | whileWord
  | doWord
  | repeatWord
  | untilWord
  | outputWord
  | inputWord
  | returnWord
  | tryWord
  | catchWord
  | finallyWord
  | classWord
  | inheritsWord
  | newWord
  | callWord
  | functionWord
  | procedureWord
  | returnsWord
  | declareWord
  | constantWord
  | publicWord
  | privateWord
  | trueWord
  | falseWord
  | andWord
  | orWord
  | notWord
  | divWord
  | modWord
  | lengthWord
  | upperWord
  | lowerWord
  | substringWord
  deriving DecidableEq, Repr

namespace Keyword

def all : List Keyword :=
  [ifWord, thenWord, elseIfWord, elseWord, whileWord, doWord, repeatWord, untilWord, outputWord,
   inputWord, returnWord, tryWord, catchWord, finallyWord, classWord, inheritsWord, newWord, callWord,
   functionWord, procedureWord, returnsWord, declareWord, constantWord, publicWord, privateWord,
   trueWord, falseWord, andWord, orWord, notWord, divWord, modWord, lengthWord, upperWord, lowerWord,
   substringWord]

def spelling : Keyword → Text
  | ifWord => "IF"
  | thenWord => "THEN"
  | elseIfWord => "ELSE IF"
  | elseWord => "ELSE"
  | whileWord => "WHILE"
  | doWord => "DO"
  | repeatWord => "REPEAT"
  | untilWord => "UNTIL"
  | outputWord => "OUTPUT"
  | inputWord => "INPUT"
  | returnWord => "RETURN"
  | tryWord => "TRY"
  | catchWord => "CATCH"
  | finallyWord => "FINALLY"
  | classWord => "CLASS"
  | inheritsWord => "INHERITS"
  | newWord => "NEW"
  | callWord => "CALL"
  | functionWord => "FUNCTION"
  | procedureWord => "PROCEDURE"
  | returnsWord => "RETURNS"
  | declareWord => "DECLARE"
  | constantWord => "CONSTANT"
  | publicWord => "PUBLIC"
  | privateWord => "PRIVATE"
  | trueWord => "TRUE"
  | falseWord => "FALSE"
  | andWord => "AND"
  | orWord => "OR"
  | notWord => "NOT"
  | divWord => "DIV"
  | modWord => "MOD"
  | lengthWord => "LENGTH"
  | upperWord => "UPPER"
  | lowerWord => "LOWER"
  | substringWord => "MID"

end Keyword

/-- How a loop over the elements of a collection is written. -/
inductive CollectionLoop where
  /-- One header that names the element and the collection. -/
  | forEach
  /-- A collection that is asked for one element after another. -/
  | iterator
  deriving DecidableEq, Repr

/-- The spelling of a dialect. Templates hold slots such as `{var}`. -/
structure Style where
  dialect : Dialect
  indentWidth : Nat
  assign : Text
  concat : Text
  keyword : Keyword → Text
  /-- Template of the line that closes a block, with slots for a loop variable and a condition. -/
  closing : Kind → Text
  forTemplate : Text
  /-- Added to a loop header that has a step; without it steps are not written. -/
  stepTemplate : Option Text
  collectionLoop : CollectionLoop
  arrayTemplate : Text
  /-- Typed sources have their variables declared. -/
  declareVariables : Bool
  /-- Dictionaries become records. -/
  records : Bool
  /-- The prompt of an input is written as output before it. -/
  promptInput : Bool
  /-- Routines without a result are procedures. -/
  procedures : Bool
  /-- Calls that stand alone are marked as calls. -/
  callKeyword : Bool
  /-- Names in capitals are declared as constants. -/
  constants : Bool
  /-- Routine names are capitalised where they are defined and where they are called. -/
  capitaliseRoutines : Bool
  /-- Parameters carry their types. -/
  typedParameters : Bool
  /-- Classes have visibilities, constructors and declared instances. -/
  objectModel : Bool
  /-- List literals become array declarations and element assignments. -/
  arrayDeclarations : Bool
  /-- Characters of strings are taken by a substring call. -/
  substrings : Bool

/-- Replaces each slot `{name}` in turn by its value. -/
def fill (template : Text) (slots : List (Text × Text)) : Text :=
  slots.foldl (fun t slot => replaceAll ("\x7b" ++ slot.1 ++ "\x7d") slot.2 t) template

namespace Style

def ib : Style where
  dialect := .ib
  indentWidth := 4
  assign := "←"
  concat := "+"
  keyword
    | .divWord => "div"
    | .modWord => "mod"
    | k => k.spelling
  closing
    | .ifBranch | .elseIfBranch | .elseBranch => "END IF"
    | .forLoop => "end loop"
    | .whileLoop => "END WHILE"
    | .repeatLoop => "UNTIL {cond}"
    | .function => "END FUNCTION"
    | .procedure => "END PROCEDURE"
    | .classBody => "END CLASS"
    | .tryBranch | .catchBranch | .finallyBranch => "END TRY"
  forTemplate := "loop {var} from {start} to {end}"
  stepTemplate := none
  collectionLoop := .iterator
  arrayTemplate := "DECLARE {name} : ARRAY[{size}] OF {type}"
  declareVariables := false
  records := false
  promptInput := false
  procedures := false
  callKeyword := false
  constants := false
  capitaliseRoutines := false
  typedParameters := false
  objectModel := false
  arrayDeclarations := false
  substrings := false

def cambridge : Style where
  dialect := .cambridge
  indentWidth := 3
  assign := "←"
  concat := "&"
  keyword := Keyword.spelling
  closing
    | .ifBranch | .elseIfBranch | .elseBranch => "ENDIF"
    | .forLoop => "NEXT {var}"
    | .whileLoop => "ENDWHILE"
    | .repeatLoop => "UNTIL {cond}"
    | .function => "ENDFUNCTION"
    | .procedure => "ENDPROCEDURE"
    | .classBody => "ENDCLASS"
    | .tryBranch | .catchBranch | .finallyBranch => "ENDTRY"
  forTemplate := "FOR {var} ← {start} TO {end}"
  stepTemplate := some " STEP {step}"
  collectionLoop := .forEach
  arrayTemplate := "DECLARE {name} : ARRAY[0:{last}] OF {type}"
  declareVariables := true
  records := true
  promptInput := true
  procedures := true
  callKeyword := true
  constants := true
  capitaliseRoutines := true
  typedParameters := true
  objectModel := true
  arrayDeclarations := true
  substrings := true

/-- The line that closes a block. A loop without a known variable and a repetition without a known
condition get placeholders. -/
def terminator (st : Style) (kind : Kind) (var cond : Option Text) : Text :=
  fill (st.closing kind) [("var", var.getD "<var>"), ("cond", cond.getD "<condition>")]

def forHeader (st : Style) (var start stop : Text) (step : Option Text) : Text :=
  let header := fill st.forTemplate [("var", var), ("start", start), ("end", stop)]
  match step, st.stepTemplate with
  | some step, some template => header ++ fill template [("step", step)]
  | _, _ => header

/-- The last index of an array of a given size: a number where the size is one. -/
def lastIndex (size : Text) : Text :=
  match unsigned64? size with
  | some n => ofNat (n - 1)
  | none => size ++ " - 1"

def arrayDeclaration (st : Style) (name size type : Text) : Text :=
  let size := trim size
  fill st.arrayTemplate [("name", name), ("size", size), ("last", lastIndex size), ("type", type)]

def indent (st : Style) (depth : Nat) : Text := spaces (depth * st.indentWidth)

def assignment (st : Style) (target value : Text) : Text :=
  target ++ " " ++ st.assign ++ " " ++ value

end Style

def Dialect.style : Dialect → Style
  | .ib => .ib
  | .cambridge => .cambridge

end Pseudocode
