import Pseudocode.Text.Basic

/-! # Open blocks -/

namespace Pseudocode

inductive Kind where
  | ifBranch
  | elseIfBranch
  | elseBranch
  | forLoop
  | whileLoop
  | repeatLoop
  | function
  | procedure
  | classBody
  | tryBranch
  | catchBranch
  | finallyBranch
  deriving DecidableEq, Repr

namespace Kind

def all : List Kind :=
  [ifBranch, elseIfBranch, elseBranch, forLoop, whileLoop, repeatLoop, function, procedure, classBody,
   tryBranch, catchBranch, finallyBranch]

def name : Kind → Text
  | ifBranch => "If"
  | elseIfBranch => "Elif"
  | elseBranch => "Else"
  | forLoop => "For"
  | whileLoop => "While"
  | repeatLoop => "Repeat"
  | function => "Function"
  | procedure => "Procedure"
  | classBody => "Class"
  | tryBranch => "Try"
  | catchBranch => "Catch"
  | finallyBranch => "Finally"

/-- Branches that take the place of the branch before them. -/
def isContinuation (k : Kind) : Bool :=
  k ∈ [elseIfBranch, elseBranch, catchBranch, finallyBranch]

/-- Whether a branch of kind `next` may follow this one in its chain. -/
def accepts (k next : Kind) : Bool :=
  match next with
  | elseIfBranch | elseBranch => k ∈ [ifBranch, elseIfBranch]
  | catchBranch | finallyBranch => k ∈ [tryBranch, catchBranch]
  | _ => false

def isTryChain (k : Kind) : Bool := k ∈ [tryBranch, catchBranch, finallyBranch]

end Kind

structure Routine where
  /-- Position of the provisional header in the output. -/
  headerIndex : Nat := 0
  name : Text
  /-- The class around a method. -/
  inClass : Option Text := none
  /-- Parameter names as written, a receiver included. -/
  params : List Text := []
  isMethod : Bool := false
  isConstructor : Bool := false
  deriving DecidableEq, Repr

def Routine.key (r : Routine) : Text :=
  match r.inClass with
  | some c => c ++ "." ++ r.name
  | none => r.name

structure Block where
  kind : Kind
  loopVariable : Option Text := none
  exitCondition : Option Text := none
  /-- The name of a class. -/
  name : Option Text := none
  routine : Option Routine := none
  /-- No brace belongs to the block, so its body is the next statement. -/
  braceless : Bool := false
  deriving DecidableEq, Repr

namespace Block

def loop (var : Text) : Block := { kind := .forLoop, loopVariable := some var }

def ofClass (name : Text) : Block := { kind := .classBody, name := some name }

def ofRoutine (r : Routine) : Block := { kind := .function, routine := some r }

end Block

end Pseudocode
