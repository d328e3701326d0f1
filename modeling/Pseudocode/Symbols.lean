import Pseudocode.Table
import Pseudocode.Block
import Pseudocode.DataType

/-! # What is known about the names of a source -/

namespace Pseudocode

open Text

/-- What a look at the whole source tells before its first line is converted. -/
structure Survey where
  /-- Targets of assignments and declarations. -/
  names : Names := []
  /-- The fields of every variable that is used as a record, with their types. -/
  records : Table (Table Text) := {}
  routines : Names := []
  classes : Names := []
  /-- The fields that every class assigns through its receiver. -/
  fields : Table Names := {}
  deriving DecidableEq, Repr

/-- What the lines converted so far have settled. -/
structure Notes where
  /-- Types of variables and parameters. -/
  types : Table Text := {}
  /-- Variables whose record type has been written. -/
  declaredRecords : Names := []
  /-- Routines, by key, that return a value. -/
  returns : Table Bool := {}
  /-- Return types of routines, by key. -/
  returnTypes : Table Text := {}
  /-- Names bound to functions by an expression. -/
  lambdas : Names := []
  deriving DecidableEq, Repr

structure Symbols where
  survey : Survey := {}
  notes : Notes := {}
  deriving DecidableEq, Repr

namespace Survey

/-- Adds a field of a record; the type first seen stays. -/
def addRecordField (s : Survey) (record field type : Text) : Survey :=
  { s with records := s.records.modify record {} fun fields => fields.add field type }

def addClassField (s : Survey) (cls field : Text) : Survey :=
  { s with fields := s.fields.modify cls [] fun fields => fields.add field }

def addName (s : Survey) (n : Text) : Survey := { s with names := s.names.add n }

def addRoutine (s : Survey) (n : Text) : Survey := { s with routines := s.routines.add n }

def addClass (s : Survey) (n : Text) : Survey := { s with classes := s.classes.add n }

end Survey

namespace Notes

/-- Notes a type unless the name has one. -/
def addType (n : Notes) (name type : Text) : Notes := { n with types := n.types.add name type }

/-- Notes a type in place of any earlier one. -/
def setType (n : Notes) (name type : Text) : Notes := { n with types := n.types.set name type }

/-- Notes the type of an expression, where it shows, unless the name has one. -/
def addTypeOf (n : Notes) (name expr : Text) : Notes :=
  match DataType.ofExpression? expr with
  | some type => n.addType name type.name
  | none => n

def addLambda (n : Notes) (name : Text) : Notes := { n with lambdas := n.lambdas.add name }

def isString (n : Notes) (name : Text) : Bool := n.types.get? name = some DataType.string.name

def returnsValue (n : Notes) (key : Text) : Bool := (n.returns.get? key).getD false

/-- Notes that the innermost open routine returns a value, of a given type if it is known. The type
first noted stays. -/
def markReturn (n : Notes) (blocks : List Block) (type : Option Text) : Notes :=
  match blocks.findSome? fun b => b.routine.map Routine.key with
  | some key =>
    { n with
      returnTypes := match type with
        | some type => n.returnTypes.add key type
        | none => n.returnTypes
      returns := n.returns.set key true }
  | none => n

end Notes

namespace Symbols

/-- Names that are called like routines. -/
def isRoutine (s : Symbols) (name : Text) : Bool :=
  s.survey.routines.contains name || s.notes.lambdas.contains name

def isClass (s : Symbols) (name : Text) : Bool := s.survey.classes.contains name

end Symbols

end Pseudocode
