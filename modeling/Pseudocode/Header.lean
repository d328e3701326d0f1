import Pseudocode.Name
import Pseudocode.State
import Pseudocode.Style

/-! # Headers of routines whose body decides their spelling

The header of an untyped routine is provisional until its body has been read: only then is it known
whether the routine returns a value. -/

namespace Pseudocode

open Text

namespace Routine

/-- Parameters that are written; a receiver is left out where parameters carry types. -/
def writtenParams (st : Style) (r : Routine) : List Text :=
  r.params.filter fun p => !(st.typedParameters && p = "self")

/-- A procedure where the dialect has them and the routine has no result. -/
def kind (st : Style) (r : Routine) (returns : Bool) : Kind :=
  if st.procedures && (r.isConstructor || !returns) then .procedure else .function

def parameterText (st : Style) (p : Text) : Text :=
  if st.typedParameters then p ++ " : " ++ (DataType.ofName p).name else p

def spelledName (st : Style) (r : Routine) : Text :=
  if r.isConstructor && st.objectModel then st.keyword .newWord
  else if st.capitaliseRoutines then Name.pascalCase r.name
  else r.name

/-- Methods are private when their name begins with an underscore. -/
def visibility (st : Style) (r : Routine) : Text :=
  if r.isMethod && st.objectModel then
    if startsWith "_" r.name && !r.isConstructor then st.keyword .privateWord ++ " "
    else st.keyword .publicWord ++ " "
  else []

def keyword (st : Style) (kind : Kind) : Text :=
  if kind = .procedure then st.keyword .procedureWord else st.keyword .functionWord

def header (st : Style) (r : Routine) (returns : Bool) (type : Option Text) : Text :=
  let params := r.writtenParams st
  let kind := r.kind st returns
  let text := r.visibility st ++ keyword st kind ++ " " ++ r.spelledName st ++ "("
    ++ join ", " (params.map (parameterText st)) ++ ")"
  if kind = .function && st.typedParameters then
    let guess := DataType.ofParameters (params.map fun p => (DataType.ofName p).name)
    text ++ " " ++ st.keyword .returnsWord ++ " " ++ type.getD guess
  else text

end Routine

/-- What begins the comment at the end of an output line. -/
def commentTail : Text := "  // "

def attachComment (comment : Text) (lines : List Text) : List Text :=
  match lines, comment with
  | _, [] => lines
  | first :: rest, _ => (first ++ commentTail ++ comment) :: rest
  | [], _ => []

def commentOf (line : Text) : Text :=
  match splitAt? commentTail line with
  | some r => commentTail ++ r.2
  | none => []

/-- Puts a new header in place of a provisional one, between its indentation and its comment. -/
def patchHeader (header line : Text) : Text := line.takeWhile (· == ' ') ++ header ++ commentOf line

namespace State

/-- Writes the header of a routine for good. -/
def settleRoutine (s : State) (st : Style) (r : Routine) : State :=
  let notes := s.symbols.notes
  let returns := notes.returnsValue r.key
  let header := r.header st returns (notes.returnTypes.get? r.key)
  match s.output[r.headerIndex]? with
  | some line =>
    { s.note (.patched r.key returns header) with
      output := s.output.set r.headerIndex (patchHeader header line) }
  | none => s.note (.headerMissing r.key r.headerIndex)

@[simp] theorem blocks_settleRoutine (s : State) (st : Style) (r : Routine) :
    (s.settleRoutine st r).blocks = s.blocks := by
  unfold settleRoutine
  simp only
  split <;> rfl

def settledKind (s : State) (st : Style) (r : Routine) : Kind :=
  r.kind st (s.symbols.notes.returnsValue r.key)

end State

end Pseudocode
