import Pseudocode.Options
import Pseudocode.Text.Quoting

/-! # Logical lines of a source

Physical lines are joined while brackets are open or a backslash asks for it, comments are taken off
the code, and comment blocks become comment lines. -/

namespace Pseudocode

open Text

inductive LineKind where
  | blank
  | comment
  | code
  deriving DecidableEq, Repr

structure Line where
  /-- Number of the first physical line, counted from one. -/
  number : Nat
  kind : LineKind
  /-- Leading white space as written. -/
  indent : Text := []
  columns : Nat := 0
  /-- Trimmed code, empty unless the line is code. -/
  code : Text := []
  /-- Comment without its marker. -/
  comment : Option Text := none
  deriving DecidableEq, Repr

namespace Line

def blank (number : Nat) : Line := { number, kind := .blank }

def ofComment (number : Nat) (raw text : Text) : Line :=
  { number, kind := .comment, indent := leadingBlanks raw, columns := leadingColumns raw,
    comment := some (trim text) }

def isCode (l : Line) : Bool := l.kind = .code

/-- How blank and comment lines are written; code lines are not written as they are. -/
def passthrough? (l : Line) : Option Text :=
  match l.kind with
  | .blank => some []
  | .comment =>
    match l.comment with
    | some (c :: cs) => some (l.indent ++ "// " ++ c :: cs)
    | _ => some (l.indent ++ "//")
  | .code => none

end Line

def Convention.commentMarker : Convention → Text
  | .indentation => "#"
  | .braces => "//"

/-- Brackets across which lines are joined: braces only where they delimit no blocks. -/
def Convention.joinsBraces (conv : Convention) : Bool := conv = .indentation

/-- Delimiters of a comment block that a line may begin. -/
def Convention.commentBlock? (conv : Convention) (line : Text) : Option (Text × Text) :=
  match conv with
  | .indentation =>
    if startsWith "\"\"\"" line then some ("\"\"\"", "\"\"\"")
    else if startsWith "'''" line then some ("'''", "'''")
    else none
  | .braces => if startsWith "/*" line then some ("/*", "*/") else none

namespace Line

def cleanBlockText (s : Text) : Text := trim ((after? "*" (trim s)).getD (trim s))

def blockLine (number : Nat) (raw text : Text) : List Line :=
  match cleanBlockText text with
  | [] => []
  | body => [ofComment number raw body]

/-- A code line that may go on with the next physical line. -/
structure Joining where
  line : Line
  depth : Int
  continued : Bool

namespace Joining

/-- A backslash at the end of a line continues it, where braces delimit no blocks. -/
def isContinued (conv : Convention) (code : Text) : Bool := conv.joinsBraces && endsWith "\\" code

def start (conv : Convention) (number : Nat) (raw : Text) : Joining :=
  let (code, comment) := splitComment conv.commentMarker raw
  let code := trim code
  { line := { number, kind := .code, indent := leadingBlanks raw, columns := leadingColumns raw, code,
              comment }
    depth := bracketBalance conv.joinsBraces code
    continued := isContinued conv code }

def isOpen (j : Joining) : Bool := 0 < j.depth || j.continued

/-- Joins two pieces of code by a space, except after an opening and before a closing bracket. -/
def glue (code next : Text) : Text :=
  if next.isEmpty then code
  else if code.getLast?.any (· ∈ ['(', '[', '{']) || next.head?.any (· ∈ [')', ']', '}']) then
    code ++ next
  else code ++ " " ++ next

def extend (conv : Convention) (j : Joining) (raw : Text) : Joining :=
  let code := if j.continued then trimEnd j.line.code.dropLast else j.line.code
  let (next, comment) := splitComment conv.commentMarker raw
  let next := trim next
  let code := glue code next
  { line := { j.line with code, comment := j.line.comment <|> comment }
    depth := j.depth + bracketBalance conv.joinsBraces next
    continued := isContinued conv code }

end Joining

inductive Reading where
  | ready
  | inBlock (closing : Text)
  | joining (j : Joining)

/-- The logical lines that end with a physical line, and where the reader stands after it. -/
def Reading.step (conv : Convention) (number : Nat) (raw : Text) : Reading → List Line × Reading
  | .inBlock closing =>
    match splitAt? closing (trim raw) with
    | some r => (blockLine number raw r.1, .ready)
    | none => (blockLine number raw (trim raw), .inBlock closing)
  | .joining j => settle (j.extend conv raw)
  | .ready =>
    let trimmed := trim raw
    if trimmed.isEmpty then ([blank number], .ready)
    else match conv.commentBlock? trimmed with
      | some (opening, closing) =>
        let first := trimmed.drop opening.length
        match splitAt? closing first with
        | some r => ([ofComment number raw (cleanBlockText r.1)], .ready)
        | none => (blockLine number raw first, .inBlock closing)
      | none =>
        match after? conv.commentMarker trimmed with
        | some text => ([ofComment number raw text], .ready)
        | none => settle (.start conv number raw)
where
  settle (j : Joining) : List Line × Reading :=
    if j.isOpen then ([], .joining j) else ([j.line], .ready)

def readFrom (conv : Convention) : Reading → Nat → List Text → List Line
  | .joining j, _, [] => [j.line]
  | _, _, [] => []
  | reading, number, raw :: rest =>
    let r := reading.step conv number raw
    r.1 ++ readFrom conv r.2 (number + 1) rest

def foldBrace? : List Line → Option (List Line)
  | [] => none
  | l :: ls =>
    if l.isCode then some ({ l with code := l.code ++ " \x7b" } :: ls)
    else (foldBrace? ls).map (l :: ·)

/-- Puts a brace that stands on a line of its own at the end of the header before it. -/
def foldBraces : List Line → List Line → List Line
  | before, [] => before.reverse
  | before, l :: ls =>
    match if l.code = "\x7b" then foldBrace? before else none with
    | some before => foldBraces before ls
    | none => foldBraces (l :: before) ls

def ofSource (conv : Convention) (source : Text) : List Line :=
  let lines := readFrom conv .ready 1 (physicalLines source)
  match conv with
  | .indentation => lines
  | .braces => foldBraces [] lines

def nextCode (lines : List Line) : Text :=
  match lines.find? isCode with
  | some l => l.code
  | none => []

end Line

end Pseudocode
