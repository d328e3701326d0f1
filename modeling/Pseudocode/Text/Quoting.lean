import Pseudocode.Text.Basic

/-! # String literals inside a line of code

One classification of the characters of a line decides what is code and what belongs to a string
literal. Comments, separators, brackets and assignments are looked for among the code characters
only. -/

namespace Pseudocode.Text

/-- The double and the single quote both delimit literals. -/
def isQuote (c : Char) : Bool := c == '"' || c == '\''

/-- Where a scan stands before a character. -/
inductive Mode where
  | code
  | literal (quote : Char)
  | escaped (quote : Char)
  deriving DecidableEq, Repr

/-- The part a character plays in its line. -/
inductive Role where
  | code
  | opening
  | body
  | closing
  deriving DecidableEq, Repr

/-- Either quote opens a literal and the same quote closes it, unless a backslash escapes it. -/
def Mode.role : Mode → Char → Role
  | .code, c => if isQuote c then .opening else .code
  | .literal q, c => if c = q then .closing else .body
  | .escaped _, _ => .body

def Mode.next : Mode → Char → Mode
  | .code, c => if isQuote c then .literal c else .code
  | .literal q, c => if c = '\\' then .escaped q else if c = q then .code else .literal q
  | .escaped q, _ => .literal q

def rolesFrom : Mode → Text → List (Char × Role)
  | _, [] => []
  | m, c :: cs => (c, m.role c) :: rolesFrom (m.next c) cs

/-- Every character has a role, and none is lost. -/
@[simp] theorem map_fst_rolesFrom (m : Mode) (s : Text) : (rolesFrom m s).map (·.1) = s := by
  induction s generalizing m with
  | nil => rfl
  | cons c cs ih => simp [rolesFrom, ih]

def roles (s : Text) : List (Char × Role) := rolesFrom .code s

def unquoted (s : Text) : Text := ((roles s).filter (·.2 = .code)).map (·.1)

/-! ### Brackets -/

def bracketWeight (c : Char) : Int :=
  if c ∈ ['(', '[', '{'] then 1 else if c ∈ [')', ']', '}'] then -1 else 0

/-- The weight of a character as a bracket: none inside a literal. -/
def Mode.weight (m : Mode) (c : Char) : Int :=
  if m.role c = .code then bracketWeight c else 0

/-- Net number of brackets left open. Braces count only on demand, because in some sources they
delimit blocks. -/
def bracketBalance (braces : Bool) (s : Text) : Int :=
  ((unquoted s).filter fun c => braces || (c != '{' && c != '}')).foldr
    (fun c n => bracketWeight c + n) 0

def braceCounts (s : Text) : Nat × Nat := ((unquoted s).count '{', (unquoted s).count '}')

/-! ### Comments -/

/-- The text around the first comment marker outside literals. -/
def commentFrom (marker : Text) : Mode → Text → Option (Text × Text)
  | _, [] => none
  | m, c :: cs =>
    if m.role c = .code && marker.isPrefixOf (c :: cs) then
      some ([], (c :: cs).drop marker.length)
    else (commentFrom marker (m.next c) cs).map fun r => (c :: r.1, r.2)

def splitComment (marker line : Text) : Text × Option Text :=
  match commentFrom marker .code line with
  | some r => (trimEnd r.1, some (trim r.2))
  | none => (trimEnd line, none)

/-! ### Separators outside brackets -/

/-- The piece up to the next separator at depth zero, and the pieces after it. -/
def splitFrom (sep : Char) : Mode → Int → Text → Text × List Text
  | _, _, [] => ([], [])
  | m, d, c :: cs =>
    if m.role c = .code && bracketWeight c == 0 && c == sep && d == 0 then
      let r := splitFrom sep .code 0 cs
      ([], r.1 :: r.2)
    else
      let r := splitFrom sep (m.next c) (d + m.weight c) cs
      (c :: r.1, r.2)

/-- Trimmed pieces between the separators that stand outside literals and brackets. Blank text has
no pieces. -/
def splitTopLevel (sep : Char) (s : Text) : List Text :=
  let r := splitFrom sep .code 0 s
  match trim r.1, r.2 with
  | [], [] => []
  | p, ps => p :: ps.map trim

/-! ### Assignments -/

/-- Characters that turn a following `=` into part of a longer operator. -/
def operatorStarts : Text := "=!<>+-*/%&|^:"

/-- The text around the first plain `=` at depth zero; `prev` is the character before. -/
def assignmentFrom : Char → Mode → Int → Text → Option (Text × Text)
  | _, _, _, [] => none
  | prev, m, d, c :: cs =>
    if m.role c = .code && c == '=' && d == 0 && cs.head? != some '='
        && !operatorStarts.contains prev then
      some ([], cs)
    else
      (assignmentFrom c (m.next c) (d + m.weight c) cs).map fun r => (c :: r.1, r.2)

/-- Target and value of a plain assignment: comparisons, compound operators, brackets and literals
are passed over. -/
def splitAssignment? (s : Text) : Option (Text × Text) := assignmentFrom ' ' .code 0 s

/-! ### Calls -/

/-- Reads backwards to the parenthesis that brings the depth to zero. -/
def openParenFrom : Int → Text → Text → Option (Text × Text)
  | _, _, [] => none
  | d, tail, c :: cs =>
    if c = '(' && d == 1 then some (cs.reverse, tail)
    else
      let d := if c = ')' then d + 1 else if c = '(' then d - 1 else d
      openParenFrom d (c :: tail) cs

/-- The text around the `(` that matches the last `)`. Quotes play no part here. -/
def splitLastParens? (s : Text) : Option (Text × Text) := openParenFrom 0 [] s.reverse

def callArguments? (s : Text) : Option Text :=
  if endsWith ")" (trimEnd s) then (splitLastParens? (trimEnd s)).map (·.2.dropLast) else none

/-! ### Code segments -/

/-- A string literal; the last one of a line may lack its closing quote. -/
structure Literal where
  quote : Char
  body : Text
  closed : Bool
  deriving DecidableEq, Repr

def Literal.text (l : Literal) : Text :=
  l.quote :: (l.body ++ if l.closed then [l.quote] else [])

/-- Single-quoted literals are written with double quotes where the body allows it. -/
def Literal.doubleQuoted (l : Literal) : Literal :=
  if l.quote = '\'' && !l.body.contains '"' then { l with quote := '"' } else l

/-- A literal, in double quotes if they are asked for and its body allows them. -/
def Literal.requoted (doubleQuotes : Bool) (l : Literal) : Literal := if doubleQuotes then l.doubleQuoted else l

section

variable (doubleQuotes : Bool) (f : Text → Text)

mutual

/-- Reads on outside literals. `code` has been read since the last one, and `out` is written. -/
def codeLoop (code out : Text) : Text → Text
  | [] => out ++ f code
  | c :: cs =>
    if isQuote c then literalLoop c [] false (out ++ f code) cs
    else codeLoop (code ++ [c]) out cs

/-- Reads on in a literal of which `body` has been read. -/
def literalLoop (quote : Char) (body : Text) (escaped : Bool) (out : Text) : Text → Text
  | [] => out ++ ((Literal.mk quote body false).requoted doubleQuotes).text ++ f []
  | c :: cs =>
    if escaped then literalLoop quote (body ++ [c]) false out cs
    else if c = '\\' then literalLoop quote (body ++ [c]) true out cs
    else if c = quote then codeLoop [] (out ++ ((Literal.mk quote body true).requoted doubleQuotes).text) cs
    else literalLoop quote (body ++ [c]) false out cs

end

/-- Applies `f` to the code between literals, empty stretches included. -/
def mapCode (s : Text) : Text := codeLoop doubleQuotes f [] [] s

end

end Pseudocode.Text
