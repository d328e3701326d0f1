import Pseudocode.Pattern
import Pseudocode.Text.Quoting

/-! # Interpolated strings

An interpolated string is a concatenation in disguise: literal text and expressions in braces take
turns. A doubled brace stands for a brace. -/

namespace Pseudocode.Interpolation

open Text Pattern

inductive Piece where
  | literal (s : Text)
  | field (s : Text)
  deriving DecidableEq, Repr

def consLiteral (c : Char) : List Piece → List Piece
  | .literal s :: ps => .literal (c :: s) :: ps
  | ps => .literal [c] :: ps

def consField (c : Char) : List Piece → List Piece
  | .field s :: ps => .field (c :: s) :: ps
  | ps => ps

/-- Literal text and fields of the body of an interpolated string, in order; a field that is not
closed runs to the end. -/
def piecesFrom (inField : Bool) : Text → List Piece
  | [] => if inField then [.field []] else []
  | c :: cs =>
    if inField then
      if c = '}' then .field [] :: piecesFrom false cs else consField c (piecesFrom true cs)
    else match c, cs with
      | '{', '{' :: cs => consLiteral '{' (piecesFrom false cs)
      | '}', '}' :: cs => consLiteral '}' (piecesFrom false cs)
      | '{', cs => piecesFrom true cs
      | c, cs => consLiteral c (piecesFrom false cs)

/-- Operand of the concatenation: quoted text, or the expression of a field without conversion and
format. Empty fields are left out. -/
def Piece.operand? : Piece → Option Text
  | .literal s => some ("\"" ++ s ++ "\"")
  | .field s =>
    match trim (s.takeWhile (noneOf "!:")) with
    | [] => none
    | e => some e

def operands (body : Text) : List Text := (piecesFrom false body).filterMap Piece.operand?

def concatenation (body : Text) : Text :=
  match operands body with
  | [] => "\"\""
  | ps => join " + " ps

def interpolated : Pattern :=
  .wordEdge ++ "f"
    ++ oneOf ["\"" ++ .group 1 (.most (noneOf "\"")) ++ "\"", "'" ++ .group 2 (.most (noneOf "'")) ++ "'"]

def expand (expr : Text) : Text :=
  interpolated.replace (fun m => concatenation ((m.group? 1 <|> m.group? 2).getD [])) expr

end Pseudocode.Interpolation
