import Pseudocode.Text.WordChar

/-! # Patterns of text

A pattern is matched at a place in a text. Where a pattern can match in several ways, they are tried
in a fixed order: the left alternative first, a repetition as long or as short as it says. The first
way in which the whole of a pattern succeeds is its match. -/

namespace Pseudocode

/-- A place in a text: the characters before it, nearest first, and those after it. -/
structure Cursor where
  seen : Text
  rest : Text
  deriving DecidableEq, Repr

abbrev Groups := List (Nat × Text)

inductive Pattern where
  /-- The empty text. -/
  | nothing
  /-- Exactly this text. -/
  | text (s : Text)
  /-- One character of a class. -/
  | one (cls : Char → Bool)
  /-- Any number of characters of a class, as many as possible. -/
  | most (cls : Char → Bool)
  /-- Any number of characters of a class, as few as possible. -/
  | fewest (cls : Char → Bool)
  | seq (p q : Pattern)
  | either (p q : Pattern)
  /-- Any number of matches of a pattern in a row, as many as possible. -/
  | many (p : Pattern)
  /-- Captures what the pattern matches. -/
  | group (i : Nat) (p : Pattern)
  /-- The edge between a word character and anything else. -/
  | wordEdge

namespace Pattern

open Text

variable {α : Type}

/-- Longest run first, then ever shorter ones. -/
def matchMost (cls : Char → Bool) (k : Cursor → Option α) : Text → Text → Option α
  | seen, [] => k ⟨seen, []⟩
  | seen, c :: cs =>
    if cls c then matchMost cls k (c :: seen) cs <|> k ⟨seen, c :: cs⟩ else k ⟨seen, c :: cs⟩

/-- Shortest run first, then ever longer ones. -/
def matchFewest (cls : Char → Bool) (k : Cursor → Option α) : Text → Text → Option α
  | seen, [] => k ⟨seen, []⟩
  | seen, c :: cs =>
    k ⟨seen, c :: cs⟩ <|> if cls c then matchFewest cls k (c :: seen) cs else none

/-- At most `n` steps in a row, more before fewer. -/
def matchMany (step : (Groups → Cursor → Option α) → Groups → Cursor → Option α)
    (k : Groups → Cursor → Option α) : Nat → Groups → Cursor → Option α
  | 0, g, c => k g c
  | n + 1, g, c => step (matchMany step k n) g c <|> k g c

def isWordEdge (c : Cursor) : Bool := c.seen.head?.any isWordChar != c.rest.head?.any isWordChar

/-- Matches at a cursor and goes on with `k`; a way of matching for which `k` fails is given up for
the next one. -/
def matchThen : Pattern → (Groups → Cursor → Option α) → Groups → Cursor → Option α
  | nothing, k, g, c => k g c
  | text s, k, g, c => (after? s c.rest).bind fun r => k g ⟨s.reverse ++ c.seen, r⟩
  | one cls, k, g, c =>
    match c.rest with
    | x :: xs => if cls x then k g ⟨x :: c.seen, xs⟩ else none
    | [] => none
  | most cls, k, g, c => matchMost cls (k g) c.seen c.rest
  | fewest cls, k, g, c => matchFewest cls (k g) c.seen c.rest
  | seq p q, k, g, c => p.matchThen (q.matchThen k) g c
  | either p q, k, g, c => p.matchThen k g c <|> q.matchThen k g c
  | many p, k, g, c => matchMany p.matchThen k c.rest.length g c
  | group i p, k, g, c =>
    p.matchThen (fun g' c' => k ((i, c.rest.take (c.rest.length - c'.rest.length)) :: g') c') g c
  | wordEdge, k, g, c => if isWordEdge c then k g c else none

end Pattern

/-- A match: the characters before it, nearest first, its text and what was captured. -/
structure Match where
  seen : Text
  text : Text
  groups : Groups
  deriving DecidableEq, Repr

namespace Match

def group? (m : Match) (i : Nat) : Option Text := m.groups.lookup i

/-- Captured text, empty where the group took no part. -/
def group (m : Match) (i : Nat) : Text := (m.group? i).getD []

end Match

namespace Pattern

open Text

/-! ### Looking for matches -/

def at? (p : Pattern) (c : Cursor) : Option Match :=
  p.matchThen (fun g c' => some ⟨c.seen, c.rest.take (c.rest.length - c'.rest.length), g⟩) [] c

def lead? (p : Pattern) (s : Text) : Option Match := p.at? ⟨[], s⟩

def whole? (p : Pattern) (s : Text) : Option Match :=
  p.matchThen (fun g c => if c.rest.isEmpty then some ⟨[], s, g⟩ else none) [] ⟨[], s⟩

def leads (p : Pattern) (s : Text) : Bool := (p.lead? s).isSome

def fits (p : Pattern) (s : Text) : Bool := (p.whole? s).isSome

def findFrom (p : Pattern) (seen : Text) : Text → Option Match
  | [] => p.at? ⟨seen, []⟩
  | c :: cs => p.at? ⟨seen, c :: cs⟩ <|> p.findFrom (c :: seen) cs

def find? (p : Pattern) (s : Text) : Option Match := p.findFrom [] s

/-- Replaces matches from left to right; `skip` characters of the last match are still to be passed
over. An empty match is no match here. -/
def replaceFrom (p : Pattern) (f : Match → Text) : Nat → Text → Text → Text
  | _, _, [] => []
  | skip + 1, seen, c :: cs => p.replaceFrom f skip (c :: seen) cs
  | 0, seen, c :: cs =>
    match p.at? ⟨seen, c :: cs⟩ with
    | some m =>
      if m.text.isEmpty then c :: p.replaceFrom f 0 (c :: seen) cs
      else f m ++ p.replaceFrom f (m.text.length - 1) (c :: seen) cs
    | none => c :: p.replaceFrom f 0 (c :: seen) cs

def replace (p : Pattern) (f : Match → Text) (s : Text) : Text := p.replaceFrom f 0 [] s

/-! ### Building patterns -/

instance : Append Pattern := ⟨.seq⟩

instance : Coe String Pattern := ⟨fun s => .text s⟩

/-- Alternatives, earlier ones first. -/
def oneOf : List Pattern → Pattern
  | [] => .one fun _ => false
  | [p] => p
  | p :: ps => .either p (oneOf ps)

def opt (p : Pattern) : Pattern := .either p .nothing

def most1 (cls : Char → Bool) : Pattern := .seq (.one cls) (.most cls)

def fewest1 (cls : Char → Bool) : Pattern := .seq (.one cls) (.fewest cls)

def gap : Pattern := .most isBlank

def gap1 : Pattern := most1 isBlank

def inLine (c : Char) : Bool := c != '\n'

def noneOf (cs : Text) (c : Char) : Bool := !cs.contains c

def wordOr (cs : Text) (c : Char) : Bool := isWordChar c || cs.contains c

/-- The longest stretch of a line. -/
def rest : Pattern := .most inLine

def rest1 : Pattern := most1 inLine

/-- The shortest stretch of a line. -/
def upto : Pattern := .fewest inLine

def upto1 : Pattern := fewest1 inLine

def isNameStart (c : Char) : Bool := c.isAlpha || c == '_'

/-- A name: a letter or underscore, then word characters. -/
def name : Pattern := .one isNameStart ++ .most isWordChar

def dottedName : Pattern := .one isNameStart ++ .most (wordOr ".")

/-- A dotted name that may have a subscript. -/
def target : Pattern := dottedName ++ opt ("[" ++ most1 (noneOf "]") ++ "]")

def word (s : String) : Pattern := .wordEdge ++ s ++ .wordEdge

/-- Each of some words with white space after it, any number of times. -/
def modifiers (ws : List Pattern) : Pattern := .many (oneOf ws ++ gap1)

end Pattern

end Pseudocode
