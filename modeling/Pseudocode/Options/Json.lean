import Pseudocode.Options

/-! # Options in configuration files

A configuration is a JSON object with the optional members `convention` and `dialect`. Other members
are allowed as long as their values are well-formed. It may also be an array: the convention, then
the dialect, either left out from the end. -/

namespace Pseudocode

open Text

namespace Json

def skipSpace (s : Text) : Text := s.dropWhile fun c => c ∈ [' ', '\n', '\t', '\r']

def hexValue? (c : Char) : Option Nat :=
  if c.isDigit then some (c.toNat - '0'.toNat)
  else if 'a' ≤ c ∧ c ≤ 'f' then some (c.toNat - 'a'.toNat + 10)
  else if 'A' ≤ c ∧ c ≤ 'F' then some (c.toNat - 'A'.toNat + 10)
  else none

def hex4? (s : Text) : Option (Nat × Text) :=
  match s with
  | a :: b :: c :: d :: rest => do
    let a ← hexValue? a
    let b ← hexValue? b
    let c ← hexValue? c
    let d ← hexValue? d
    return (((a * 16 + b) * 16 + c) * 16 + d, rest)
  | _ => none

/-- The characters that a backslash and one letter stand for. -/
def shortEscape? : Char → Option Char
  | '"' => some '"'
  | '\\' => some '\\'
  | '/' => some '/'
  | 'b' => some '\x08'
  | 'f' => some '\x0c'
  | 'n' => some '\n'
  | 'r' => some '\r'
  | 't' => some '\t'
  | _ => none

/-- A code unit after `\u`, joined with the one after it when it is the first of a pair. -/
def unicodeEscape? (s : Text) : Option (Char × Text) := do
  let (hi, rest) ← hex4? s
  if 0xD800 ≤ hi ∧ hi < 0xDC00 then
    let (lo, rest) ← after? "\\u" rest >>= hex4?
    if 0xDC00 ≤ lo ∧ lo < 0xE000 then
      return (Char.ofNat (0x10000 + (hi - 0xD800) * 0x400 + (lo - 0xDC00)), rest)
    else none
  else if 0xDC00 ≤ hi ∧ hi < 0xE000 then none
  else return (Char.ofNat hi, rest)

/-- The body of a string after its opening quote; at most `fuel` characters are decoded. -/
def stringBody? : Nat → Text → Option (Text × Text)
  | 0, _ => none
  | fuel + 1, s =>
    match s with
    | [] => none
    | '"' :: rest => some ([], rest)
    | '\\' :: 'u' :: rest => do
      let (c, rest) ← unicodeEscape? rest
      let (body, rest) ← stringBody? fuel rest
      return (c :: body, rest)
    | '\\' :: e :: rest => do
      let c ← shortEscape? e
      let (body, rest) ← stringBody? fuel rest
      return (c :: body, rest)
    | c :: rest =>
      if c = '\\' ∨ c.toNat < 0x20 then none
      else (stringBody? fuel rest).map fun r => (c :: r.1, r.2)

def string? (s : Text) : Option (Text × Text) :=
  match s with
  | '"' :: rest => stringBody? (rest.length + 1) rest
  | _ => none

/-- A choice by name: a string, or an object whose only member has that name and the value `null`. -/
def choice? (s : Text) : Option (Text × Text) :=
  match s with
  | '{' :: rest => do
    let (name, rest) ← string? (skipSpace rest)
    let rest ← after? ":" (skipSpace rest)
    let rest ← after? "null" (skipSpace rest)
    let rest ← after? "\x7d" (skipSpace rest)
    return (name, rest)
  | _ => string? s

def skipDigits? (s : Text) : Option Text :=
  match s.takeWhile Char.isDigit with
  | [] => none
  | _ => some (s.dropWhile Char.isDigit)

def skipFraction? (s : Text) : Option Text :=
  match s with
  | '.' :: rest => skipDigits? rest
  | _ => some s

def skipExponent? (s : Text) : Option Text :=
  match s with
  | e :: rest =>
    if e = 'e' ∨ e = 'E' then
      match rest with
      | '+' :: ds => skipDigits? ds
      | '-' :: ds => skipDigits? ds
      | ds => skipDigits? ds
    else some s
  | [] => some s

/-- A number: no leading zeros, then an optional fraction and exponent. -/
def skipNumber? (s : Text) : Option Text := do
  let s := (after? "-" s).getD s
  let rest ← match s with
    | '0' :: rest => some rest
    | _ => skipDigits? s
  skipFraction? rest >>= skipExponent?

def skipString? : Text → Option Text
  | [] => none
  | '"' :: rest => some rest
  | '\\' :: 'u' :: a :: b :: c :: d :: rest =>
    if (hex4? [a, b, c, d]).isSome then skipString? rest else none
  | '\\' :: e :: rest => if (shortEscape? e).isSome then skipString? rest else none
  | c :: rest => if c = '\\' ∨ c.toNat < 0x20 then none else skipString? rest

/-- What comes next while a value is passed over. -/
inductive Expecting where
  | value
  | valueOrEnd
  | name
  | nameOrEnd
  | separator

/-- Goes on after a complete value inside the brackets `nest`, innermost first. -/
def skipAfter? (again : List Char → Expecting → Text → Option Text) (nest : List Char)
    (rest : Text) : Option Text :=
  if nest.isEmpty then some rest else again nest .separator rest

def skipOneValue? (again : List Char → Expecting → Text → Option Text) (nest : List Char) (s : Text) :
    Option Text :=
  match s with
  | '[' :: rest => again (']' :: nest) .valueOrEnd rest
  | '{' :: rest => again ('}' :: nest) .nameOrEnd rest
  | '"' :: rest => skipString? rest >>= skipAfter? again nest
  | _ =>
    (after? "null" s <|> after? "true" s <|> after? "false" s <|> skipNumber? s)
      >>= skipAfter? again nest

def skipName? (again : List Char → Expecting → Text → Option Text) (nest : List Char) (s : Text) :
    Option Text := do
  let rest ← after? "\"" s >>= skipString?
  let rest ← after? ":" (skipSpace rest)
  again nest .value rest

/-- Passes over one value of any kind; every step takes at least one character, so the length of the
text is enough fuel. -/
def skipValue? : Nat → List Char → Expecting → Text → Option Text
  | 0, _, _, _ => none
  | fuel + 1, nest, expecting, s =>
    match expecting, nest, skipSpace s with
    | .valueOrEnd, _ :: outer, ']' :: rest => skipAfter? (skipValue? fuel) outer rest
    | .nameOrEnd, _ :: outer, '}' :: rest => skipAfter? (skipValue? fuel) outer rest
    | .value, nest, s | .valueOrEnd, nest, s => skipOneValue? (skipValue? fuel) nest s
    | .name, nest, s | .nameOrEnd, nest, s => skipName? (skipValue? fuel) nest s
    | .separator, b :: outer, c :: rest =>
      if c = b then skipAfter? (skipValue? fuel) outer rest
      else if c = ',' then skipValue? fuel (b :: outer) (if b = ']' then .value else .name) rest
      else none
    | .separator, _, _ => none

end Json

open Json

/-- The convention that a configuration names; case matters here. -/
def Convention.ofConfig? (s : Text) : Option Convention :=
  if isOneOf ["indentation", "python"] s then some .indentation
  else if isOneOf ["braces", "java"] s then some .braces
  else none

def Dialect.ofConfig? (s : Text) : Option Dialect :=
  if isOneOf ["ib", "dialectA"] s then some .ib
  else if isOneOf ["cambridge", "dialectB", "igcse"] s then some .cambridge
  else none

def Convention.ofJson? (s : Text) : Option (Convention × Text) := do
  let (name, rest) ← choice? s
  return (← Convention.ofConfig? name, rest)

def Dialect.ofJson? (s : Text) : Option (Dialect × Text) := do
  let (name, rest) ← choice? s
  return (← Dialect.ofConfig? name, rest)

/-- Members of a configuration read so far; neither may be given twice. -/
structure Config where
  convention : Option Convention := none
  dialect : Option Dialect := none

/-- Reads one member after its name and returns what follows its value. -/
def Config.member? (config : Config) (name s : Text) : Option (Config × Text) :=
  if name = "convention" then do
    let (convention, rest) ← Convention.ofJson? s
    if config.convention.isSome then none
    else return ({ config with convention := some convention }, rest)
  else if name = "dialect" then do
    let (dialect, rest) ← Dialect.ofJson? s
    if config.dialect.isSome then none
    else return ({ config with dialect := some dialect }, rest)
  else (skipValue? (s.length + 1) [] .value s).map fun rest => (config, rest)

/-- Reads members up to the closing brace; `fuel` bounds their number. -/
def Config.members? : Nat → Config → Text → Option (Config × Text)
  | 0, _, _ => none
  | fuel + 1, config, s => do
    let (name, rest) ← string? (skipSpace s)
    let rest ← after? ":" (skipSpace rest)
    let (config, rest) ← config.member? name (skipSpace rest)
    match skipSpace rest with
    | '}' :: rest => return (config, rest)
    | ',' :: rest => Config.members? fuel config rest
    | _ => none

def Config.object? (s : Text) : Option (Config × Text) :=
  match skipSpace s with
  | '}' :: rest => some ({}, rest)
  | _ => Config.members? s.length {} s

def Config.array? (s : Text) : Option (Config × Text) :=
  match skipSpace s with
  | ']' :: rest => some ({}, rest)
  | s => do
    let (convention, rest) ← Convention.ofJson? s
    match skipSpace rest with
    | ']' :: rest => return ({ convention := some convention }, rest)
    | ',' :: rest =>
      let (dialect, rest) ← Dialect.ofJson? (skipSpace rest)
      let rest ← after? "]" (skipSpace rest)
      return (⟨some convention, some dialect⟩, rest)
    | _ => none

/-- Reads options from a configuration; what is absent keeps its default. -/
def Options.ofJson? (s : Text) : Option Options := do
  let (config, rest) ← match skipSpace s with
    | '{' :: rest => Config.object? rest
    | '[' :: rest => Config.array? rest
    | _ => none
  if (skipSpace rest).isEmpty then
    return ⟨config.convention.getD .indentation, config.dialect.getD .cambridge⟩
  else none

def Options.toJson (o : Options) : Text :=
  "\x7b\"convention\":\"" ++ o.convention.name ++ "\",\"dialect\":\"" ++ o.dialect.name ++ "\"\x7d"

end Pseudocode
