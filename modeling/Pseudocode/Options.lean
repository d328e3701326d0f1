import Pseudocode.Text.Basic

/-! # What is converted into what, and how the choice is named -/

namespace Pseudocode

open Text

/-- How the source delimits its blocks. -/
inductive Convention where
  /-- A header ends in a colon and its body is indented, as in Python. -/
  | indentation
  /-- Braces enclose the body, as in Java. -/
  | braces
  deriving DecidableEq, Repr, Inhabited

/-- The examination board whose spelling is written. -/
inductive Dialect where
  | ib
  | cambridge
  deriving DecidableEq, Repr, Inhabited

structure Options where
  convention : Convention := .indentation
  dialect : Dialect := .cambridge
  deriving DecidableEq, Repr, Inhabited

def Convention.name : Convention → Text
  | .indentation => "indentation"
  | .braces => "braces"

def Dialect.name : Dialect → Text
  | .ib => "ib"
  | .cambridge => "cambridge"

def Options.name (o : Options) : Text := o.convention.name ++ ":" ++ o.dialect.name

inductive OptionsError where
  | unknownConvention (name : Text)
  | unknownDialect (name : Text)
  | malformed (text : Text)
  deriving DecidableEq, Repr

def OptionsError.message : OptionsError → Text
  | .unknownConvention n =>
    "unknown source convention `" ++ n ++ "` (expected `indentation` or `braces`)"
  | .unknownDialect n => "unknown dialect `" ++ n ++ "` (expected `ib` or `cambridge`)"
  | .malformed t => "invalid options `" ++ t ++ "`: expected `<convention>:<dialect>`"

/-- Reads the name of a convention or of its best-known language, in any case. -/
def Convention.parse (s : Text) : Except OptionsError Convention :=
  if isOneOf ["indentation", "python", "py"] (asciiLower (trim s)) then .ok .indentation
  else if isOneOf ["braces", "java"] (asciiLower (trim s)) then .ok .braces
  else .error (.unknownConvention (trim s))

/-- Reads the name of a dialect or one of its aliases, in any case. -/
def Dialect.parse (s : Text) : Except OptionsError Dialect :=
  if isOneOf ["ib", "dialecta"] (asciiLower (trim s)) then .ok .ib
  else if isOneOf ["cambridge", "igcse", "dialectb"] (asciiLower (trim s)) then .ok .cambridge
  else .error (.unknownDialect (trim s))

/-- Reads `<convention>:<dialect>`; a wrong convention is reported before a wrong dialect. -/
def Options.parse (s : Text) : Except OptionsError Options :=
  match splitAt? ":" s with
  | none => .error (.malformed s)
  | some r => do
    let convention ← Convention.parse r.1
    let dialect ← Dialect.parse r.2
    return ⟨convention, dialect⟩

end Pseudocode
