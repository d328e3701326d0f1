import Pseudocode.State
import Pseudocode.Text.Number

/-! # A state as one line of JSON

Members stand in a fixed order and table entries in their order of entry. -/

namespace Pseudocode

open Text

namespace Snapshot

def hexDigit (n : Nat) : Char := if n < 10 then Char.ofNat (n + 48) else Char.ofNat (n + 87)

/-- A character inside a string; only quotes, backslashes and control characters are escaped. -/
def escape (c : Char) : Text :=
  if c = '"' then "\\\""
  else if c = '\\' then "\\\\"
  else if c = '\x08' then "\\b"
  else if c = '\t' then "\\t"
  else if c = '\n' then "\\n"
  else if c = '\x0c' then "\\f"
  else if c = '\r' then "\\r"
  else if c.toNat < 0x20 then "\\u00" ++ [hexDigit (c.toNat / 16), hexDigit (c.toNat % 16)]
  else [c]

def string (s : Text) : Text := "\"" ++ s.flatMap escape ++ "\""

def bool (b : Bool) : Text := if b then "true" else "false"

def option {α : Type} (f : α → Text) : Option α → Text
  | some a => f a
  | none => "null"

def array {α : Type} (f : α → Text) (xs : List α) : Text := "[" ++ join "," (xs.map f) ++ "]"

def object (members : List (Text × Text)) : Text :=
  "\x7b" ++ join "," (members.map fun m => string m.1 ++ ":" ++ m.2) ++ "\x7d"

def table {α : Type} (f : α → Text) (t : Table α) : Text :=
  object (t.entries.map fun e => (e.1, f e.2))

def routine (r : Routine) : Text :=
  object
    [("header_index", ofNat r.headerIndex), ("name", string r.name), ("class", option string r.inClass),
     ("params", array string r.params), ("is_method", bool r.isMethod),
     ("is_constructor", bool r.isConstructor)]

def block (b : Block) : Text :=
  object
    [("kind", string b.kind.name), ("loop_variable", option string b.loopVariable),
     ("exit_condition", option string b.exitCondition), ("name", option string b.name),
     ("routine", option routine b.routine), ("braceless", bool b.braceless)]

end Snapshot

open Snapshot

/-- The whole state but for its events; stacks are written from the outside in. -/
def State.toJson (s : State) : Text :=
  object
    [("block_stack", array block s.blocks.reverse), ("indent_stack", array ofNat s.indents.reverse),
     ("brace_stack", array bool s.braces.reverse), ("chain_pending", bool s.chainPending),
     ("pending_try_indent", option ofNat s.tryDepth),
     ("declared_names", array string s.symbols.survey.names),
     ("record_fields", table (table string) s.symbols.survey.records),
     ("routines", array string s.symbols.survey.routines),
     ("classes", array string s.symbols.survey.classes),
     ("class_fields", table (array string) s.symbols.survey.fields),
     ("declared_types", table string s.symbols.notes.types),
     ("declared_records", array string s.symbols.notes.declaredRecords),
     ("function_returns", table bool s.symbols.notes.returns),
     ("return_types", table string s.symbols.notes.returnTypes),
     ("lambdas", array string s.symbols.notes.lambdas), ("output", array string s.output)]

end Pseudocode
