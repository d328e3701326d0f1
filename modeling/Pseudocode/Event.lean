import Pseudocode.Block
import Pseudocode.Diagnostic

/-! # Events of a conversion, for those who want to follow it -/

namespace Pseudocode

inductive Level where
  | trace
  | debug
  | warn
  | error
  deriving DecidableEq, Repr

def Level.name : Level → Text
  | .trace => "TRACE"
  | .debug => "DEBUG"
  | .warn => "WARN"
  | .error => "ERROR"

inductive Event where
  | surveyed (routines classes records names : Nat)
  | converting (options : Options) (lines : Nat)
  | converted (line : Nat) (rule : Text)
  | unmatched (report : Report)
  | opened (kind : Kind) (depth : Nat)
  | closed (kind : Kind) (depth : Nat)
  | nothingToClose
  | patched (routine : Text) (returns : Bool) (header : Text)
  | headerMissing (routine : Text) (index : Nat)
  | orphan (line : Nat) (continuation : Kind) (top : Option Kind)
  | bodyBegins (line level : Nat)
  | bodyMissing (line : Nat)
  | misaligned (code : Code) (line columns level : Nat)
  | chainContinues (kind : Option Kind)
  | strayBrace (line : Nat)
  | openedBraceless (kind : Kind)
  deriving DecidableEq, Repr

inductive Detail where
  | number (n : Nat)
  | flag (b : Bool)
  | text (s : Text)
  deriving DecidableEq, Repr

namespace Event

def level : Event → Level
  | surveyed .. | converting .. | unmatched .. | patched .. | headerMissing .. => .debug
  | converted .. | opened .. | closed .. | bodyBegins .. | bodyMissing .. | chainContinues ..
  | openedBraceless .. => .trace
  | orphan .. | misaligned .. | strayBrace .. => .warn
  | nothingToClose => .error

def message : Event → Text
  | surveyed .. => "pre-scan complete"
  | converting .. => "converting"
  | converted .. => "converted"
  | unmatched .. => "no converter matched"
  | opened .. => "open block"
  | closed .. => "close block"
  | nothingToClose => "no open block to close"
  | patched .. => "patched routine header"
  | headerMissing .. => "routine header index out of range"
  | orphan .. => "continuation without a matching block"
  | bodyBegins .. => "body begins"
  | bodyMissing .. => "closing block with no body"
  | misaligned .. => "indentation does not match an open block"
  | chainContinues .. => "chain continues"
  | strayBrace .. => "`\x7d` with no open block"
  | openedBraceless .. => "block opened without `\x7b`"

def kindText : Option Kind → Text
  | some k => "Some(" ++ k.name ++ ")"
  | none => "None"

def details : Event → List (Text × Detail)
  | surveyed routines classes records names =>
    [("routines", .number routines), ("classes", .number classes), ("records", .number records),
     ("names", .number names)]
  | converting options lines =>
    [("convention", .text options.convention.name), ("dialect", .text options.dialect.name),
     ("lines", .number lines)]
  | converted line rule => [("line", .number line), ("converter", .text rule)]
  | unmatched report =>
    [("code", .text Code.unsupportedConstruct.name), ("kind", .text report.construct.name),
     ("line", .number report.number)]
  | opened kind depth => [("kind", .text kind.name), ("depth", .number depth)]
  | closed kind depth => [("kind", .text kind.name), ("depth", .number depth)]
  | nothingToClose => [("code", .text Code.stackInvariant.name)]
  | patched routine returns header =>
    [("routine", .text routine), ("returns", .flag returns), ("header", .text header)]
  | headerMissing routine index => [("routine", .text routine), ("index", .number index)]
  | orphan line continuation top =>
    [("code", .text Code.orphanContinuation.name), ("line", .number line),
     ("continuation", .text continuation.name), ("open", .text (kindText top))]
  | bodyBegins line level => [("line", .number line), ("level", .number level)]
  | bodyMissing line => [("line", .number line)]
  | misaligned code line columns level =>
    [("code", .text code.name), ("line", .number line), ("columns", .number columns),
     ("level", .number level)]
  | chainContinues kind => [("kind", .text (kindText kind))]
  | strayBrace line => [("code", .text Code.strayClosingBrace.name), ("line", .number line)]
  | openedBraceless kind => [("kind", .text kind.name)]

end Event

end Pseudocode
