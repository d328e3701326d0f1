import Pseudocode.Rule.Braced.Control
import Pseudocode.Rule.Braced.Statement
import Pseudocode.Rule.Indented.Assignment
import Pseudocode.Rule.Indented.Routine
import Pseudocode.Rule.Indented.Statement

/-! # The rules of each convention, in the order in which they are tried -/

namespace Pseudocode

/-- Rules for indented sources; special forms stand before the general ones that would take them. -/
def Indented.rules : List Rule :=
  [⟨"pass", passRule⟩,
   ⟨"import", importRule⟩,
   ⟨"class", classRule⟩,
   ⟨"def", defRule⟩,
   ⟨"return", returnRule⟩,
   ⟨"elif", elseIfRule⟩,
   ⟨"if", ifRule⟩,
   ⟨"else", elseRule⟩,
   ⟨"for_range", rangeRule⟩,
   ⟨"for_each", forEachRule⟩,
   ⟨"while", whileRule⟩,
   ⟨"try", tryRule⟩,
   ⟨"except", exceptRule⟩,
   ⟨"finally", finallyRule⟩,
   ⟨"print", printRule⟩,
   ⟨"lambda", lambdaRule⟩,
   ⟨"comprehension", comprehensionRule⟩,
   ⟨"input", inputRule⟩,
   ⟨"compound_assignment", compoundRule⟩,
   ⟨"multiple_assignment", multipleRule⟩,
   ⟨"dict_literal", dictRule⟩,
   ⟨"list_literal", listRule⟩,
   ⟨"instantiation", instanceRule⟩,
   ⟨"constant", constantRule⟩,
   ⟨"assignment", assignmentRule⟩,
   ⟨"call", callRule⟩]

def Braced.rules : List Rule :=
  [⟨"package_import", importRule⟩,
   ⟨"scanner_setup", scannerRule⟩,
   ⟨"class", classRule⟩,
   ⟨"method", methodRule⟩,
   ⟨"else_if", elseIfRule⟩,
   ⟨"if", ifRule⟩,
   ⟨"else", elseRule⟩,
   ⟨"for_count", countRule⟩,
   ⟨"for_each", forEachRule⟩,
   ⟨"while", whileRule⟩,
   ⟨"empty_while", emptyWhileRule⟩,
   ⟨"do", doRule⟩,
   ⟨"try", tryRule⟩,
   ⟨"catch", catchRule⟩,
   ⟨"finally", finallyRule⟩,
   ⟨"return", returnRule⟩,
   ⟨"print", printRule⟩,
   ⟨"scanner_input", inputRule⟩,
   ⟨"array_declaration", arrayRule⟩,
   ⟨"declaration", declarationRule⟩,
   ⟨"increment", incrementRule⟩,
   ⟨"compound_assignment", compoundRule⟩,
   ⟨"assignment", assignmentRule⟩,
   ⟨"call", callRule⟩]

def Convention.rules : Convention → List Rule
  | .indentation => Indented.rules
  | .braces => Braced.rules

/-- The translation by the first rule that accepts a line, with the name of the rule. Each rule starts from the
state that the one before it left. -/
def Converting.first (code : Text) : List Rule → Converting (Text × Translation)
  | [] => failure
  | r :: rs => (do return (r.name, ← r.apply.convert code)) <|> first code rs

def State.dispatch (st : Style) (conv : Convention) (indent code : Text) (s : State) :
    Option (Text × Translation) × State :=
  (Converting.first code conv.rules).run { style := st, convention := conv, indent } s

def Context.convert? (cx : Context) (code : Text) : Option (Text × Outcome) :=
  cx.convention.rules.findSome? fun r => (r.apply cx code).map fun o => (r.name, o)

/-- The line that marks code without a rule. -/
def unsupportedLine (indent code : Text) : Text := indent ++ "// Unsupported: " ++ code

end Pseudocode
