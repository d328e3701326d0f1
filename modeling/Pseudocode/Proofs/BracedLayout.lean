import Pseudocode.Proofs.BraceChains
import Pseudocode.Proofs.StatementTree

/-! # Programs written with braces

Which trees of statements a braced source can have, and which lists of lines show a tree. A body
stands in braces or is a single statement; its closing brace has a line of its own or is joined to
the next line of its chain. A branch belongs to the nearest chain that can take it, so a single
statement before a branch must not end in such a chain (`Stmt.endsOpen`). -/

namespace Pseudocode.Program

open Text

/-! ### Trees -/

/-- Kinds of block whose body may be a single statement without braces. -/
def allowsSingle (k : Kind) : Bool :=
  k ∈ [.ifBranch, .elseIfBranch, .elseBranch, .whileLoop, .forLoop, .repeatLoop]

/-- The branches that an `else` may follow. -/
def awaitsElse (k : Kind) : Bool := k ∈ [.ifBranch, .elseIfBranch]

mutual
/-- Whether a statement ends in a chain that a following `else` would continue. -/
def Stmt.endsOpen : Stmt → Bool
  | .simple _ => false
  | .chain h body later => later.endsOpen h.block.kind body.endsOpen
  | .doWhile .. => false

def Suite.endsOpen : Suite → Bool
  | .block _ => false
  | .single s => s.endsOpen

/-- The last branch decides, here with its kind and whether its body ends so. -/
def Branches.endsOpen (last : Kind) (bodyOpen : Bool) : Branches → Bool
  | .nil => awaitsElse last || bodyOpen
  | .cons h body later => later.endsOpen h.block.kind body.endsOpen
end

mutual
/-- Statements that braced sources have. Braces are counted outside literals: a statement has as many
opening as closing ones, the header of a body in braces has one opening brace, and that of a single
statement none. -/
def Stmt.Braceable : Stmt → Prop
  | .simple p =>
    p.code ≠ [] ∧ p.code.head? ≠ some '}' ∧ Braces.continuation? p.code = none ∧
      (braceCounts p.code).1 = (braceCounts p.code).2
  | .chain h body later =>
    beginsChain h.block.kind = true ∧ Braces.continuation? h.code = none ∧ h.block.routine = none ∧
      body.Braceable h ∧ later.Braceable h.block.kind body.endsOpen
  | .doWhile h body _ =>
    h.block.kind = .repeatLoop ∧ Braces.continuation? h.code = none ∧ h.block.routine = none ∧
      body.Braceable h

def Suite.Braceable (h : Header) : Suite → Prop
  | .block stmts => braceCounts h.code = (1, 0) ∧ stmts.Braceable
  | .single s =>
    h.code ≠ [] ∧ braceCounts h.code = (0, 0) ∧ allowsSingle h.block.kind = true ∧ s.Braceable

def Stmts.Braceable : Stmts → Prop
  | .nil => True
  | .cons s rest => s.Braceable ∧ rest.Braceable

/-- Every branch may follow the one before it, which is of kind `before` and must not end in a chain
that would take the branch. -/
def Branches.Braceable (before : Kind) (bodyOpen : Bool) : Branches → Prop
  | .nil => True
  | .cons h body later =>
    before.accepts h.block.kind = true ∧ bodyOpen = false ∧
      Braces.continuation? h.code = some h.block.kind ∧ h.block.routine = none ∧
      body.Braceable h ∧ later.Braceable h.block.kind body.endsOpen
end

/-! ### Lines -/

/-- A line says some code, alone or, if `joined`, after the closing brace of the body before it. -/
def Says (joined : Bool) (line : Line) (code : Text) : Prop :=
  line.isCode = true ∧
    if joined then ∃ after, trimStart line.code = '}' :: after ∧ trimStart after = code
    else trimStart line.code = code

/-- The tail of a loop with its condition at the end. -/
def IsTail (cond code : Text) : Prop :=
  ∃ gap gap', gap.all isBlank = true ∧ gap'.all isBlank = true ∧
    code = "while" ++ gap ++ "(" ++ cond ++ ")" ++ gap' ++ ";"

section

variable (convert : Line → Text → Conversion)

mutual
/-- The lines of a statement. -/
def Stmt.BracedAs : Stmt → List Line → Prop
  | .simple p, lines =>
    ∃ line, lines = [line] ∧ Says false line p.code ∧ convert line p.code = ⟨p.written, none⟩
  | .chain h body later, lines =>
    ∃ line inner more joined, lines = line :: (inner ++ more) ∧ Says false line h.code ∧
      convert line h.code = ⟨h.written, some h.block⟩ ∧
      body.BracedAs joined inner ∧ later.BracedAs joined more
  | .doWhile h body cond, lines =>
    ∃ line inner tail code joined, lines = line :: (inner ++ [tail]) ∧ Says false line h.code ∧
      convert line h.code = ⟨h.written, some h.block⟩ ∧
      body.BracedAs joined inner ∧ Says joined tail code ∧ IsTail cond code

/-- The lines of a body. Its closing brace has a line of its own, or is `joined` to the next one. -/
def Suite.BracedAs : Suite → Bool → List Line → Prop
  | .block stmts, joined, lines =>
    ∃ inner, stmts.BracedAs inner ∧
      if joined then lines = inner else ∃ line, lines = inner ++ [line] ∧ Says true line []
  | .single s, joined, lines => joined = false ∧ s.BracedAs lines

def Stmts.BracedAs : Stmts → List Line → Prop
  | .nil, lines => lines = []
  | .cons s rest, lines =>
    ∃ first more, lines = first ++ more ∧ s.BracedAs first ∧ rest.BracedAs more

/-- The lines of further branches; the first may be `joined` to the brace before it. -/
def Branches.BracedAs : Branches → Bool → List Line → Prop
  | .nil, joined, lines => joined = false ∧ lines = []
  | .cons h body later, joined, lines =>
    ∃ line inner more joined', lines = line :: (inner ++ more) ∧ Says joined line h.code ∧
      convert line h.code = ⟨h.written, some h.block⟩ ∧
      body.BracedAs joined' inner ∧ later.BracedAs joined' more
end

end

/-- Whether a body stands in braces. -/
def Suite.braced : Suite → Bool
  | .block _ => true
  | .single _ => false

theorem Suite.Braceable.header {body : Suite} {h : Header} (hw : body.Braceable h) :
    h.code ≠ [] ∧ braceCounts h.code = (body.braced.toNat, 0) := by
  cases body with
  | block stmts =>
    refine ⟨?_, hw.1⟩
    intro he
    have hcount := hw.1
    rw [he, Braces.braceCounts_nil] at hcount
    simp at hcount
  | single t => exact ⟨hw.1, hw.2.1⟩

/-! ### Code of a line -/

theorem Says.trimStart_eq {joined : Bool} {line : Line} {code : Text} (h : Says joined line code) :
    trimStart code = code := by
  obtain ⟨_, h⟩ := h
  cases joined with
  | false => rw [← show trimStart line.code = code from h, trimStart_trimStart]
  | true =>
    obtain ⟨after, _, rfl⟩ := h
    exact trimStart_trimStart after

theorem IsTail.exists_cons {cond code : Text} (h : IsTail cond code) :
    ∃ rest, code = 'w' :: rest := by
  obtain ⟨gap, gap', _, _, rfl⟩ := h
  exact ⟨_, rfl⟩

theorem IsTail.trimStart_eq {cond code : Text} (h : IsTail cond code) : trimStart code = code := by
  obtain ⟨rest, rfl⟩ := h.exists_cons
  have hw : isBlank 'w' = false := by decide
  simp [trimStart, hw]

theorem IsTail.continuation? {cond code : Text} (h : IsTail cond code) :
    Braces.continuation? code = none := by
  obtain ⟨rest, rfl⟩ := h.exists_cons
  exact Braces.continuation?_of_ne h.trimStart_eq (by decide)

theorem IsTail.beginsWith {cond code : Text} (h : IsTail cond code) :
    Name.beginsWith "while" code = true := by
  obtain ⟨gap, gap', hg, _, rfl⟩ := h
  have hafter : after? "while" ("while" ++ gap ++ "(" ++ cond ++ ")" ++ gap' ++ ";") =
      some (gap ++ "(" ++ cond ++ ")" ++ gap' ++ ";") := by
    simp [after?]
  rw [Name.beginsWith, beginsWithWord, hafter]
  cases gap with
  | nil => rfl
  | cons c gap =>
    have hc : isBlank c = true := by simp_all
    simp [isNameChar_of_isBlank hc]

theorem IsTail.tailCondition? {cond code : Text} (h : IsTail cond code) :
    Braces.tailCondition? code = some cond := by
  have hw := h.beginsWith
  obtain ⟨gap, gap', hg, hg', rfl⟩ := h
  have hends : endsWith ";" ("while" ++ gap ++ "(" ++ cond ++ ")" ++ gap' ++ ";") = true := by
    exact List.isSuffixOf_iff_suffix.mpr (List.suffix_append _ _)
  have hsplit : splitAt? "(" ("while" ++ gap ++ "(" ++ cond ++ ")" ++ gap' ++ ";") =
      some ("while" ++ gap, cond ++ ")" ++ gap' ++ ";") := by
    have hmem : '(' ∉ ("while" : Text) ++ gap := by
      intro hm
      rcases List.mem_append.mp hm with hm | hm
      · simp at hm
      · exact absurd (List.all_eq_true.mp hg _ hm) (by decide)
    simpa using splitAt?_of_not_mem hmem (cond ++ ")" ++ gap' ++ ";")
  have hdrop : (cond ++ ")" ++ gap' ++ ";").reverse.dropWhile (· != ')') = ')' :: cond.reverse := by
    have hgap : ∀ c ∈ gap'.reverse, (c != ')') = true := by
      intro c hc
      have hblank := List.all_eq_true.mp hg' c (List.mem_reverse.mp hc)
      simp only [bne_iff_ne, ne_eq]
      rintro rfl
      exact absurd hblank (by decide)
    simp [List.dropWhile_append_of_pos hgap]
  rw [Braces.tailCondition?, hw, hends, hsplit]
  simp only [Bool.and_self, ↓reduceIte, hdrop, List.reverse_reverse]

theorem IsTail.continues {cond code : Text} (h : IsTail cond code) {b : Block}
    (hb : b.kind = .repeatLoop) : Braces.continues b code = true := by
  simp only [Braces.continues, h.continuation?, hb, h.trimStart_eq, h.beginsWith, decide_true,
    Bool.and_self]

end Pseudocode.Program
