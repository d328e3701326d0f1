import Pseudocode.Expr
import Pseudocode.Proofs.Session

/-! # Programs as trees of statements

A program is a tree: simple statements, chains of branches with bodies, and loops that test their
condition at the end. How the lines of a source show the tree depends on the convention; how the tree
is rendered does not: a header stands at the depth of its chain, its body one deeper, and each chain
ends with one line at its own depth. -/

namespace Pseudocode.Program

/-- A line of a program: its code, and what is written for it. -/
structure Phrase where
  code : Text
  written : List Text
  deriving DecidableEq, Repr

/-- A line that opens a block. -/
structure Header extends Phrase where
  block : Block
  deriving DecidableEq, Repr

mutual
inductive Stmt where
  | simple (phrase : Phrase)
  /-- A block and the further branches of its chain; most blocks have none. -/
  | chain (header : Header) (body : Suite) (later : Branches)
  /-- A loop that goes on while a condition at its end holds. -/
  | doWhile (header : Header) (body : Suite) (cond : Text)

/-- The body of a block. -/
inductive Suite where
  | block (stmts : Stmts)
  /-- A single statement that nothing delimits. -/
  | single (stmt : Stmt)

inductive Stmts where
  | nil
  | cons (stmt : Stmt) (rest : Stmts)

inductive Branches where
  | nil
  | cons (header : Header) (body : Suite) (later : Branches)
end

/-- The condition under which a loop with its condition at the end is left. -/
def exitCondition (st : Style) (symbols : Symbols) (cond : Text) : Text :=
  st.keyword .notWord ++ " (" ++ Setting.expr ⟨st, .braces, symbols⟩ cond ++ ")"

section

variable (st : Style) (symbols : Symbols)

mutual
def Stmt.render (depth : Nat) : Stmt → List Text
  | .simple p => st.indented depth p.written
  | .chain h body later =>
    st.indented depth h.written ++ body.render (depth + 1) ++ later.render depth h.block
  | .doWhile h body cond =>
    st.indented depth h.written ++ body.render (depth + 1) ++
      [{ h.block with exitCondition := some (exitCondition st symbols cond) }.closingLine st depth]

def Suite.render (depth : Nat) : Suite → List Text
  | .block stmts => stmts.render depth
  | .single s => s.render depth

def Stmts.render (depth : Nat) : Stmts → List Text
  | .nil => []
  | .cons s rest => s.render depth ++ rest.render depth

/-- The branches after one that opened `last`, and the end of their chain. -/
def Branches.render (depth : Nat) (last : Block) : Branches → List Text
  | .nil => [last.closingLine st depth]
  | .cons h body later =>
    st.indented depth h.written ++ body.render (depth + 1) ++ later.render depth h.block
end

end

/-- The kinds of block that begin a chain, be it of one branch. -/
def beginsChain (k : Kind) : Bool :=
  k ∈ [.ifBranch, .tryBranch, .whileLoop, .forLoop, .function, .procedure, .classBody]

theorem accepts_cases {k next : Kind} (h : k.accepts next = true) :
    ((k = .ifBranch ∨ k = .elseIfBranch) ∧ (next = .elseIfBranch ∨ next = .elseBranch)) ∨
      ((k = .tryBranch ∨ k = .catchBranch) ∧ (next = .catchBranch ∨ next = .finallyBranch)) := by
  revert h
  cases k <;> cases next <;> decide

theorem isTryChain_eq_of_accepts {k next : Kind} (h : k.accepts next = true) :
    next.isTryChain = k.isTryChain := by
  rcases accepts_cases h with ⟨rfl | rfl, rfl | rfl⟩ | ⟨rfl | rfl, rfl | rfl⟩ <;> rfl

theorem ne_repeatLoop_of_accepts {k next : Kind} (h : k.accepts next = true) :
    k ≠ .repeatLoop ∧ next ≠ .repeatLoop := by
  rcases accepts_cases h with ⟨rfl | rfl, rfl | rfl⟩ | ⟨rfl | rfl, rfl | rfl⟩ <;> decide

end Pseudocode.Program
