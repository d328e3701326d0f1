import Pseudocode.Header

/-! # Opening and closing blocks -/

namespace Pseudocode

/-- A code line on its way through a conversion: the code still to be converted, empty when the line
was all structure, and the block that a further branch took away. -/
structure Entry where
  code : Text
  taken : Option Block := none
  deriving DecidableEq, Repr

namespace State

open Text

def innermostTry? (blocks : List Block) : Option Nat :=
  (blocks.findIdx? (·.kind.isTryChain)).map fun i => blocks.length - 1 - i

def push (s : State) (b : Block) : State :=
  { s.note (.opened b.kind s.depth) with
    tryDepth := if b.kind.isTryChain then some s.depth else s.tryDepth
    blocks := b :: s.blocks }

@[simp] theorem blocks_push (s : State) (b : Block) : (s.push b).blocks = b :: s.blocks := rfl

/-- Closes the innermost block with its last line. The header of a routine is settled first, and a
try chain ends at the depth at which it began. -/
def close (st : Style) (s : State) : State :=
  match s.blocks with
  | [] => s.note .nothingToClose
  | b :: outer =>
    let s := { s with blocks := outer }
    let kind := match b.routine with
      | some r => s.settledKind st r
      | none => b.kind
    let s := match b.routine with
      | some r => s.settleRoutine st r
      | none => s
    let depth := if b.kind.isTryChain then s.tryDepth.getD s.depth else s.depth
    let s := if b.kind.isTryChain then { s with tryDepth := innermostTry? outer } else s
    (s.note (.closed kind depth)).emit
      (st.indent depth ++ st.terminator kind b.loopVariable b.exitCondition)

@[simp] theorem blocks_close (st : Style) (s : State) : (s.close st).blocks = s.blocks.tail := by
  unfold close
  split
  · next h => simp [note, h]
  · next b outer h =>
    simp only [emit, note, h, List.tail_cons]
    split <;> split <;> simp

/-- Takes the innermost block away for a further branch of its chain, if it accepts the branch. -/
def take (s : State) (next : Kind) (line : Nat) : Option Block × State :=
  match s.blocks with
  | b :: outer =>
    if b.kind.accepts next then (some b, { s with blocks := outer })
    else (none, s.note (.orphan line next (some b.kind)))
  | [] => (none, s.note (.orphan line next none))

def closeMany (st : Style) : Nat → State → State
  | 0, s => s
  | n + 1, s => closeMany st n (s.close st)

def closeAll (st : Style) (s : State) : State := closeMany st s.blocks.length s

theorem blocks_closeMany (st : Style) (n : Nat) (s : State) :
    (closeMany st n s).blocks = s.blocks.drop n := by
  induction n generalizing s with
  | zero => rfl
  | succ n ih => simp [closeMany, ih]

@[simp] theorem blocks_closeAll (st : Style) (s : State) : (s.closeAll st).blocks = [] := by
  simp [closeAll, blocks_closeMany]

end State

end Pseudocode
