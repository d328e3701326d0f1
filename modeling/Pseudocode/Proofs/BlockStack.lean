import Pseudocode.Nesting.Basic

/-! # What opening, closing and taking a block changes

Each operation on the stack of blocks is described field by field, so that later proofs do not open
it. The depth noted for try chains is kept in step with the stack; then every block closes at the
depth at which it stands. -/

namespace Pseudocode

/-- The line that ends a block at a given depth. -/
def Block.closingLine (st : Style) (b : Block) (depth : Nat) : Text :=
  st.indent depth ++ st.terminator b.kind b.loopVariable b.exitCondition

/-- Events that surveying and converting leave; all others come from the nesting. -/
def Event.isConversion : Event → Bool
  | .surveyed .. | .converting .. | .converted .. | .unmatched .. => true
  | _ => false

namespace State

/-! ### Closing -/

theorem exists_settleRoutine_eq (s : State) (st : Style) (r : Routine) :
    ∃ output log, s.settleRoutine st r = { s with output := output, log := log } := by
  unfold settleRoutine
  simp only
  split
  · exact ⟨_, _, rfl⟩
  · exact ⟨_, _, rfl⟩

/-- The state with its innermost block taken off and the header of a routine written for good. -/
def settleTop (st : Style) (b : Block) (outer : List Block) (s : State) : State :=
  match b.routine with
  | some r => { s with blocks := outer }.settleRoutine st r
  | none => { s with blocks := outer }

theorem exists_settleTop_eq (st : Style) (b : Block) (outer : List Block) (s : State) :
    ∃ output log, s.settleTop st b outer =
      { s with blocks := outer, output := output, log := log } := by
  unfold settleTop
  cases b.routine with
  | none => exact ⟨_, _, rfl⟩
  | some r => exact exists_settleRoutine_eq { s with blocks := outer } st r

/-- The kind under which a block is closed. -/
def closingKind (st : Style) (b : Block) (s : State) : Kind :=
  match b.routine with
  | some r => s.settledKind st r
  | none => b.kind

/-- The depth at which a block is closed inside `depth` others. -/
def closingDepth (b : Block) (depth : Nat) (s : State) : Nat :=
  if b.kind.isTryChain then s.tryDepth.getD depth else depth

/-- Closing settles the innermost block, then notes and writes its end. -/
theorem close_of_cons (st : Style) {s : State} {b : Block} {outer : List Block}
    (h : s.blocks = b :: outer) :
    s.close st =
      ({ s.settleTop st b outer with
        tryDepth := if b.kind.isTryChain then innermostTry? outer else s.tryDepth }.note
          (.closed (s.closingKind st b) (s.closingDepth b outer.length))).emit
        (st.indent (s.closingDepth b outer.length) ++
          st.terminator (s.closingKind st b) b.loopVariable b.exitCondition) := by
  unfold close settleTop closingKind closingDepth
  simp only [h]
  cases b.routine with
  | none => cases b.kind.isTryChain <;> rfl
  | some r =>
    obtain ⟨output, log, he⟩ := exists_settleRoutine_eq { s with blocks := outer } st r
    simp only [he]
    cases b.kind.isTryChain <;> rfl

theorem close_eq_of_cons (st : Style) {s : State} {b : Block} {outer : List Block}
    (h : s.blocks = b :: outer) :
    ∃ kind depth line, s.close st =
      ({ s.settleTop st b outer with
        tryDepth := if b.kind.isTryChain then innermostTry? outer
          else s.tryDepth }.note (.closed kind depth)).emit line :=
  ⟨_, _, _, close_of_cons st h⟩

theorem exists_close_eq (st : Style) (s : State) :
    ∃ tryDepth output log, s.close st =
      { s with blocks := s.blocks.tail, tryDepth := tryDepth, output := output, log := log } := by
  cases hs : s.blocks with
  | nil => exact ⟨s.tryDepth, s.output, _, by simp only [close, hs, note, List.tail_nil]; rw [← hs]⟩
  | cons b outer =>
    obtain ⟨kind, depth, line, he⟩ := close_eq_of_cons st hs
    obtain ⟨output, log, ht⟩ := exists_settleTop_eq st b outer s
    rw [he, ht]
    exact ⟨_, _, _, rfl⟩

@[simp] theorem indents_close (st : Style) (s : State) : (s.close st).indents = s.indents := by
  obtain ⟨_, _, _, h⟩ := exists_close_eq st s
  rw [h]

@[simp] theorem braces_close (st : Style) (s : State) : (s.close st).braces = s.braces := by
  obtain ⟨_, _, _, h⟩ := exists_close_eq st s
  rw [h]

@[simp] theorem chainPending_close (st : Style) (s : State) :
    (s.close st).chainPending = s.chainPending := by
  obtain ⟨_, _, _, h⟩ := exists_close_eq st s
  rw [h]

@[simp] theorem symbols_close (st : Style) (s : State) : (s.close st).symbols = s.symbols := by
  obtain ⟨_, _, _, h⟩ := exists_close_eq st s
  rw [h]

/-- Nothing was ever closed while no block was open. -/
def NeverEmpty (s : State) : Prop := Event.nothingToClose ∉ s.log

theorem NeverEmpty.note {s : State} (h : s.NeverEmpty) {e : Event} (he : e ≠ .nothingToClose) :
    (s.note e).NeverEmpty := by
  intro hm
  rcases List.mem_cons.mp hm with hm | hm
  · exact he hm.symm
  · exact h hm

private theorem NeverEmpty.settleTop {s : State} (h : s.NeverEmpty) (st : Style) (b : Block)
    (outer : List Block) : (s.settleTop st b outer).NeverEmpty := by
  have ht : NeverEmpty { s with blocks := outer } := h
  unfold State.settleTop
  cases b.routine with
  | none => exact ht
  | some r =>
    simp only [State.settleRoutine]
    split
    · exact ht.note (by simp)
    · exact ht.note (by simp)

theorem NeverEmpty.close {s : State} (h : s.NeverEmpty) (st : Style) (hb : s.blocks ≠ []) :
    (s.close st).NeverEmpty := by
  obtain ⟨b, outer, hs⟩ := List.exists_cons_of_ne_nil hb
  obtain ⟨kind, depth, line, he⟩ := close_eq_of_cons st hs
  have hsettled := h.settleTop st b outer
  intro hm
  rw [he] at hm
  rcases List.mem_cons.mp hm with hm | hm
  · simp at hm
  · exact hsettled hm

theorem NeverEmpty.closeMany {s : State} (h : s.NeverEmpty) (st : Style) {n : Nat}
    (hn : n ≤ s.blocks.length) : (closeMany st n s).NeverEmpty := by
  induction n generalizing s with
  | zero => exact h
  | succ n ih =>
    have hb : s.blocks ≠ [] := by
      intro he
      simp [he] at hn
    apply ih (h.close st hb)
    rw [blocks_close, List.length_tail]
    omega

/-- A branch takes the innermost block away if that goes on with it; otherwise it only leaves a
note. -/
theorem take_cases (s : State) (next : Kind) (line : Nat) :
    (∃ b outer, s.blocks = b :: outer ∧ b.kind.accepts next = true ∧
      s.take next line = (some b, { s with blocks := outer })) ∨
    ((∀ b ∈ s.blocks.head?, b.kind.accepts next = false) ∧
      ∃ above, s.take next line = (none, s.note (.orphan line next above))) := by
  cases hs : s.blocks with
  | nil => exact .inr ⟨by simp, none, by simp [take, hs]⟩
  | cons b outer =>
    cases ha : b.kind.accepts next with
    | true => exact .inl ⟨b, outer, rfl, ha, by simp [take, hs, ha]⟩
    | false => exact .inr ⟨by simp [ha], some b.kind, by simp [take, hs, ha]⟩

/-! ### The depth of try chains -/

theorem innermostTry?_cons (b : Block) (outer : List Block) :
    innermostTry? (b :: outer) =
      if b.kind.isTryChain then some outer.length else innermostTry? outer := by
  unfold innermostTry?
  rw [List.findIdx?_cons]
  by_cases h : b.kind.isTryChain
  · simp [h]
  · simp only [h, Bool.false_eq_true, ↓reduceIte, Option.map_map]
    congr 1
    funext i
    simp only [Function.comp_apply, List.length_cons]
    omega

/-- The depth noted for try chains is that of the innermost one. -/
def TryAligned (s : State) : Prop := s.tryDepth = innermostTry? s.blocks

theorem TryAligned.push {s : State} (h : s.TryAligned) (b : Block) : (s.push b).TryAligned := by
  unfold TryAligned at h ⊢
  rw [blocks_push, innermostTry?_cons]
  simp only [State.push, note, depth]
  rw [h]

/-- A branch of the same chain may be opened in place of the innermost block. -/
theorem TryAligned.replace {s : State} (h : s.TryAligned) {b c : Block} {outer : List Block}
    (hs : s.blocks = b :: outer) (hk : c.kind.isTryChain = b.kind.isTryChain) :
    ({ s with blocks := outer }.push c).TryAligned := by
  unfold TryAligned at h ⊢
  rw [hs, innermostTry?_cons] at h
  rw [blocks_push, innermostTry?_cons]
  simp only [State.push, note, depth, hk, h]
  split <;> rfl

theorem TryAligned.close {s : State} (h : s.TryAligned) (st : Style) : (s.close st).TryAligned := by
  unfold TryAligned at h ⊢
  rw [blocks_close]
  cases hs : s.blocks with
  | nil => simpa [State.close, hs, note] using h
  | cons b outer =>
    obtain ⟨kind, depth, line, he⟩ := close_eq_of_cons st hs
    rw [he, List.tail_cons]
    rw [hs, innermostTry?_cons] at h
    by_cases ht : b.kind.isTryChain
    · simp [note, emit, ht]
    · simpa [note, emit, ht] using h

/-- A block whose header is final closes at the depth at which it stands. -/
theorem TryAligned.output_close {s : State} (h : s.TryAligned) (st : Style) {b : Block}
    {outer : List Block} (hs : s.blocks = b :: outer) (hr : b.routine = none) :
    (s.close st).output = s.output ++ [b.closingLine st outer.length] := by
  unfold TryAligned at h
  rw [hs, innermostTry?_cons] at h
  by_cases ht : b.kind.isTryChain
  · simp_all [State.close, note, emit, depth, Block.closingLine]
  · simp_all [State.close, note, emit, depth, Block.closingLine]

/-- The lines that end some blocks, innermost first, inside `depth` others. -/
def closingLines (st : Style) (depth : Nat) : List Block → List Text
  | [] => []
  | b :: outer => b.closingLine st (outer.length + depth) :: closingLines st depth outer

theorem closingLines_append_singleton (st : Style) (depth : Nat) (inner : List Block) (b : Block) :
    closingLines st depth (inner ++ [b]) =
      closingLines st (depth + 1) inner ++ [b.closingLine st depth] := by
  induction inner with
  | nil => simp [closingLines]
  | cons c inner ih =>
    simp only [List.cons_append, closingLines, ih, List.length_append, List.length_singleton]
    rw [Nat.add_assoc, Nat.add_comm 1 depth]

theorem TryAligned.output_closeAll {s : State} (h : s.TryAligned) (st : Style)
    (hr : ∀ b ∈ s.blocks, b.routine = none) :
    (s.closeAll st).output = s.output ++ closingLines st 0 s.blocks := by
  unfold closeAll
  generalize hb : s.blocks = blocks at hr
  induction blocks generalizing s with
  | nil => simp [closeMany, closingLines]
  | cons b outer ih =>
    have houter : (s.close st).blocks = outer := by rw [blocks_close, hb]; rfl
    rw [List.length_cons, closeMany, ih (h.close st) houter (fun c hc => hr c (by simp [hc])),
      h.output_close st hb (hr b (by simp)), closingLines, List.append_assoc]
    rfl

end State

end Pseudocode
