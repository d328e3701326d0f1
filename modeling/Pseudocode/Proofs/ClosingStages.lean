import Pseudocode.Proofs.Journal

/-! # Closings one after another

An indented line first closes some of the innermost blocks, one after another, and at the end all blocks
that are left are closed. Such a stage of closings changes the output in two ways only: each block adds
its last line, and a block that is a routine has its header settled. -/

namespace Pseudocode

/-- The header of a routine, given what is noted of it. -/
def Routine.settledHeader (st : Style) (notes : Notes) (r : Routine) : Text :=
  r.header st (notes.returnsValue r.key) (notes.returnTypes.get? r.key)

/-! ### The output of one closing -/

namespace Block

/-- Some output with the header of a routine settled. -/
def settle (st : Style) (notes : Notes) (b : Block) (output : List Text) : List Text :=
  match b.routine with
  | some r => output.modify r.headerIndex (patchHeader (r.settledHeader st notes))
  | none => output

variable (st : Style) (notes : Notes) {b : Block} {output : List Text}

@[simp] theorem length_settle : (b.settle st notes output).length = output.length := by
  unfold settle
  split
  · exact List.length_modify ..
  · rfl

private theorem getElem?_settle_of_ne {j : Nat} (h : ∀ r ∈ b.routine, r.headerIndex ≠ j) :
    (b.settle st notes output)[j]? = output[j]? := by
  unfold settle
  split
  · next r hr => exact List.getElem?_modify_ne _ _ (h r hr)
  · rfl

private theorem getElem?_settle_self {r : Routine} (hr : b.routine = some r) :
    (b.settle st notes output)[r.headerIndex]? =
      output[r.headerIndex]?.map (patchHeader (r.settledHeader st notes)) := by
  unfold settle
  rw [hr]
  exact List.getElem?_modify_eq ..

end Block

namespace State

theorem output_settleRoutine (s : State) (st : Style) (r : Routine) :
    (s.settleRoutine st r).output =
      s.output.modify r.headerIndex (patchHeader (r.settledHeader st s.symbols.notes)) := by
  unfold settleRoutine
  rw [List.modify_eq_set_getElem?]
  cases hline : s.output[r.headerIndex]? with
  | none => simp [note]
  | some line => simp [Routine.settledHeader]

/-- Closing a block settles its header and adds its last line. -/
theorem output_close_of_cons (st : Style) {s : State} {b : Block} {outer : List Block}
    (h : s.blocks = b :: outer) :
    (s.close st).output = b.settle st s.symbols.notes s.output ++
      [st.indent (s.closingDepth b outer.length) ++
        st.terminator (s.closingKind st b) b.loopVariable b.exitCondition] := by
  have hsettled : (s.settleTop st b outer).output = b.settle st s.symbols.notes s.output := by
    unfold settleTop Block.settle
    cases b.routine with
    | none => rfl
    | some r => exact output_settleRoutine { s with blocks := outer } st r
  rw [close_of_cons st h, ← hsettled]
  rfl

section

variable (st : Style) {s : State} {b : Block} {outer : List Block} (h : s.blocks = b :: outer)

include h

theorem length_output_close : (s.close st).output.length = s.output.length + 1 := by
  rw [output_close_of_cons st h, List.length_append, Block.length_settle]
  rfl

/-- Closing a block changes no line but the header of its routine. -/
theorem getElem?_output_close_of_ne {j : Nat} (hj : j < s.output.length)
    (hne : ∀ r ∈ b.routine, r.headerIndex ≠ j) : (s.close st).output[j]? = s.output[j]? := by
  rw [output_close_of_cons st h, List.getElem?_append_left (by simpa using hj),
    Block.getElem?_settle_of_ne _ _ hne]

theorem getElem?_output_close_self {r : Routine} (hr : b.routine = some r)
    (hj : r.headerIndex < s.output.length) :
    (s.close st).output[r.headerIndex]? =
      s.output[r.headerIndex]?.map (patchHeader (r.settledHeader st s.symbols.notes)) := by
  rw [output_close_of_cons st h, List.getElem?_append_left (by simpa using hj),
    Block.getElem?_settle_self _ _ hr]

end

theorem close_of_nil (st : Style) {s : State} (h : s.blocks = []) :
    s.close st = s.note .nothingToClose := by
  unfold close
  rw [h]

/-! ### Stages of closings -/

/-- States that close their blocks alike: columns and the log do not matter. -/
structure ClosesAlike (s t : State) : Prop where
  blocks : t.blocks = s.blocks
  tryDepth : t.tryDepth = s.tryDepth
  symbols : t.symbols = s.symbols
  output : t.output = s.output

namespace ClosesAlike

variable {s t u : State}

theorem refl (s : State) : s.ClosesAlike s := ⟨rfl, rfl, rfl, rfl⟩

theorem note (s : State) (e : Event) : s.ClosesAlike (s.note e) := ⟨rfl, rfl, rfl, rfl⟩

theorem trans (h : s.ClosesAlike t) (h' : t.ClosesAlike u) : s.ClosesAlike u :=
  ⟨h'.blocks.trans h.blocks, h'.tryDepth.trans h.tryDepth, h'.symbols.trans h.symbols,
    h'.output.trans h.output⟩

theorem close (h : s.ClosesAlike t) (st : Style) : (s.close st).ClosesAlike (t.close st) := by
  cases hs : s.blocks with
  | nil =>
    rw [close_of_nil st hs, close_of_nil st (h.blocks.trans hs)]
    exact ⟨h.blocks, h.tryDepth, h.symbols, h.output⟩
  | cons b outer =>
    have ht : t.blocks = b :: outer := h.blocks.trans hs
    refine ⟨?_, ?_, ?_, ?_⟩
    · rw [blocks_close, blocks_close, h.blocks]
    · rw [close_of_cons st hs, close_of_cons st ht, h.tryDepth]
      rfl
    · rw [symbols_close, symbols_close, h.symbols]
    · rw [output_close_of_cons st hs, output_close_of_cons st ht, h.symbols, h.output,
        closingDepth, closingDepth, closingKind, closingKind, h.tryDepth]
      cases b.routine with
      | none => rfl
      | some r =>
        simp only [settledKind, h.symbols]

end ClosesAlike

theorem closeMany_add (st : Style) (n m : Nat) (s : State) :
    closeMany st (n + m) s = closeMany st m (closeMany st n s) := by
  induction n generalizing s with
  | zero => rw [Nat.zero_add, closeMany]
  | succ n ih => rw [Nat.succ_add, closeMany, ih, closeMany]

theorem closeMany_succ (st : Style) (n : Nat) (s : State) :
    closeMany st (n + 1) s = (closeMany st n s).close st :=
  closeMany_add st n 1 s

@[simp] theorem symbols_closeMany (st : Style) (n : Nat) (s : State) :
    (closeMany st n s).symbols = s.symbols := by
  induction n generalizing s with
  | zero => rfl
  | succ n ih => rw [closeMany, ih, symbols_close]

theorem length_output_closeMany (st : Style) {n : Nat} {s : State} (h : n ≤ s.blocks.length) :
    (closeMany st n s).output.length = s.output.length + n := by
  induction n with
  | zero => rfl
  | succ n ih =>
    obtain ⟨b, outer, hb⟩ : ∃ b outer, (closeMany st n s).blocks = b :: outer := by
      rw [blocks_closeMany]
      exact ⟨_, _, List.drop_eq_getElem_cons h⟩
    rw [closeMany_succ, length_output_close st hb, ih (Nat.le_of_succ_le h), Nat.add_assoc]

/-- From `s` to `t` the `n` innermost blocks were closed. -/
structure ClosedBy (st : Style) (n : Nat) (s t : State) : Prop where
  bound : n ≤ s.blocks.length
  alike : (closeMany st n s).ClosesAlike t

namespace ClosedBy

variable {st : Style} {n : Nat} {s t u : State}

theorem refl (st : Style) (s : State) : ClosedBy st 0 s s := ⟨Nat.zero_le _, .refl s⟩

theorem alike_right (h : ClosedBy st n s t) (h' : t.ClosesAlike u) : ClosedBy st n s u :=
  ⟨h.bound, h.alike.trans h'⟩

theorem blocks (h : ClosedBy st n s t) : t.blocks = s.blocks.drop n := by
  rw [h.alike.blocks, blocks_closeMany]

theorem close (h : ClosedBy st n s t) : ∃ m, ClosedBy st m s (t.close st) := by
  cases ht : t.blocks with
  | nil =>
    rw [close_of_nil st ht]
    exact ⟨n, h.alike_right (.note t _)⟩
  | cons b outer =>
    refine ⟨n + 1, ?_, ?_⟩
    · have hlength := congrArg List.length (h.blocks.symm.trans ht)
      rw [List.length_drop, List.length_cons] at hlength
      omega
    · rw [closeMany_succ]
      exact h.alike.close st

end ClosedBy

/-- From `s` to `t` the `n` innermost blocks were closed, and then a branch may have taken one away. -/
structure Stage (st : Style) (n : Nat) (taken : Option Block) (s t : State) : Prop where
  bound : n ≤ s.blocks.length
  blocks : s.blocks.drop n = taken.toList ++ t.blocks
  accepts : ∀ b ∈ taken, ∃ next, b.kind.accepts next = true
  symbols : t.symbols = s.symbols
  output : t.output = (closeMany st n s).output

theorem Stage.exists_drop {st : Style} {n : Nat} {taken : Option Block} {s t : State}
    (h : Stage st n taken s t) : ∃ m, t.blocks = s.blocks.drop m := by
  have hblocks := h.blocks
  cases taken with
  | none => exact ⟨n, hblocks.symm⟩
  | some b => exact ⟨n + 1, by rw [← List.tail_drop, hblocks]; rfl⟩

theorem ClosedBy.stage {st : Style} {n : Nat} {s t : State} (h : ClosedBy st n s t) :
    Stage st n none s t :=
  ⟨h.bound, h.blocks.symm, by simp, by rw [h.alike.symbols, symbols_closeMany], h.alike.output⟩

theorem stage_closeAll (st : Style) (s : State) : Stage st s.blocks.length none s (s.closeAll st) :=
  ClosedBy.stage ⟨Nat.le_refl _, .refl _⟩

private theorem ClosedBy.take {st : Style} {n : Nat} {s t : State} (h : ClosedBy st n s t) (next : Kind)
    (line : Nat) : Stage st n (t.take next line).1 s (t.take next line).2 := by
  have hstage := h.stage
  rcases t.take_cases next line with ⟨b, outer, hb, haccepts, ht⟩ | ⟨_, above, ht⟩
  · rw [ht]
    refine ⟨h.bound, hstage.blocks.trans hb, ?_, hstage.symbols, hstage.output⟩
    intro c hc
    obtain rfl := Option.some.inj hc
    exact ⟨next, haccepts⟩
  · rw [ht]
    exact ⟨h.bound, hstage.blocks, by simp, hstage.symbols, hstage.output⟩

end State

/-! ### Stages of indented sources -/

namespace Indentation

open State

variable {st : Style} {s t : State} {n : Nat}

private theorem closedBy_settleHeader (st : Style) (line : Line) (s : State) :
    ∃ n, ClosedBy st n s (settleHeader st line s) := by
  have hrefl := ClosedBy.refl st s
  unfold settleHeader
  dsimp only
  split_ifs
  · exact ⟨0, hrefl⟩
  · exact ⟨0, hrefl.alike_right ⟨rfl, rfl, rfl, rfl⟩⟩
  · exact ⟨0, hrefl⟩
  · exact (hrefl.alike_right (.note s _)).close

private theorem closedBy_leaveBodiesUntil (h : ClosedBy st n s t) (stop : List Nat → Bool) (fuel : Nat) :
    ∃ m, ClosedBy st m s (leaveBodiesUntil st stop fuel t) := by
  induction fuel generalizing n t with
  | zero => exact ⟨n, h⟩
  | succ fuel ih =>
    rw [leaveBodiesUntil]
    split
    · exact ⟨n, h⟩
    · obtain ⟨m, hm⟩ :=
        (h.alike_right (u := { t with indents := t.indents.tail }) ⟨rfl, rfl, rfl, rfl⟩).close
      exact ih hm

private theorem stage_enter (st : Style) (line : Line) (s : State) :
    ∃ n, Stage st n (enter st line s).1.taken s (enter st line s).2 := by
  obtain ⟨_, hsettled⟩ := closedBy_settleHeader st line s
  unfold enter
  cases continuation? line.code with
  | some kind =>
    obtain ⟨n, hn⟩ := closedBy_leaveBodiesUntil hsettled (chainReached line.columns)
      (settleHeader st line s).indents.length
    exact ⟨n, hn.take kind line.number⟩
  | none =>
    obtain ⟨n, hn⟩ := closedBy_leaveBodiesUntil hsettled (bodyReached line.columns)
      (settleHeader st line s).indents.length
    refine ⟨n, ?_⟩
    unfold checkAligned
    dsimp only
    split
    · exact (hn.alike_right (.note _ _)).stage
    · exact hn.stage

end Indentation

namespace Run

/-- A line of an indented source begins with a stage of closings. -/
theorem stage_passage (d : Dialect) (line : Line) (following : List Line) (r : Run) :
    ∃ n, State.Stage d.style n (r.passage ⟨.indentation, d⟩ line following).entry.taken
      (r.passage ⟨.indentation, d⟩ line following).met
      (r.passage ⟨.indentation, d⟩ line following).entered := by
  cases hl : line.isCode with
  | true =>
    have hp := Indentation.passes_passage d hl following r
    rw [hp.entry, hp.entered]
    exact Indentation.stage_enter d.style line _
  | false =>
    rw [passage_of_not_code _ hl]
    exact ⟨0, (State.ClosedBy.refl d.style r.state).stage⟩

/-- After its conversion a line of an indented source only opens a block: its own, or else the one that
it had taken away. -/
theorem left_indented (d : Dialect) (line : Line) (following : List Line) (r : Run) :
    let p := r.passage ⟨.indentation, d⟩ line following
    p.left.blocks = (p.opened.or p.entry.taken).toList ++ p.converted.blocks ∧
      p.left.output = p.converted.output ∧ p.left.symbols = p.converted.symbols := by
  intro p
  cases hl : line.isCode with
  | true =>
    have hp : Indentation.Passes d.style line p := Indentation.passes_passage d hl following r
    rw [hp.left]
    unfold Indentation.leave
    cases p.opened with
    | some b => exact ⟨rfl, rfl, rfl⟩
    | none =>
      cases p.entry.taken with
      | some b => exact ⟨rfl, rfl, rfl⟩
      | none => exact ⟨rfl, rfl, rfl⟩
  | false =>
    simp only [p, passage_of_not_code _ hl]
    exact ⟨rfl, trivial, trivial⟩

/-- A line takes some of the innermost blocks away and puts the one that it opens in their place. -/
theorem exists_left_blocks (d : Dialect) (line : Line) (following : List Line) (r : Run) :
    let p := r.passage ⟨.indentation, d⟩ line following
    ∃ m, p.left.blocks = p.opened.toList ++ r.state.blocks.drop m := by
  intro p
  obtain ⟨n, hstage⟩ := r.stage_passage d line following
  have hleft : p.left.blocks = (p.opened.or p.entry.taken).toList ++ p.entered.blocks := by
    rw [(r.left_indented d line following).1, (r.sameNesting_passage _ line following).blocks]
  rw [met_passage] at hstage
  rw [hleft]
  cases p.opened with
  | none => exact ⟨n, hstage.blocks.symm⟩
  | some b =>
    obtain ⟨m, hm⟩ := hstage.exists_drop
    exact ⟨m, congrArg (b :: ·) hm⟩

/-- The stages of closings of a whole source, each with the states before and after it: one for each
line, and one at the end. -/
def stages (o : Options) (lines : List Line) : List (State × State) :=
  (journalOf o lines).map (fun x => (x.2.met, x.2.entered)) ++
    [((steps o lines (start o lines)).state,
      (steps o lines (start o lines)).state.closeAll o.dialect.style)]

theorem getElem?_stages_of_journalOf {o : Options} {lines : List Line} {k : Nat} {x : Line × Passage}
    (h : (journalOf o lines)[k]? = some x) : (stages o lines)[k]? = some (x.2.met, x.2.entered) := by
  have hlt := (List.getElem?_eq_some_iff.mp h).1
  rw [stages, List.getElem?_append_left (by simpa using hlt), List.getElem?_map, h]
  rfl

theorem getElem?_stages_length (o : Options) (lines : List Line) :
    (stages o lines)[(journalOf o lines).length]? =
      some ((steps o lines (start o lines)).state,
        (steps o lines (start o lines)).state.closeAll o.dialect.style) := by
  simp [stages]

private theorem stages_cases {o : Options} {lines : List Line} {k : Nat} {s t : State}
    (h : (stages o lines)[k]? = some (s, t)) :
    (∃ line p, (journalOf o lines)[k]? = some (line, p) ∧ s = p.met ∧ t = p.entered) ∨
      (k = (journalOf o lines).length ∧ s = (steps o lines (start o lines)).state ∧
        t = s.closeAll o.dialect.style) := by
  unfold stages at h
  rw [List.getElem?_append, List.length_map] at h
  split at h
  · rw [List.getElem?_map] at h
    obtain ⟨⟨line, p⟩, hp, heq⟩ := Option.map_eq_some_iff.mp h
    obtain ⟨rfl, rfl⟩ := Prod.mk.inj heq
    exact .inl ⟨line, p, hp, rfl, rfl⟩
  · next hk =>
    obtain ⟨hlt, heq⟩ := List.getElem?_eq_some_iff.mp h
    have hlt : k - (journalOf o lines).length < 1 := hlt
    simp only [List.getElem_singleton, Prod.mk.injEq] at heq
    obtain ⟨rfl, rfl⟩ := heq
    exact .inr ⟨by omega, rfl, rfl⟩

/-- What every line keeps holds before each stage, and each stage only closes and takes away. -/
theorem stages_induction {d : Dialect} {P : List (Line × Passage) → Run → Prop}
    (hstep : ∀ done line following r, P done r →
      P (done ++ [(line, r.passage ⟨.indentation, d⟩ line following)])
        (r.step ⟨.indentation, d⟩ line following))
    {lines : List Line} (hstart : P [] (start ⟨.indentation, d⟩ lines)) {k : Nat} {s t : State}
    (h : (stages ⟨.indentation, d⟩ lines)[k]? = some (s, t)) :
    ∃ r : Run, r.state = s ∧ P ((journalOf ⟨.indentation, d⟩ lines).take k) r ∧
      ∃ n taken, State.Stage d.style n taken s t := by
  obtain ⟨hend, hbefore⟩ := journalOf_induction hstep hstart
  rcases stages_cases h with ⟨line, p, hp, rfl, rfl⟩ | ⟨rfl, rfl, rfl⟩
  · obtain ⟨following, r, rfl, hr⟩ := hbefore k line p hp
    obtain ⟨n, hn⟩ := stage_passage d line following r
    exact ⟨r, (met_passage ..).symm, hr, n, _, hn⟩
  · rw [List.take_length]
    exact ⟨_, rfl, hend, _, _, State.stage_closeAll ..⟩

end Run

end Pseudocode
