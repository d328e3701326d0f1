import Pseudocode.Proofs.ReturnMarks

/-! # Function or procedure

A routine whose block is closed gets its final header and its last line, and no later line changes
either. Both are spelled by what is noted when the block is closed: whether a value was returned from a
routine of this name. -/

namespace Pseudocode

/-! ### Lines that no longer change -/

/-- A line of the output that is the header of no open routine. -/
structure Final (blocks : List Block) (output : List Text) (j : Nat) (text : Text) : Prop where
  line : output[j]? = some text
  settled : ∀ r ∈ routinesOf blocks, r.headerIndex ≠ j

theorem State.getElem?_output_closeMany (st : Style) {n j : Nat} {s : State}
    (hj : j < s.output.length) (h : ∀ r ∈ routinesOf (s.blocks.take n), r.headerIndex ≠ j) :
    (closeMany st n s).output[j]? = s.output[j]? := by
  induction n generalizing s with
  | zero => rfl
  | succ n ih =>
    cases hs : s.blocks with
    | nil =>
      have hclose := close_of_nil st hs
      rw [closeMany, ih (by rwa [hclose]) (by simp [hs, routinesOf]), hclose]
      rfl
    | cons b outer =>
      rw [hs, List.take_succ_cons] at h
      have hhead : ∀ r ∈ b.routine, r.headerIndex ≠ j := by
        intro r hr
        apply h r
        rw [routinesOf_cons_of_some hr]
        exact List.mem_cons_self ..
      have htail : ∀ r ∈ routinesOf ((s.close st).blocks.take n), r.headerIndex ≠ j := by
        intro r hr
        rw [blocks_close, hs, List.tail_cons] at hr
        obtain ⟨c, hc, hcr⟩ := mem_routinesOf.mp hr
        exact h r (mem_routinesOf.mpr ⟨c, List.mem_cons_of_mem b hc, hcr⟩)
      rw [closeMany, ih (by rw [length_output_close st hs]; omega) htail,
        getElem?_output_close_of_ne st hs hj hhead]

namespace Final

variable {st : Style} {blocks : List Block} {output output' : List Text} {j : Nat} {text : Text}

theorem lt_length (h : Final blocks output j text) : j < output.length :=
  (List.getElem?_eq_some_iff.mp h.line).1

theorem extend (h : Final blocks output j text) (hp : output <+: output') :
    Final blocks output' j text := by
  obtain ⟨rest, rfl⟩ := hp
  exact ⟨(List.getElem?_append_left h.lt_length).trans h.line, h.settled⟩

private theorem subset (h : Final blocks output j text) {blocks' : List Block}
    (hb : ∀ b ∈ blocks', b ∈ blocks) : Final blocks' output j text := by
  refine ⟨h.line, fun r hr => ?_⟩
  obtain ⟨b, hmem, hbr⟩ := mem_routinesOf.mp hr
  exact h.settled r (mem_routinesOf.mpr ⟨b, hb b hmem, hbr⟩)

theorem closeMany (st : Style) {s : State} (h : Final s.blocks s.output j text) (n : Nat) :
    Final (State.closeMany st n s).blocks (State.closeMany st n s).output j text := by
  rw [State.blocks_closeMany]
  refine .subset ⟨?_, h.settled⟩ fun b hb => List.mem_of_mem_drop hb
  rw [State.getElem?_output_closeMany st h.lt_length, h.line]
  exact (h.subset fun b hb => List.mem_of_mem_take hb).settled

theorem stage {s t : State} (h : Final s.blocks s.output j text) {n : Nat} {taken : Option Block}
    (hs : State.Stage st n taken s t) : Final (taken.toList ++ t.blocks) t.output j text := by
  have hclosed := h.closeMany st n
  rwa [State.blocks_closeMany, hs.blocks, ← hs.output] at hclosed

/-- The conversion of a line leaves what is final as it is: a new header comes after all that was
written. -/
theorem leave (d : Dialect) (line : Line) (following : List Line) (r : Run)
    (h : Final ((r.passage ⟨.indentation, d⟩ line following).entry.taken.toList ++
        (r.passage ⟨.indentation, d⟩ line following).entered.blocks)
      (r.passage ⟨.indentation, d⟩ line following).entered.output j text) :
    Final (r.passage ⟨.indentation, d⟩ line following).left.blocks
      (r.passage ⟨.indentation, d⟩ line following).left.output j text := by
  obtain ⟨hblocks, houtput, _⟩ := r.left_indented d line following
  have hnesting := r.sameNesting_passage ⟨.indentation, d⟩ line following
  have hhandled := r.handled_passage ⟨.indentation, d⟩ line following
  have hopened := r.defines_of_opened d line following
  generalize r.passage ⟨.indentation, d⟩ line following = p at *
  have hlt := h.lt_length
  have hconverted := h.extend hhandled.output
  rw [hblocks, houtput, hnesting.blocks]
  refine ⟨hconverted.line, fun routine hr => ?_⟩
  obtain ⟨b, hb, hbr⟩ := mem_routinesOf.mp hr
  cases ho : p.opened with
  | none =>
    rw [ho, Option.none_or] at hb
    exact h.settled routine (mem_routinesOf.mpr ⟨b, hb, hbr⟩)
  | some c =>
    rw [ho, Option.some_or] at hb
    rcases List.mem_cons.mp hb with rfl | hb
    · have hfresh : p.entered.output.length ≤ routine.headerIndex :=
        (hopened b ho routine hbr).2.fresh
      omega
    · exact h.settled routine (mem_routinesOf.mpr ⟨b, List.mem_append_right _ hb, hbr⟩)

end Final

/-! ### Closed routines -/

/-- The last line of a routine, given what is noted. -/
def Routine.lastLine (st : Style) (notes : Notes) (r : Routine) (depth : Nat) : Text :=
  st.indent depth ++ st.terminator (r.kind st (notes.returnsValue r.key)) none none

/-- From `s` to `t` the block of a routine is closed, after the ones inside it. -/
structure Closing (st : Style) (r : Routine) (x : Line × Passage) (s t : State)
    (inner : List Block) : Prop where
  blocks : s.blocks = inner ++ .ofRoutine r :: x.2.converted.blocks
  closed : ∃ n taken, State.Stage st n taken s t ∧ inner.length < n

/-- The header and the last line of a routine are final, as they are spelled when `s` is closed. -/
structure Spelled (st : Style) (r : Routine) (x : Line × Passage) (s : State) (inner : List Block)
    (blocks : List Block) (output : List Text) : Prop where
  header : Final blocks output r.headerIndex
    (patchHeader (r.settledHeader st s.symbols.notes) (placeholder st r x))
  last : Final blocks output (s.output.length + inner.length)
    (r.lastLine st s.symbols.notes x.2.converted.depth)

theorem Spelled.map {st : Style} {r : Routine} {x : Line × Passage} {s : State}
    {inner blocks blocks' : List Block} {output output' : List Text}
    (h : Spelled st r x s inner blocks output)
    (hf : ∀ j text, Final blocks output j text → Final blocks' output' j text) :
    Spelled st r x s inner blocks' output' :=
  ⟨hf _ _ h.header, hf _ _ h.last⟩

namespace HeadersKept

variable {st : Style} {done : List (Line × Passage)} {r : Routine} {x : Line × Passage}
  {inner outer : List Block} {output : List Text}

private theorem lt_of_mem_inner (h : HeadersKept st done (inner ++ .ofRoutine r :: outer) output)
    {r' : Routine} (hr' : r' ∈ routinesOf inner) : r.headerIndex < r'.headerIndex := by
  have hdescending := h.descending
  rw [routinesOf_append, List.map_append, List.pairwise_append] at hdescending
  refine hdescending.2.2 _ (List.mem_map_of_mem hr') _ (List.mem_map_of_mem ?_)
  rw [routinesOf_cons_of_some rfl]
  exact List.mem_cons_self ..

theorem getElem?_closeMany {s : State} (h : HeadersKept st done s.blocks s.output)
    (hs : s.blocks = inner ++ .ofRoutine r :: outer) {n : Nat} (hn : n ≤ inner.length) :
    (State.closeMany st n s).output[r.headerIndex]? = s.output[r.headerIndex]? := by
  have hlt := h.lt_length (b := .ofRoutine r) (by simp [hs]) rfl
  apply State.getElem?_output_closeMany st hlt
  intro r' hr'
  rw [hs] at h hr'
  rw [List.take_append_of_le_length hn] at hr'
  obtain ⟨b, hb, hbr⟩ := mem_routinesOf.mp hr'
  have hafter := h.lt_of_mem_inner (mem_routinesOf.mpr ⟨b, List.mem_of_mem_take hb, hbr⟩)
  omega

theorem spelled {s : State} (h : HeadersKept st done s.blocks s.output)
    (hs : s.blocks = inner ++ .ofRoutine r :: x.2.converted.blocks)
    (hline : s.output[r.headerIndex]? = some (placeholder st r x)) {n : Nat}
    (hn : inner.length < n) :
    Spelled st r x s inner (State.closeMany st n s).blocks (State.closeMany st n s).output := by
  have hu : (State.closeMany st inner.length s).blocks = .ofRoutine r :: x.2.converted.blocks := by
    rw [State.blocks_closeMany, hs, List.drop_left]
  have hheader : (State.closeMany st inner.length s).output[r.headerIndex]? =
      some (placeholder st r x) :=
    (h.getElem?_closeMany hs (Nat.le_refl _)).trans hline
  have hlength : (State.closeMany st inner.length s).output.length = s.output.length + inner.length :=
    State.length_output_closeMany st (by simp [hs])
  have hsymbols := State.symbols_closeMany st inner.length s
  have hkept := h.closeMany inner.length
  -- first the inner blocks are closed, then the routine, then `m` blocks around it
  obtain ⟨m, rfl⟩ : ∃ m, n = inner.length + 1 + m := ⟨n - (inner.length + 1), by omega⟩
  rw [State.closeMany_add, State.closeMany_succ]
  generalize State.closeMany st inner.length s = u at *
  refine Spelled.map ?_ fun j text hfinal => hfinal.closeMany st m
  rw [hu] at hkept
  rw [State.blocks_close, hu, List.tail_cons]
  refine ⟨⟨?_, ?_⟩, ?_, ?_⟩
  · have hlt := (List.getElem?_eq_some_iff.mp hheader).1
    rw [State.getElem?_output_close_self st hu rfl hlt, hheader, hsymbols]
    rfl
  · intro r' hr'
    have hbefore := hkept.lt_of_mem rfl hr'
    omega
  · rw [State.output_close_of_cons st hu, List.getElem?_append_right (by simp [hlength]),
      Block.length_settle, hlength, Nat.sub_self, Routine.lastLine, ← hsymbols]
    rfl
  · intro r' hr'
    obtain ⟨b, hb, hbr⟩ := mem_routinesOf.mp hr'
    have hbefore := hkept.lt_length (List.mem_cons_of_mem _ hb) hbr
    omega

end HeadersKept

/-! ### What becomes of a definition -/

/-- The block of a routine that line `i` defined is open with its provisional header, or a later line
has closed it. -/
inductive Fate (st : Style) (done : List (Line × Passage)) (i : Nat) (r : Routine)
    (x : Line × Passage) (s : State) : Prop
  | standing {inner : List Block} (blocks : s.blocks = inner ++ .ofRoutine r :: x.2.converted.blocks)
      (line : s.output[r.headerIndex]? = some (placeholder st r x))
  | closed {k : Nat} {y : Line × Passage} {inner : List Block} (after : i < k)
      (line : done[k]? = some y) (closing : Closing st r x y.2.met y.2.entered inner)
      (spelled : Spelled st r x y.2.met inner s.blocks s.output)

private theorem State.Stage.standing {st : Style} {n : Nat} {taken : Option Block} {s t : State}
    (h : Stage st n taken s t) {r : Routine} {inner outer : List Block}
    (hs : s.blocks = inner ++ .ofRoutine r :: outer) (hn : n ≤ inner.length) :
    ∃ inner', t.blocks = inner' ++ .ofRoutine r :: outer := by
  have hblocks := h.blocks
  rw [hs, List.drop_append_of_le_length hn] at hblocks
  cases taken with
  | none => exact ⟨_, hblocks.symm⟩
  | some b =>
    cases hinner : inner.drop n with
    | nil =>
      rw [hinner] at hblocks
      obtain ⟨rfl, _⟩ := List.cons.inj hblocks
      obtain ⟨next, haccepts⟩ := h.accepts _ rfl
      cases next <;> cases haccepts
    | cons c rest =>
      rw [hinner] at hblocks
      exact ⟨rest, (List.cons.inj hblocks).2.symm⟩

/-- What holds of a run after some lines: every routine that was defined is open or closed for good. -/
structure Settled (d : Dialect) (done : List (Line × Passage)) (r : Run) : Prop where
  kept : Kept d done r
  fate : ∀ i x routine, done[i]? = some x → x.2.routine? = some routine →
    Fate d.style done i routine x r.state

private theorem Fate.step {d : Dialect} {done : List (Line × Passage)} {i : Nat} {routine : Routine}
    {x : Line × Passage} {r : Run} (hi : done[i]? = some x) (h : Fate d.style done i routine x r.state)
    (hkept : Kept d done r) (line : Line) (following : List Line) :
    Fate d.style (done ++ [(line, r.passage ⟨.indentation, d⟩ line following)]) i routine x
      (r.passage ⟨.indentation, d⟩ line following).left := by
  obtain ⟨n, hstage⟩ := r.stage_passage d line following
  have hheaders := hkept.headers
  have hlast : (done ++ [(line, r.passage ⟨.indentation, d⟩ line following)])[done.length]? =
      some (line, r.passage ⟨.indentation, d⟩ line following) := by simp
  rw [← r.met_passage ⟨.indentation, d⟩ line following] at h hheaders
  cases h with
  | @closed k y inner after hk closing spelled =>
    have hlt := (List.getElem?_eq_some_iff.mp hk).1
    refine .closed after ((List.getElem?_append_left hlt).trans hk) closing (spelled.map ?_)
    exact fun j text hfinal => .leave d line following r (hfinal.stage hstage)
  | @standing inner hblocks hline =>
    -- the stage reaches the block of the routine, or ends inside it
    by_cases hn : inner.length < n
    · have hlt := (List.getElem?_eq_some_iff.mp hi).1
      have hspelled := hheaders.spelled hblocks hline hn
      rw [State.blocks_closeMany, hstage.blocks, ← hstage.output] at hspelled
      refine .closed hlt hlast ⟨hblocks, n, _, hstage, hn⟩ (hspelled.map ?_)
      exact fun j text hfinal => .leave d line following r hfinal
    · have hn : n ≤ inner.length := Nat.le_of_not_lt hn
      obtain ⟨inner', hentered⟩ := hstage.standing hblocks hn
      have hline' := (hheaders.getElem?_closeMany hblocks hn).trans hline
      rw [← hstage.output] at hline'
      obtain ⟨hleft, houtput, _⟩ := r.left_indented d line following
      have hnesting := r.sameNesting_passage ⟨.indentation, d⟩ line following
      obtain ⟨rest, hrest⟩ := (r.handled_passage ⟨.indentation, d⟩ line following).output
      rw [hnesting.blocks, hentered, ← List.append_assoc] at hleft
      refine .standing hleft ?_
      have hlt := (List.getElem?_eq_some_iff.mp hline').1
      rw [houtput, ← hrest, List.getElem?_append_left hlt, hline']

private theorem Run.fate_of_defined (d : Dialect) (line : Line) (following : List Line) (r : Run)
    {routine : Routine}
    (h : (r.passage ⟨.indentation, d⟩ line following).routine? = some routine)
    (done : List (Line × Passage)) (i : Nat) :
    Fate d.style done i routine (line, r.passage ⟨.indentation, d⟩ line following)
      (r.passage ⟨.indentation, d⟩ line following).left := by
  obtain ⟨hblocks, houtput, _⟩ := r.left_indented d line following
  have hdefines := r.defines_of_routine? d line following h
  rw [hdefines.opened] at hblocks
  have hnone : (r.passage ⟨.indentation, d⟩ line following).left.blocks =
      [] ++ .ofRoutine routine :: (r.passage ⟨.indentation, d⟩ line following).converted.blocks :=
    hblocks
  exact .standing hnone (houtput ▸ hdefines.written)

private theorem Settled.step {d : Dialect} {done : List (Line × Passage)} {r : Run} (h : Settled d done r)
    (line : Line) (following : List Line) :
    Settled d (done ++ [(line, r.passage ⟨.indentation, d⟩ line following)])
      (r.step ⟨.indentation, d⟩ line following) := by
  refine ⟨h.kept.step line following, ?_⟩
  intro i x routine hi hx
  rw [← r.left_passage]
  by_cases hlt : i < done.length
  · rw [List.getElem?_append_left hlt] at hi
    exact (h.fate i x routine hi hx).step hi h.kept line following
  · rw [List.getElem?_append_right (Nat.le_of_not_lt hlt)] at hi
    obtain rfl := List.mem_singleton.mp (List.mem_of_getElem? hi)
    exact r.fate_of_defined d line following hx _ i

private theorem settled_start (d : Dialect) (lines : List Line) :
    Settled d [] (Run.start ⟨.indentation, d⟩ lines) :=
  ⟨kept_start d lines, by simp⟩

namespace Run

theorem final_ofLines (d : Dialect) (lines : List Line) {j : Nat} {text : Text}
    (h : let s := (steps ⟨.indentation, d⟩ lines (start ⟨.indentation, d⟩ lines)).state
      Final (s.closeAll d.style).blocks (s.closeAll d.style).output j text) :
    Final [] (ofLines ⟨.indentation, d⟩ lines).state.output j text := by
  dsimp only at h
  rw [State.blocks_closeAll] at h
  exact h.extend (List.prefix_append _ _)

theorem exists_closing (d : Dialect) (lines : List Line) {i : Nat} {x : Line × Passage} {r : Routine}
    (hi : (journalOf ⟨.indentation, d⟩ lines)[i]? = some x) (hr : x.2.routine? = some r) :
    ∃ k s t inner, i < k ∧ (stages ⟨.indentation, d⟩ lines)[k]? = some (s, t) ∧
      Closing d.style r x s t inner ∧
      Spelled d.style r x s inner [] (ofLines ⟨.indentation, d⟩ lines).state.output := by
  obtain ⟨⟨hkept, hfate⟩, _⟩ := journalOf_induction
    (fun done line following r (h : Settled d done r) => h.step line following) (settled_start d lines)
  let s := (steps ⟨.indentation, d⟩ lines (start ⟨.indentation, d⟩ lines)).state
  cases hfate i x r hi hr with
  | @closed k y inner after hk closing spelled =>
    exact ⟨k, _, _, inner, after, getElem?_stages_of_journalOf hk, closing,
      spelled.map fun j text hfinal => final_ofLines d lines (hfinal.closeMany _ _)⟩
  | @standing inner hblocks hline =>
    have hlt := (List.getElem?_eq_some_iff.mp hi).1
    have hall : inner.length < s.blocks.length := by
      rw [hblocks, List.length_append, List.length_cons]
      omega
    have hclosing : Closing d.style r x s (s.closeAll d.style) inner :=
      ⟨hblocks, _, _, State.stage_closeAll .., hall⟩
    exact ⟨_, _, _, inner, hlt, getElem?_stages_length .., hclosing,
      (hkept.headers.spelled hblocks hline hall).map fun j text hfinal => final_ofLines d lines hfinal⟩

end Run

/-! ### Spellings -/

/-- In some output a routine has a word before its name, and a line that ends it. -/
structure SpelledAs (st : Style) (r : Routine) (depth last : Nat) (output : List Text)
    (word terminator : Text) : Prop where
  header : ∃ rest, output[r.headerIndex]? = some (st.indent depth ++ r.visibility st ++ word ++ " " ++
    r.spelledName st ++ "(" ++ rest)
  last : output[last]? = some (st.indent depth ++ terminator)

private theorem SpelledAs.terminator_eq {st : Style} {r : Routine} {depth last : Nat} {output : List Text}
    {word word' terminator terminator' : Text} (h : SpelledAs st r depth last output word terminator)
    (h' : SpelledAs st r depth last output word' terminator') : terminator = terminator' :=
  List.append_cancel_left (Option.some.inj (h.last.symm.trans h'.last))

theorem Spelled.spelledAs {d : Dialect} {r : Routine} {x : Line × Passage} {s : State}
    {inner : List Block} {output : List Text} (h : Spelled d.style r x s inner [] output) :
    SpelledAs d.style r x.2.converted.depth (s.output.length + inner.length) output
      (Routine.keyword d.style (r.kind d.style (s.symbols.notes.returnsValue r.key)))
      (d.style.terminator (r.kind d.style (s.symbols.notes.returnsValue r.key)) none none) := by
  obtain ⟨c, hc, hspace⟩ := r.head?_header d false none
  have hpatch : patchHeader (r.settledHeader d.style s.symbols.notes) (placeholder d.style r x) =
      d.style.indent x.2.converted.depth ++ r.settledHeader d.style s.symbols.notes ++
        commentOf (placeholder d.style r x) :=
    patchHeader_spaces_append hc hspace _ _
  obtain ⟨rest, hrest⟩ : ∃ rest, r.settledHeader d.style s.symbols.notes =
      r.lead d.style (s.symbols.notes.returnsValue r.key) ++ "(" ++ rest :=
    ⟨_, (Routine.header_eq ..).trans (List.append_cons ..)⟩
  refine ⟨⟨rest ++ commentOf (placeholder d.style r x), ?_⟩, h.last.line⟩
  rw [h.header.line, hpatch, hrest, Routine.lead]
  simp only [List.append_assoc]

/-- Every definition that is no constructor is closed, and the output spells it as a function exactly if
before its closing a value was returned from a routine of this name; otherwise as a procedure. If no
value was returned from another routine of this name, the returns of its own body decide. -/
theorem spelled_by_returns (lines : List Line) {i : Nat} {x : Line × Passage} {r : Routine}
    (hi : (Run.journalOf ⟨.indentation, .cambridge⟩ lines)[i]? = some x)
    (hr : x.2.routine? = some r) (hc : r.isConstructor = false) :
    ∃ k s t inner, i < k ∧ (Run.stages ⟨.indentation, .cambridge⟩ lines)[k]? = some (s, t) ∧
      Closing .cambridge r x s t inner ∧
      let done := (Run.journalOf ⟨.indentation, .cambridge⟩ lines).take k
      let spelled := SpelledAs .cambridge r x.2.converted.depth (s.output.length + inner.length)
        (Run.ofLines ⟨.indentation, .cambridge⟩ lines).state.output
      (spelled "FUNCTION" "ENDFUNCTION" ↔
        ∃ i' r' j, r'.key = r.key ∧ ReturnsFrom done i' r' j) ∧
      (spelled "PROCEDURE" "ENDPROCEDURE" ↔ ¬ spelled "FUNCTION" "ENDFUNCTION") ∧
      ((∃ j, ReturnsFrom done i r j) → spelled "FUNCTION" "ENDFUNCTION") ∧
      ((∀ i' r' j, r'.key = r.key → ReturnsFrom done i' r' j → i' = i) →
        (spelled "FUNCTION" "ENDFUNCTION" ↔ ∃ j, ReturnsFrom done i r j)) := by
  obtain ⟨k, s, t, inner, hik, hk, hclosing, hspelled⟩ := Run.exists_closing .cambridge lines hi hr
  obtain ⟨run, rfl, hmarked, _⟩ := Run.stages_induction
    (fun done line following r (h : Marked done r) => h.step line following) (marked_start _ lines) hk
  refine ⟨k, run.state, t, inner, hik, hk, hclosing, ?_⟩
  intro done spelled
  have hcases :
      run.state.symbols.notes.returnsValue r.key = true ∧ spelled "FUNCTION" "ENDFUNCTION" ∨
      run.state.symbols.notes.returnsValue r.key = false ∧ spelled "PROCEDURE" "ENDPROCEDURE" := by
    have hspelled := Spelled.spelledAs (d := .cambridge) hspelled
    have hkind (returns : Bool) :
        r.kind .cambridge returns = if returns then .function else .procedure := by
      cases returns <;> simp [Routine.kind, hc, Style.cambridge]
    change spelled (Routine.keyword .cambridge (r.kind .cambridge _))
      (Style.cambridge.terminator (r.kind .cambridge _) none none) at hspelled
    rw [hkind] at hspelled
    cases hv : run.state.symbols.notes.returnsValue r.key with
    | true => exact .inl ⟨rfl, by rwa [hv] at hspelled⟩
    | false => exact .inr ⟨rfl, by rwa [hv] at hspelled⟩
  have hexclusive (h : spelled "FUNCTION" "ENDFUNCTION") : ¬ spelled "PROCEDURE" "ENDPROCEDURE" :=
    fun h' => absurd (h.terminator_eq h') (by decide)
  have hfunction : spelled "FUNCTION" "ENDFUNCTION" ↔
      ∃ i' r' j, r'.key = r.key ∧ ReturnsFrom done i' r' j := by
    rw [← hmarked.returns r.key]
    rcases hcases with ⟨hv, hs⟩ | ⟨hv, hs⟩
    · exact iff_of_true hs hv
    · exact iff_of_false (fun h => hexclusive h hs) (by simp [hv])
  refine ⟨hfunction, ?_, ?_, ?_⟩
  · rcases hcases with ⟨_, hs⟩ | ⟨_, hs⟩
    · exact ⟨fun h => absurd h (hexclusive hs), fun h => absurd hs h⟩
    · exact ⟨fun _ h => hexclusive h hs, fun _ => hs⟩
  · rintro ⟨j, hfrom⟩
    exact hfunction.mpr ⟨i, r, j, rfl, hfrom⟩
  · intro hothers
    rw [hfunction]
    constructor
    · rintro ⟨i', r', j, hkey, hfrom⟩
      obtain rfl := hothers i' r' j hkey hfrom
      obtain ⟨x', _, _, hi', hr', _⟩ := hfrom.returned
      rw [List.getElem?_take_of_lt hik, hi] at hi'
      obtain rfl := Option.some.inj hi'
      obtain rfl : r' = r := Option.some.inj (hr'.symm.trans hr)
      exact ⟨j, hfrom⟩
    · rintro ⟨j, hfrom⟩
      exact ⟨i, r, j, rfl, hfrom⟩

/-- A function inside a procedure: the value is returned from the inner one alone. -/
theorem spelled_by_returns_inner :
    let o : Options := ⟨.indentation, .cambridge⟩
    let lines : List Line :=
      [⟨1, .code, [], 0, "def f(a):", none⟩, ⟨2, .code, [], 4, "def g(b):", none⟩,
       ⟨3, .code, [], 8, "return b", none⟩, ⟨4, .code, [], 4, "print(a)", none⟩]
    let r : Routine := { headerIndex := 1, name := "g", params := ["b"] }
    ∃ x k last, (Run.journalOf o lines)[1]? = some x ∧ x.2.routine? = some r ∧
      ReturnsFrom ((Run.journalOf o lines).take k) 1 r 2 ∧
      SpelledAs .cambridge r x.2.converted.depth last (Run.ofLines o lines).state.output "FUNCTION"
        "ENDFUNCTION" := by
  intro o lines r
  have hdefined : (Run.journalOf o lines)[1]?.map (·.2.routine?) = some (some r) := by decide +kernel
  obtain ⟨x, hi, hr⟩ := Option.map_eq_some_iff.mp hdefined
  obtain ⟨k, s, t, inner, hik, hk, hclosing, _, _, hown, _⟩ := spelled_by_returns lines hi hr rfl
  have hopen : k ≠ 2 := by
    rintro rfl
    have hdepths : (Run.stages o lines)[2]?.map (fun x => (x.1.blocks.length, x.2.blocks.length)) =
        some (2, 2) := by
      decide +kernel
    rw [hk] at hdepths
    obtain ⟨hs, ht⟩ : s.blocks.length = 2 ∧ t.blocks.length = 2 :=
      Prod.mk.inj (Option.some.inj hdepths)
    obtain ⟨n, taken, hstage, hn⟩ := hclosing.closed
    have hlength := congrArg List.length hstage.blocks
    rw [List.length_drop, List.length_append] at hlength
    omega
  have hfrom : ReturnsFrom ((Run.journalOf o lines).take k) 1 r 2 := by
    have hline : (Run.journalOf o lines)[2]?.map (fun y => (y.1.returnsValue, y.2.entered.blocks)) =
        (Run.journalOf o lines)[1]?.map fun x => (true, .ofRoutine r :: x.2.converted.blocks) := by
      decide +kernel
    rw [hi] at hline
    obtain ⟨y, hy, heq⟩ := Option.map_eq_some_iff.mp hline
    obtain ⟨hreturns, hblocks⟩ := Prod.mk.inj heq
    refine ⟨by decide, x, y, [], ?_, hr, ?_, hreturns, hblocks, rfl⟩
    · rw [List.getElem?_take_of_lt hik, hi]
    · rw [List.getElem?_take_of_lt (by omega), hy]
  exact ⟨x, k, _, hi, hr, hfrom, hown ⟨2, hfrom⟩⟩

/-- Two routines of one name: the value that the first returns makes a function of the second as
well. -/
theorem spelled_by_earlier_return :
    let o : Options := ⟨.indentation, .cambridge⟩
    let lines : List Line :=
      [⟨1, .code, [], 0, "def f(x):", none⟩, ⟨2, .code, [], 4, "return 1", none⟩,
       ⟨3, .code, [], 0, "def f(y):", none⟩, ⟨4, .code, [], 4, "print(y)", none⟩]
    let r : Routine := { headerIndex := 3, name := "f", params := ["y"] }
    (Run.journalOf o lines)[2]?.bind (·.2.routine?) = some r ∧
      (∀ j, ¬ ReturnsFrom (Run.journalOf o lines) 2 r j) ∧
      (Run.ofLines o lines).state.output =
        ["FUNCTION F(x : INTEGER) RETURNS INTEGER".toList, "   RETURN 1".toList, "ENDFUNCTION".toList,
         "FUNCTION F(y : INTEGER) RETURNS INTEGER".toList, "   OUTPUT y".toList,
         "ENDFUNCTION".toList] := by
  intro o lines r
  refine ⟨by decide +kernel, ?_, by decide +kernel⟩
  rintro j ⟨hj, _, y, _, _, _, hy, hreturns, _⟩
  have hnone : ∀ y ∈ (Run.journalOf o lines).drop 3, y.1.returnsValue = false := by decide +kernel
  have hmem : y ∈ (Run.journalOf o lines).drop 3 := by
    apply List.mem_of_getElem? (i := j - 3)
    rw [List.getElem?_drop, Nat.add_sub_cancel' hj, hy]
  rw [hnone y hmem] at hreturns
  cases hreturns

end Pseudocode
