import Pseudocode.Proofs.HeaderPatching

/-! # Which returns are noted

Each open routine stands on the blocks that were open when it was defined. A line that returns a value
marks the name of the innermost one; so a name is marked exactly if a value has been returned from some
routine that was defined with this name. -/

namespace Pseudocode

/-! ### The innermost routine -/

namespace Notes

private theorem returnsValue_markReturn (n : Notes) (blocks : List Block) (type : Option Text) (key : Text) :
    (n.markReturn blocks type).returnsValue key = true ↔
      n.returnsValue key = true ∨ ∃ r, (routinesOf blocks).head? = some r ∧ r.key = key := by
  have hkey : (blocks.findSome? fun b => b.routine.map Routine.key) =
      (routinesOf blocks).head?.map Routine.key := by
    rw [routinesOf, List.head?_filterMap, List.map_findSome?]
    rfl
  unfold markReturn
  rw [hkey]
  cases (routinesOf blocks).head? with
  | none => simp
  | some r =>
    by_cases hr : r.key = key
    · subst hr
      simp [returnsValue, Table.get?_set]
    · simp [returnsValue, Table.get?_set, hr, Ne.symm hr]

theorem returnsValue_of_returns {n n' : Notes} (h : n'.returns = n.returns) (key : Text) :
    n'.returnsValue key = n.returnsValue key := by
  unfold returnsValue
  rw [h]

end Notes

/-- A line of code that returns a value. -/
def Line.returnsValue (line : Line) : Bool :=
  line.isCode && (Indented.returned? line.code).isSome

theorem Indentation.code_enter (st : Style) (line : Line) (s : State) :
    (enter st line s).1.code = line.code := by
  unfold enter
  cases continuation? line.code with
  | none => rfl
  | some kind => rfl

theorem Run.returnsValue_passage (d : Dialect) (line : Line) (following : List Line) (r : Run)
    (key : Text) :
    let p := r.passage ⟨.indentation, d⟩ line following
    p.converted.symbols.notes.returnsValue key = true ↔
      p.entered.symbols.notes.returnsValue key = true ∨
        line.returnsValue = true ∧
          ∃ routine, (routinesOf p.entered.blocks).head? = some routine ∧ routine.key = key := by
  intro p
  cases hl : line.isCode with
  | false =>
    obtain ⟨lines, hlines⟩ := exists_step_eq_of_not_code ⟨.indentation, d⟩ hl following r
    simp only [p, passage_of_not_code _ hl, hlines, Line.returnsValue, hl]
    simp [State.emitAll]
  | true =>
    have hcode : p.entry.code = line.code := by
      rw [(Indentation.passes_passage d hl following r).entry, Indentation.code_enter]
    have hhandled : p.Handled ⟨.indentation, d⟩ line := r.handled_passage _ line following
    simp only [Line.returnsValue, hl, Bool.true_and, ← hcode]
    cases hhandled with
    | passed held declined _ symbols =>
      -- no line that returns a value is declined
      have hnone : Indented.returned? p.entry.code = none := by
        rcases declined hl with hempty | hdeclined
        · rw [hempty]
          decide +kernel
        · cases hreturned : Indented.returned? p.entry.code with
          | none => rfl
          | some value =>
            have hcx : (p.context ⟨.indentation, d⟩ held).convention = .indentation := rfl
            obtain ⟨_, _, hconvert, _⟩ := Indented.exists_convert?_of_returned hcx hreturned
            cases hdeclined.symm.trans hconvert
      simp [hnone, symbols]
    | @taken held rule outcome hconvert _ symbols =>
      have hnotes : p.converted.symbols.notes = outcome.notes := congrArg Symbols.notes symbols
      rw [hnotes]
      have hmarks := Indented.marks_of_convert? rfl hconvert
      cases hvalue : Indented.returned? p.entry.code with
      | none =>
        simp only [hvalue] at hmarks
        have hreturns : outcome.notes.returns = p.entered.symbols.notes.returns := hmarks
        simp [Notes.returnsValue_of_returns hreturns]
      | some value =>
        simp only [hvalue] at hmarks
        rw [hmarks, Notes.returnsValue_markReturn]
        simp only [Option.isSome_some, true_and]
        rfl

/-! ### Definitions of open routines -/

/-- The routine that a line defines. -/
def Passage.routine? (p : Passage) : Option Routine := p.opened.bind Block.routine

theorem Run.defines_of_routine? (d : Dialect) (line : Line) (following : List Line) (r : Run)
    {routine : Routine}
    (h : (r.passage ⟨.indentation, d⟩ line following).routine? = some routine) :
    Defines d.style routine (line, r.passage ⟨.indentation, d⟩ line following) := by
  obtain ⟨b, hb, hr⟩ := Option.bind_eq_some_iff.mp h
  exact (r.defines_of_opened d line following b hb routine hr).2

/-- Every routine among some open blocks was defined by a line, and stands on the blocks that were open
then. -/
inductive Stacked (done : List (Line × Passage)) : List Block → Prop
  | nil : Stacked done []
  | plain {b : Block} {blocks : List Block} (plain : b.routine = none)
      (outer : Stacked done blocks) : Stacked done (b :: blocks)
  | routine {i : Nat} {x : Line × Passage} {r : Routine} (line : done[i]? = some x)
      (defined : x.2.routine? = some r) (outer : Stacked done x.2.converted.blocks) :
      Stacked done (.ofRoutine r :: x.2.converted.blocks)

namespace Stacked

variable {done : List (Line × Passage)} {blocks : List Block}

private theorem tail (h : Stacked done blocks) : Stacked done blocks.tail := by
  cases h with
  | nil => exact .nil
  | plain _ outer => exact outer
  | routine _ _ outer => exact outer

theorem drop (h : Stacked done blocks) (n : Nat) : Stacked done (blocks.drop n) := by
  induction n with
  | zero => exact h
  | succ n ih =>
    rw [← List.tail_drop]
    exact ih.tail

theorem extend (h : Stacked done blocks) (more : List (Line × Passage)) :
    Stacked (done ++ more) blocks := by
  induction h with
  | nil => exact .nil
  | plain hplain _ ih => exact .plain hplain ih
  | @routine i x r line defined _ ih =>
    have hlt := (List.getElem?_eq_some_iff.mp line).1
    exact .routine ((List.getElem?_append_left hlt).trans line) defined ih

theorem innermost (h : Stacked done blocks) {r : Routine} (hr : (routinesOf blocks).head? = some r) :
    ∃ (i : Nat) (x : Line × Passage) (inner : List Block), done[i]? = some x ∧
      x.2.routine? = some r ∧ blocks = inner ++ .ofRoutine r :: x.2.converted.blocks ∧
      routinesOf inner = [] := by
  induction h with
  | nil => cases hr
  | @plain b blocks hplain _ ih =>
    rw [routinesOf_cons_of_none hplain] at hr
    obtain ⟨i, x, inner, hi, hx, hblocks, hinner⟩ := ih hr
    refine ⟨i, x, b :: inner, hi, hx, by rw [hblocks, List.cons_append], ?_⟩
    rw [routinesOf_cons_of_none hplain, hinner]
  | @routine i x r' line defined _ _ =>
    obtain rfl : r' = r := Option.some.inj hr
    exact ⟨i, x, [], line, defined, rfl, rfl⟩

end Stacked

/-! ### Values that were returned -/

/-- Line `j` returns a value while the routine that line `i` defined is the innermost one. -/
structure ReturnsFrom (done : List (Line × Passage)) (i : Nat) (r : Routine) (j : Nat) : Prop where
  before : i < j
  returned : ∃ x y inner, done[i]? = some x ∧ x.2.routine? = some r ∧ done[j]? = some y ∧
    y.1.returnsValue = true ∧ y.2.entered.blocks = inner ++ .ofRoutine r :: x.2.converted.blocks ∧
    routinesOf inner = []

theorem returnsFrom_append_singleton {done : List (Line × Passage)} {z : Line × Passage} {i j : Nat}
    {r : Routine} :
    ReturnsFrom (done ++ [z]) i r j ↔ ReturnsFrom done i r j ∨
      j = done.length ∧ z.1.returnsValue = true ∧ ∃ x inner, done[i]? = some x ∧
        x.2.routine? = some r ∧ z.2.entered.blocks = inner ++ .ofRoutine r :: x.2.converted.blocks ∧
        routinesOf inner = [] := by
  constructor
  · rintro ⟨hij, x, y, inner, hi, hx, hj, hy, hblocks, hinner⟩
    have hjlt : j < (done ++ [z]).length := (List.getElem?_eq_some_iff.mp hj).1
    rw [List.length_append, List.length_singleton] at hjlt
    have hilt : i < done.length := by omega
    rw [List.getElem?_append_left hilt] at hi
    by_cases hlast : j = done.length
    · subst hlast
      obtain rfl : z = y := by simpa using hj
      exact .inr ⟨rfl, hy, x, inner, hi, hx, hblocks, hinner⟩
    · rw [List.getElem?_append_left (by omega)] at hj
      exact .inl ⟨hij, x, y, inner, hi, hx, hj, hy, hblocks, hinner⟩
  · rintro (⟨hij, x, y, inner, hi, hx, hj, h⟩ | ⟨rfl, hz, x, inner, hi, hx, h⟩)
    · have hjlt := (List.getElem?_eq_some_iff.mp hj).1
      refine ⟨hij, x, y, inner, ?_, hx, ?_, h⟩
      · rw [List.getElem?_append_left (by omega), hi]
      · rw [List.getElem?_append_left hjlt, hj]
    · have hilt := (List.getElem?_eq_some_iff.mp hi).1
      refine ⟨hilt, x, z, inner, ?_, hx, by simp, hz, h⟩
      rw [List.getElem?_append_left hilt, hi]

/-- What holds of a run after some lines: a name is marked exactly if a value was returned from a
routine of this name. -/
structure Marked (done : List (Line × Passage)) (r : Run) : Prop where
  stacked : Stacked done r.state.blocks
  returns : ∀ key, r.state.symbols.notes.returnsValue key = true ↔
    ∃ i routine j, routine.key = key ∧ ReturnsFrom done i routine j

private theorem Stacked.step {d : Dialect} {done : List (Line × Passage)} {r : Run}
    (h : Stacked done r.state.blocks) (line : Line) (following : List Line) :
    Stacked (done ++ [(line, r.passage ⟨.indentation, d⟩ line following)])
      (r.passage ⟨.indentation, d⟩ line following).left.blocks := by
  obtain ⟨m, hm⟩ := r.exists_left_blocks d line following
  have hleft := (r.left_indented d line following).1
  have hopened := r.defines_of_opened d line following
  generalize r.passage ⟨.indentation, d⟩ line following = p at *
  have hrest := (h.drop m).extend [(line, p)]
  cases ho : p.opened with
  | none =>
    rw [hm, ho]
    exact hrest
  | some b =>
    have hblocks : p.left.blocks = b :: p.converted.blocks := by rw [hleft, ho]; rfl
    have hconverted : p.converted.blocks = r.state.blocks.drop m := by
      rw [hm, ho] at hblocks
      exact (List.cons.inj hblocks).2.symm
    rw [← hconverted] at hrest
    rw [hblocks]
    cases hr : b.routine with
    | none => exact .plain hr hrest
    | some routine =>
      obtain ⟨rfl, _⟩ := hopened b ho routine hr
      have hlast : (done ++ [(line, p)])[done.length]? = some (line, p) := by simp
      refine .routine hlast ?_ hrest
      rw [Passage.routine?, ho]
      rfl

theorem Marked.step {d : Dialect} {done : List (Line × Passage)} {r : Run} (h : Marked done r)
    (line : Line) (following : List Line) :
    Marked (done ++ [(line, r.passage ⟨.indentation, d⟩ line following)])
      (r.step ⟨.indentation, d⟩ line following) := by
  have hstacked := h.stacked.step (d := d) line following
  obtain ⟨n, hstage⟩ := r.stage_passage d line following
  have hsymbols := (r.left_indented d line following).2.2
  have hreturns := r.returnsValue_passage d line following
  have hleft := r.left_passage ⟨.indentation, d⟩ line following
  rw [r.met_passage] at hstage
  generalize r.passage ⟨.indentation, d⟩ line following = p at *
  dsimp only at hreturns
  refine ⟨hleft ▸ hstacked, fun key => ?_⟩
  have hentered : Stacked done p.entered.blocks := by
    obtain ⟨m, hm⟩ := hstage.exists_drop
    exact hm ▸ h.stacked.drop m
  rw [← hleft, hsymbols, hreturns key, hstage.symbols, h.returns key]
  constructor
  · rintro (⟨i, routine, j, hkey, hfrom⟩ | ⟨hline, routine, hhead, hkey⟩)
    · exact ⟨i, routine, j, hkey, returnsFrom_append_singleton.mpr (.inl hfrom)⟩
    · obtain ⟨i, x, inner, hx⟩ := hentered.innermost hhead
      exact ⟨i, routine, done.length, hkey,
        returnsFrom_append_singleton.mpr (.inr ⟨rfl, hline, x, inner, hx⟩)⟩
  · rintro ⟨i, routine, j, hkey, hfrom⟩
    rcases returnsFrom_append_singleton.mp hfrom with
      hfrom | ⟨_, hline, x, inner, _, _, hblocks, hinner⟩
    · exact .inl ⟨i, routine, j, hkey, hfrom⟩
    · refine .inr ⟨hline, routine, ?_, hkey⟩
      rw [hblocks, routinesOf_append, hinner]
      rfl

theorem marked_start (d : Dialect) (lines : List Line) :
    Marked [] (Run.start ⟨.indentation, d⟩ lines) := by
  refine ⟨.nil, fun key => ?_⟩
  have hfalse : (Run.start ⟨.indentation, d⟩ lines).state.symbols.notes.returnsValue key = false :=
    Notes.returnsValue_of_returns (Symbols.learns_surveyIndented {} _).returns key
  simp only [hfalse, Bool.false_eq_true, false_iff]
  rintro ⟨i, routine, j, _, _, _, _, _, hi, _⟩
  simp at hi

end Pseudocode
