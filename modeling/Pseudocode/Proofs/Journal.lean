import Pseudocode.Proofs.BalancedNesting

/-! # The journal of a run

The journal keeps the lines that a run has taken, each with its passage. What holds of a run may depend
on all that came before, so properties of runs are proved along the journal: for no lines, and for one
more line. -/

namespace Pseudocode

namespace Run

/-- The lines that a run takes, each with its passage. -/
def journal (o : Options) (lines : List Line) (r : Run) : List (Line × Passage) :=
  lines.zip (passages o lines r)

@[simp] theorem journal_nil (o : Options) (r : Run) : journal o [] r = [] := rfl

@[simp] theorem journal_cons (o : Options) (line : Line) (following : List Line) (r : Run) :
    journal o (line :: following) r =
      (line, r.passage o line following) :: journal o following (r.step o line following) := rfl

/-- The journal of a whole source. -/
def journalOf (o : Options) (lines : List Line) : List (Line × Passage) :=
  journal o lines (start o lines)

theorem sameNesting_start (o : Options) (lines : List Line) :
    State.SameNesting {} (start o lines).state :=
  (State.SameNesting.withSymbols _ _).trans
    ((State.SameNesting.note _ rfl).trans (.note _ rfl))

section

variable {o : Options} {P : List (Line × Passage) → Run → Prop}
  (hstep : ∀ done line following r, P done r →
    P (done ++ [(line, r.passage o line following)]) (r.step o line following))

include hstep

private theorem journal_induction {lines : List Line} {done : List (Line × Passage)} {r : Run}
    (h : P done r) :
    P (done ++ journal o lines r) (steps o lines r) ∧
      ∀ k line p, (journal o lines r)[k]? = some (line, p) →
        ∃ following r', p = passage o line following r' ∧
          P (done ++ (journal o lines r).take k) r' := by
  induction lines generalizing done r with
  | nil => exact ⟨by simpa [steps] using h, by simp⟩
  | cons line following ih =>
    obtain ⟨hend, hbefore⟩ := ih (hstep done line following r h)
    refine ⟨by simpa [steps] using hend, ?_⟩
    intro k line' p hk
    cases k with
    | zero =>
      obtain ⟨rfl, rfl⟩ : line = line' ∧ r.passage o line following = p := by simpa using hk
      exact ⟨following, r, rfl, by simpa using h⟩
    | succ k =>
      obtain ⟨following', r', hp, hr'⟩ := hbefore k line' p (by simpa using hk)
      exact ⟨following', r', hp, by simpa using hr'⟩

/-- What holds at the start and what every line keeps. -/
theorem journalOf_induction {lines : List Line} (h : P [] (start o lines)) :
    P (journalOf o lines) (steps o lines (start o lines)) ∧
      ∀ k line p, (journalOf o lines)[k]? = some (line, p) →
        ∃ following r, p = passage o line following r ∧ P ((journalOf o lines).take k) r :=
  journal_induction hstep h

end

end Run

/-! ### What comes of a line -/

/-- What the comment of a line adds to the first line that is written for it. -/
def Line.commentSuffix (line : Line) : Text :=
  match line.comment with
  | some (c :: cs) => commentTail ++ c :: cs
  | _ => []

theorem attachComment_cons (line : Line) (first : Text) (rest : List Text) :
    attachComment (line.comment.getD []) (first :: rest) = (first ++ line.commentSuffix) :: rest := by
  unfold attachComment Line.commentSuffix
  match line.comment with
  | none => simp
  | some [] => simp
  | some (c :: cs) => simp

theorem length_attachComment (comment : Text) (lines : List Text) :
    (attachComment comment lines).length = lines.length := by
  unfold attachComment
  split <;> rfl

/-- The state in which the code of a line is converted: the blank lines that were held back have been
written. -/
def Passage.before (p : Passage) (held : Nat) : State := p.entered.emitAll (List.replicate held [])

/-- What the rules see when they convert the code of a line. -/
def Passage.context (o : Options) (p : Passage) (held : Nat) : Context :=
  (p.before held).context o.dialect.style o.convention (o.dialect.style.indent p.entered.depth)

/-- A rule takes the code of a line, or all rules decline it and nothing is opened or noted. -/
inductive Passage.Handled (o : Options) (line : Line) (p : Passage) : Prop
  | taken {held : Nat} {rule : Text} {outcome : Outcome}
      (rule : (p.context o held).convert? p.entry.code = some (rule, outcome))
      (opened : p.opened = outcome.opens)
      (symbols : p.converted.symbols = { p.entered.symbols with notes := outcome.notes })
      (output : p.converted.output = (p.before held).output ++
        attachComment (line.comment.getD []) outcome.lines)
  | passed (held : Nat)
      (declined : line.isCode = true →
        p.entry.code = [] ∨ (p.context o held).convert? p.entry.code = none)
      (opened : p.opened = none) (symbols : p.converted.symbols = p.entered.symbols)
      (output : p.entered.output <+: p.converted.output)

/-- What has been written before a line is converted stays. -/
theorem Passage.Handled.output {o : Options} {line : Line} {p : Passage} (h : p.Handled o line) :
    p.entered.output <+: p.converted.output := by
  cases h with
  | taken _ _ _ output =>
    rw [output, before, State.emitAll, List.append_assoc]
    exact List.prefix_append _ _
  | passed _ _ _ _ output => exact output

private theorem Run.exists_writeComment_eq (o : Options) (line : Line) (r : Run) :
    ∃ lines, (r.writeComment o line).state = r.state.emitAll lines := by
  unfold writeComment
  split
  · exact ⟨_, rfl⟩
  · exact ⟨[], by simp [State.emitAll]⟩

theorem Run.exists_step_eq_of_not_code (o : Options) {line : Line} (h : line.isCode = false)
    (following : List Line) (r : Run) :
    ∃ lines, (r.step o line following).state = r.state.emitAll lines := by
  obtain ⟨text, _, hstep⟩ := step_of_not_code o h following r
  rw [hstep]
  split
  · exact ⟨[], by simp [State.emitAll]⟩
  · exact ⟨List.replicate r.held [] ++ [text], by simp [release, State.emitAll, State.emit]⟩

theorem Run.passage_of_not_code (o : Options) {line : Line} (h : line.isCode = false)
    (following : List Line) (r : Run) :
    r.passage o line following =
      { met := r.state
        entered := r.state
        converted := (r.step o line following).state
        left := (r.step o line following).state } :=
  if_neg (by simp [h])

theorem Run.passage_of_code (o : Options) {line : Line} (h : line.isCode = true) (following : List Line)
    (r : Run) :
    r.passage o line following =
      { met := r.state
        entered := (r.state.enter o.dialect.style o.convention line following).2
        converted := (r.converted o line following).2.state
        left := (r.converted o line following).2.state.leave o.dialect.style o.convention line following
          (r.entryOf o line following) (r.converted o line following).1
        entry := r.entryOf o line following
        opened := (r.converted o line following).1 } := by
  rw [passage, if_pos h, step_of_code o h, codeLine_eq]

theorem Run.sameNesting_passage (o : Options) (line : Line) (following : List Line) (r : Run) :
    (r.passage o line following).entered.SameNesting (r.passage o line following).converted := by
  cases hl : line.isCode with
  | false =>
    rw [passage_of_not_code o hl]
    exact sameNesting_step_of_not_code o hl following r
  | true =>
    unfold passage
    rw [if_pos hl]
    exact sameNesting_converted o line following r

theorem Run.handled_passage (o : Options) (line : Line) (following : List Line) (r : Run) :
    (r.passage o line following).Handled o line := by
  cases hl : line.isCode with
  | false =>
    obtain ⟨lines, hlines⟩ := exists_step_eq_of_not_code o hl following r
    rw [passage_of_not_code o hl, hlines]
    exact .passed 0 (by simp [hl]) rfl rfl ⟨lines, rfl⟩
  | true =>
    unfold passage
    simp only [hl, ↓reduceIte, converted, handle]
    split
    · next hempty =>
      obtain ⟨lines, hlines⟩ := exists_writeComment_eq o line (r.entered o line following)
      simp only [hlines]
      exact .passed 0 (fun _ => .inl (List.isEmpty_iff.mp hempty)) rfl rfl
        ⟨List.replicate r.held [] ++ lines, (List.append_assoc ..).symm⟩
    · cases hconvert : ((r.entered o line following).ruleContext o).convert?
          (r.entryOf o line following).code with
      | none =>
        rw [convertCode_of_none hconvert]
        exact .passed r.held (fun _ => .inr hconvert) rfl rfl
          ⟨List.replicate r.held [] ++ _, (List.append_assoc ..).symm⟩
      | some taken =>
        rw [convertCode_of_some hconvert]
        exact .taken hconvert rfl rfl rfl

/-! ### Passages of indented sources -/

namespace Indentation

/-- How a code line of an indented source passes. -/
structure Passes (st : Style) (line : Line) (p : Passage) : Prop where
  entry : p.entry = (enter st line p.met).1
  entered : p.entered = (enter st line p.met).2
  converted : p.entered.SameNesting p.converted
  left : p.left = leave p.entry p.opened p.converted

theorem passes_passage (d : Dialect) {line : Line} (h : line.isCode = true)
    (following : List Line) (r : Run) :
    Passes d.style line (r.passage ⟨.indentation, d⟩ line following) := by
  have hs := Run.sameNesting_passage ⟨.indentation, d⟩ line following r
  unfold Run.passage at hs ⊢
  rw [if_pos h] at hs ⊢
  rw [Run.step_of_code _ h]
  exact ⟨rfl, rfl, hs, rfl⟩

end Indentation

end Pseudocode
