import Pseudocode.Proofs.BlockStack
import Pseudocode.Proofs.RuleRuns

/-! # Lines taken one after another

A session takes the lines of a source in order: every code line closes the blocks that it ends, is
converted, and opens the block that the converter asks for. `Reached` leaves open what the converter
does; `track` takes the lines with one given converter. -/

namespace Pseudocode

/-- Converting a line may write, learn names and note what it did, but it leaves the nesting. -/
structure State.SameNesting (s t : State) : Prop where
  blocks : t.blocks = s.blocks
  indents : t.indents = s.indents
  braces : t.braces = s.braces
  chainPending : t.chainPending = s.chainPending
  tryDepth : t.tryDepth = s.tryDepth
  log : ∃ noted, t.log = noted ++ s.log ∧ ∀ e ∈ noted, e.isConversion = true

namespace State.SameNesting

theorem refl (s : State) : s.SameNesting s :=
  ⟨rfl, rfl, rfl, rfl, rfl, [], rfl, by simp⟩

theorem trans {s t u : State} (h : s.SameNesting t) (h' : t.SameNesting u) : s.SameNesting u := by
  obtain ⟨noted, hlog, hnoted⟩ := h.log
  obtain ⟨noted', hlog', hnoted'⟩ := h'.log
  refine ⟨h'.blocks.trans h.blocks, h'.indents.trans h.indents, h'.braces.trans h.braces,
    h'.chainPending.trans h.chainPending, h'.tryDepth.trans h.tryDepth, noted' ++ noted, ?_, ?_⟩
  · rw [hlog', hlog, List.append_assoc]
  · intro e he
    rcases List.mem_append.mp he with he | he
    · exact hnoted' e he
    · exact hnoted e he

theorem emitAll (s : State) (lines : List Text) : s.SameNesting (s.emitAll lines) :=
  ⟨rfl, rfl, rfl, rfl, rfl, [], rfl, by simp⟩

theorem withSymbols (s : State) (symbols : Symbols) : s.SameNesting (s.withSymbols symbols) :=
  ⟨rfl, rfl, rfl, rfl, rfl, [], rfl, by simp⟩

theorem note (s : State) {e : Event} (he : e.isConversion = true) : s.SameNesting (s.note e) :=
  ⟨rfl, rfl, rfl, rfl, rfl, [e], rfl, by simpa using he⟩

end State.SameNesting

theorem State.SameNesting.neverEmpty {s t : State} (h : s.SameNesting t) (hs : s.NeverEmpty) :
    t.NeverEmpty := by
  obtain ⟨noted, hlog, hnoted⟩ := h.log
  intro hm
  rw [hlog] at hm
  rcases List.mem_append.mp hm with hm | hm
  · exact absurd (hnoted _ hm) (by simp [Event.isConversion])
  · exact hs hm

/-- The lines before `rest` have been taken from the beginning, and this may have led to `s`. The
converter may open on an entry whatever `opens` allows. -/
inductive Reached (st : Style) (conv : Convention) (opens : Entry → Option Block → Prop)
    (lines : List Line) : List Line → State → Prop
  | start {s : State} (hs : State.SameNesting {} s) : Reached st conv opens lines lines s
  | pass {line : Line} {rest : List Line} {s t : State}
      (h : Reached st conv opens lines (line :: rest) s) (hl : line.isCode = false)
      (hs : s.SameNesting t) : Reached st conv opens lines rest t
  | code {line : Line} {rest : List Line} {s entered converted : State} {entry : Entry}
      {opened : Option Block}
      (h : Reached st conv opens lines (line :: rest) s) (hl : line.isCode = true)
      (he : s.enter st conv line rest = (entry, entered)) (hs : entered.SameNesting converted)
      (ho : opens entry opened) :
      Reached st conv opens lines rest (converted.leave st conv line rest entry opened)

/-- A block is opened only where code is left to convert. -/
def OpensOnCode (entry : Entry) (opened : Option Block) : Prop := entry.code = [] → opened = none

/-! ### Conversions of whole sources -/

theorem Line.isCode_eq_isNone_passthrough? (line : Line) :
    line.isCode = line.passthrough?.isNone := by
  unfold isCode passthrough?
  cases line.kind with
  | blank => rfl
  | code => rfl
  | comment =>
    simp only
    split <;> rfl

namespace Run

open State

theorem sameNesting_release (r : Run) : r.state.SameNesting r.release.state :=
  .emitAll _ _

theorem sameNesting_writeComment (o : Options) (line : Line) (r : Run) :
    r.state.SameNesting (r.writeComment o line).state := by
  unfold writeComment
  split
  · exact .emitAll _ [_]
  · exact .refl _

theorem sameNesting_convertCode (o : Options) (line : Line) (code : Text) (r : Run) :
    r.state.SameNesting (r.convertCode o line code).2.state := by
  simp only [convertCode, State.dispatch_eq]
  cases (r.state.context o.dialect.style o.convention _).convert? code with
  | none => exact (SameNesting.note _ rfl).trans (.emitAll _ _)
  | some c => exact ((SameNesting.withSymbols _ _).trans (.note _ rfl)).trans (.emitAll _ _)

private theorem reached_codeLine (o : Options) {lines rest : List Line} {line : Line} {r : Run}
    (h : Reached o.dialect.style o.convention OpensOnCode lines (line :: rest) r.state)
    (hl : line.isCode = true) :
    Reached o.dialect.style o.convention OpensOnCode lines rest (r.codeLine o line rest).state := by
  have hreleased := sameNesting_release
    { r with state := (r.state.enter o.dialect.style o.convention line rest).2 }
  unfold codeLine
  simp only
  split
  · exact .code h hl rfl (hreleased.trans (sameNesting_writeComment o line _)) (fun _ => rfl)
  · next hcode =>
    refine .code h hl rfl (hreleased.trans (sameNesting_convertCode o line _ _)) ?_
    intro hn
    simp [hn] at hcode

private theorem reached_step (o : Options) {lines rest : List Line} {line : Line} {r : Run}
    (h : Reached o.dialect.style o.convention OpensOnCode lines (line :: rest) r.state) :
    Reached o.dialect.style o.convention OpensOnCode lines rest (r.step o line rest).state := by
  unfold step
  split
  · next hblank =>
    have hkind : line.kind = .blank := by simp_all
    exact .pass h (by simp [Line.isCode, hkind]) (.refl _)
  · cases hpass : line.passthrough? with
    | some text =>
      have hcode : line.isCode = false := by
        rw [Line.isCode_eq_isNone_passthrough?, hpass]
        rfl
      exact .pass h hcode ((sameNesting_release r).trans (.emitAll _ [text]))
    | none =>
      have hcode : line.isCode = true := by
        rw [Line.isCode_eq_isNone_passthrough?, hpass]
        rfl
      exact reached_codeLine o h hcode

private theorem reached_steps (o : Options) {lines rest : List Line} {r : Run}
    (h : Reached o.dialect.style o.convention OpensOnCode lines rest r.state) :
    Reached o.dialect.style o.convention OpensOnCode lines [] (steps o rest r).state := by
  induction rest generalizing r with
  | nil => exact h
  | cons line rest ih => exact ih (reached_step o h)

/-- A conversion takes all its lines and then closes what is open. -/
theorem exists_reached_ofLines (o : Options) (lines : List Line) :
    ∃ r : Run, ofLines o lines = r.finish o ∧
      Reached o.dialect.style o.convention OpensOnCode lines [] r.state := by
  have hstart : SameNesting {} ((State.survey o.convention lines {}).note
      (.converting o lines.length)) :=
    ((SameNesting.withSymbols {} _).trans (.note _ rfl)).trans (.note _ rfl)
  exact ⟨_, rfl, reached_steps o (.start hstart)⟩

end Run

/-- What a converter makes of code: the lines it writes and the block it opens. -/
structure Conversion where
  written : List Text := []
  opens : Option Block := none
  deriving DecidableEq, Repr

/-- Text lines at a depth. -/
def Style.indented (st : Style) (depth : Nat) (lines : List Text) : List Text :=
  lines.map (st.indent depth ++ ·)

section

variable (st : Style) (conv : Convention) (convert : Line → Text → Conversion)

/-- Takes a code line from its closings to its opening. -/
def trackLine (line : Line) (following : List Line) (s : State) : State :=
  let (entry, s) := s.enter st conv line following
  let c := if entry.code.isEmpty then {} else convert line entry.code
  (s.emitAll (st.indented s.depth c.written)).leave st conv line following entry c.opens

variable {st conv convert} in
theorem trackLine_eq {line : Line} {following : List Line} {s t : State} {code : Text}
    {taken opens : Option Block} {written : List Text}
    (he : s.enter st conv line following = ({ code, taken }, t)) (hne : code ≠ [])
    (hc : convert line code = ⟨written, opens⟩) :
    trackLine st conv convert line following s =
      (t.emitAll (st.indented t.depth written)).leave st conv line following { code, taken }
        opens := by
  have hcode : code.isEmpty = false := by simpa using hne
  unfold trackLine
  rw [he]
  simp only [hcode, Bool.false_eq_true, ↓reduceIte, hc]

/-- Takes the code lines among `lines`, which stand before `following`. -/
def track : List Line → List Line → State → State
  | [], _, s => s
  | line :: lines, following, s =>
    track lines following
      (if line.isCode then trackLine st conv convert line (lines ++ following) s else s)

@[simp] theorem track_nil (following : List Line) (s : State) :
    track st conv convert [] following s = s := rfl

theorem track_cons_of_code {line : Line} (h : line.isCode = true) (lines following : List Line)
    (s : State) :
    track st conv convert (line :: lines) following s =
      track st conv convert lines following
        (trackLine st conv convert line (lines ++ following) s) := by
  rw [track, if_pos h]

theorem track_append (lines₁ lines₂ following : List Line) (s : State) :
    track st conv convert (lines₁ ++ lines₂) following s =
      track st conv convert lines₂ following
        (track st conv convert lines₁ (lines₂ ++ following) s) := by
  induction lines₁ generalizing s with
  | nil => rfl
  | cons line lines ih => rw [List.cons_append, track, track, ih, List.append_assoc]

end

/-! ### Looking ahead -/

namespace Line

theorem nextCode_cons_of_code {line : Line} (h : line.isCode = true) (rest : List Line) :
    nextCode (line :: rest) = line.code := by
  simp [nextCode, h]

theorem nextCode_cons_of_not_code {line : Line} (h : line.isCode = false) (rest : List Line) :
    nextCode (line :: rest) = nextCode rest := by
  simp [nextCode, h]

theorem nextCode_filter_append (lines following : List Line) :
    nextCode (lines.filter isCode ++ following) = nextCode (lines ++ following) := by
  induction lines with
  | nil => rfl
  | cons line lines ih =>
    cases h : line.isCode with
    | false => rw [List.filter_cons_of_neg (by simp [h]), List.cons_append,
        nextCode_cons_of_not_code h, ih]
    | true => rw [List.filter_cons_of_pos h, List.cons_append, List.cons_append,
        nextCode_cons_of_code h, nextCode_cons_of_code h]

end Line

private theorem trackLine_congr (st : Style) (conv : Convention) (convert : Line → Text → Conversion)
    (line : Line) {following following' : List Line} (s : State)
    (h : Line.nextCode following = Line.nextCode following') :
    trackLine st conv convert line following s = trackLine st conv convert line following' s := by
  cases conv with
  | indentation => rfl
  | braces =>
    unfold trackLine State.enter State.leave
    simp only
    rw [h]

/-- Lines without code play no part in the nesting. -/
theorem track_filter_isCode (st : Style) (conv : Convention) (convert : Line → Text → Conversion)
    (lines following : List Line) (s : State) :
    track st conv convert (lines.filter Line.isCode) following s =
      track st conv convert lines following s := by
  induction lines generalizing s with
  | nil => rfl
  | cons line lines ih =>
    cases h : line.isCode with
    | false =>
      rw [List.filter_cons_of_neg (by simp [h]), ih, track]
      simp [h]
    | true =>
      rw [List.filter_cons_of_pos h, track_cons_of_code _ _ _ h, track_cons_of_code _ _ _ h, ih]
      rw [trackLine_congr st conv convert line s (Line.nextCode_filter_append lines following)]

end Pseudocode
