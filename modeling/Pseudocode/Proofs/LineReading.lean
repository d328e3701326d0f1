import Pseudocode.Proofs.CommentMarks
import Pseudocode.Proofs.QuotedText

/-! # Reading physical lines

The reader of a braced source takes a line for part of a comment block or for code, and of code it keeps
what stands before a comment. White space apart, the code of the logical lines is what was kept of the
physical ones, in order: joining lines, trimming them and moving braces lose nothing. A brace goes to the
nearest code line before it, and the numbers of lines are only passed on. -/

namespace Pseudocode

open Text

namespace Text

/-! ### White space and comments of a line -/

/-- A text without its white space. -/
def solid (s : Text) : Text := s.filter fun c => !isBlank c

@[simp] theorem solid_nil : solid [] = [] := rfl

@[simp] theorem solid_append (s t : Text) : solid (s ++ t) = solid s ++ solid t := List.filter_append s t

theorem solid_of_blanks {s : Text} (h : ∀ c ∈ s, isBlank c = true) : solid s = [] := by
  rw [solid, List.filter_eq_nil_iff]
  simpa using h

theorem not_blank_of_all {s : Text} (h : s.all (fun c => !isBlank c) = true) : ∀ c ∈ s, isBlank c = false := by
  simpa using h

theorem solid_dropWhile (s : Text) : solid (s.dropWhile isBlank) = solid s := by
  conv_rhs => rw [← List.takeWhile_append_dropWhile (p := isBlank) (l := s)]
  rw [solid_append, solid_of_blanks fun c hc => List.mem_takeWhile_imp hc, List.nil_append]

@[simp] theorem solid_trimEnd (s : Text) : solid (trimEnd s) = solid s := by
  have hreverse (s : Text) : solid s.reverse = (solid s).reverse := List.filter_reverse
  rw [trimEnd, dropEndWhile, hreverse, solid_dropWhile, hreverse, List.reverse_reverse]

@[simp] theorem solid_trim (s : Text) : solid (trim s) = solid s := by
  rw [trim, solid_trimEnd, trimStart, solid_dropWhile]

private theorem eq_append_of_commentFrom {marker s : Text} {m : Mode} {r : Text × Text}
    (h : commentFrom marker m s = some r) : s = r.1 ++ (marker ++ r.2) := by
  induction s generalizing m r with
  | nil => cases h
  | cons c s ih =>
    rw [commentFrom] at h
    split at h
    · next hfound =>
      obtain ⟨rest, hrest⟩ := List.isPrefixOf_iff_prefix.mp (Bool.and_eq_true_iff.mp hfound).2
      obtain rfl := Option.some.inj h
      rw [← hrest, List.drop_left, List.nil_append]
    · obtain ⟨r', hr', rfl⟩ := Option.map_eq_some_iff.mp h
      rw [ih hr', List.cons_append]

theorem solid_splitComment_prefix (marker s : Text) : solid (splitComment marker s).1 <+: solid s := by
  unfold splitComment
  split
  · next r hr =>
    rw [solid_trimEnd, eq_append_of_commentFrom hr, solid_append]
    exact List.prefix_append _ _
  · simp only [solid_trimEnd, List.prefix_refl]

/-- White space before a text is code. -/
theorem commentFrom_blanks_append {marker : Text} (hne : marker ≠ [])
    (hmarker : ∀ c ∈ marker, isBlank c = false) {b : Text} (hb : ∀ c ∈ b, isBlank c = true) (s : Text) :
    commentFrom marker .code (b ++ s) = (commentFrom marker .code s).map fun r => (b ++ r.1, r.2) := by
  obtain ⟨d, ds, rfl⟩ := List.exists_cons_of_ne_nil hne
  induction b with
  | nil => simp
  | cons c b ih =>
    obtain ⟨hc, hb⟩ := List.forall_mem_cons.mp hb
    have hlead : (d :: ds).isPrefixOf (c :: (b ++ s)) = false := by
      have hd : d ≠ c := by
        rintro rfl
        simp [hmarker d] at hc
      simp [List.isPrefixOf, hd]
    have hnext : Mode.code.next c = .code := by simp [Mode.next, isQuote_of_isBlank hc]
    rw [List.cons_append, commentFrom, hlead, Bool.and_false, if_neg (by simp), hnext, ih hb, Option.map_map]
    rfl

theorem solid_splitComment_of_after? {marker raw text : Text} (hne : marker ≠ [])
    (hmarker : ∀ c ∈ marker, isBlank c = false) (hquote : ∀ c ∈ marker, isQuote c = false)
    (h : after? marker (trim raw) = some text) : solid (splitComment marker raw).1 = [] := by
  obtain ⟨b₁, b₂, heq, hb₁, _⟩ := exists_trim raw
  obtain ⟨rest, hrest⟩ : marker <+: trim raw := by
    rw [after?] at h
    split at h
    · next hlead => exact List.isPrefixOf_iff_prefix.mp hlead
    · cases h
  have hfound : (commentFrom marker .code (trim raw ++ b₂)).map Prod.fst = some [] := by
    obtain ⟨d, ds, rfl⟩ := List.exists_cons_of_ne_nil hne
    have hlead : (d :: ds).isPrefixOf (d :: (ds ++ rest ++ b₂)) = true :=
      List.isPrefixOf_iff_prefix.mpr ⟨rest ++ b₂, by simp⟩
    rw [← hrest, List.cons_append, List.cons_append, commentFrom, hlead]
    simp [Mode.role, hquote d]
  obtain ⟨r, hr, hnil⟩ := Option.map_eq_some_iff.mp hfound
  rw [splitComment, heq, commentFrom_blanks_append hne hmarker hb₁, hr]
  simp [hnil, solid_of_blanks hb₁]

section

variable {needle : Text} (hne : needle ≠ []) (hneedle : ∀ c ∈ needle, isBlank c = false)

include hne hneedle

/-- White space after a text completes no needle. -/
theorem infix_append_blanks_iff {s b : Text} (hb : ∀ c ∈ b, isBlank c = true) :
    needle <:+: s ++ b ↔ needle <:+: s := by
  have havoid {c : Char} (hc : isBlank c = true) : c ∉ needle := fun h => by simp [hneedle c h] at hc
  cases b with
  | nil => rw [List.append_nil]
  | cons c b =>
    obtain ⟨hc, hb⟩ := List.forall_mem_cons.mp hb
    have hblanks : ¬ needle <:+: b := fun h => by
      obtain ⟨d, rest, rfl⟩ := List.exists_cons_of_ne_nil hne
      exact havoid (hb d (h.subset (by simp))) (by simp)
    rw [infix_append_cons_iff (havoid hc), or_iff_left hblanks]

theorem infix_trim_iff {s : Text} : needle <:+: trim s ↔ needle <:+: s := by
  obtain ⟨b₁, b₂, heq, hb₁, hb₂⟩ := exists_trim s
  have hbefore {b t : Text} (hb : ∀ c ∈ b, isBlank c = true) : needle <:+: b ++ t ↔ needle <:+: t := by
    rw [← List.reverse_infix, List.reverse_append,
      infix_append_blanks_iff (by simpa using hne) (by simpa using hneedle) (by simpa using hb), List.reverse_infix]
  conv_rhs => rw [heq, hbefore hb₁, infix_append_blanks_iff hne hneedle hb₂]

end

end Text

namespace Line

/-! ### What the reader keeps -/

/-- The code of all lines. -/
def codes (lines : List Line) : Text := lines.flatMap Line.code

@[simp] theorem codes_nil : codes [] = [] := rfl

@[simp] theorem codes_append (lines lines' : List Line) : codes (lines ++ lines') = codes lines ++ codes lines' :=
  List.flatMap_append

@[simp] theorem codes_cons (line : Line) (lines : List Line) : codes (line :: lines) = line.code ++ codes lines :=
  List.flatMap_cons

/-- Only code lines have code. -/
def CodeOnly (line : Line) : Prop := line.isCode = false → line.code = []

theorem codeOnly_of_mem_blockLine {number : Nat} {raw text : Text} {line : Line}
    (h : line ∈ blockLine number raw text) : line.CodeOnly ∧ line.code = [] := by
  unfold blockLine at h
  split at h
  · cases h
  · obtain rfl := List.mem_singleton.mp h
    exact ⟨fun _ => rfl, rfl⟩

namespace Reading

/-- The code that waits for its end. -/
def pending : Reading → Text
  | .joining j => j.line.code
  | _ => []

/-- Whether a line is read as part of a comment block. -/
def takesBlock : Reading → Text → Bool
  | .ready, raw => startsWith "/*" (trim raw)
  | .inBlock _, _ => true
  | .joining _, _ => false

/-- What is kept of a physical line as code. -/
def kept (reading : Reading) (raw : Text) : Text :=
  if reading.takesBlock raw then [] else (splitComment "//" raw).1

/-- Readings that occur where braces delimit blocks: no line is continued by a backslash. -/
def Braced : Reading → Prop
  | .ready => True
  | .inBlock closing => closing = "*/"
  | .joining j => j.continued = false ∧ j.line.isCode = true

/-- What one step does with the code that waits and with its own physical line. -/
structure Accounts (pending kept : Text) (r : List Line × Reading) : Prop where
  solid : solid (codes r.1) ++ solid r.2.pending = solid pending ++ solid kept
  braced : r.2.Braced
  codeOnly : ∀ line ∈ r.1, line.CodeOnly

private theorem accounts_settle {j : Joining} (hj : j.continued = false ∧ j.line.isCode = true) {pending kept : Text}
    (hcode : Text.solid j.line.code = Text.solid pending ++ Text.solid kept) :
    Accounts pending kept (step.settle j) := by
  unfold step.settle
  split
  · exact ⟨hcode, hj, by simp⟩
  · refine ⟨by simpa [codes, Reading.pending] using hcode, trivial, fun line hline => ?_⟩
    obtain rfl := List.mem_singleton.mp hline
    exact fun h => absurd hj.2 (by simp [h])

private theorem accounts_of_codes_eq_nil {lines : List Line} (reading : Reading) (hreading : reading.Braced)
    (hpending : reading.pending = []) (hlines : ∀ line ∈ lines, line.CodeOnly ∧ line.code = []) {kept : Text}
    (hkept : Text.solid kept = []) : Accounts [] kept (lines, reading) := by
  have hcodes : codes lines = [] := List.flatMap_eq_nil_iff.mpr fun line h => (hlines line h).2
  exact ⟨by simp [hcodes, hpending, hkept], hreading, fun line h => (hlines line h).1⟩

private theorem solid_glue (code next : Text) :
    Text.solid (Joining.glue code next) = Text.solid code ++ Text.solid next := by
  unfold Joining.glue
  split
  · next h => simp [List.isEmpty_iff.mp h]
  split
  · simp
  · rw [solid_append, solid_append, show solid (" " : String) = [] by decide, List.append_nil]

/-- A line that begins a comment block. -/
theorem step_block {raw rest : Text} (h : trim raw = "/*" ++ rest) (number : Nat) :
    Reading.ready.step .braces number raw =
      (splitAt? "*/" rest).elim (blockLine number raw rest, .inBlock "*/")
        fun r => ([ofComment number raw (cleanBlockText r.1)], .ready) := by
  have hlead : startsWith "/*" ("/*" ++ rest) = true := by
    rw [startsWith, List.isPrefixOf_iff_prefix]
    exact List.prefix_append _ _
  simp only [step, h, Convention.commentBlock?, hlead, if_true, List.drop_left]
  rw [if_neg (by simp)]
  cases splitAt? "*/" rest <;> rfl

/-- The code that waited and what is kept of the line are given out or wait. -/
theorem accounts_step {reading : Reading} (h : reading.Braced) (number : Nat) (raw : Text) :
    Accounts reading.pending (reading.kept raw) (reading.step .braces number raw) := by
  cases reading with
  | inBlock closing =>
    simp only [step]
    split
    · exact accounts_of_codes_eq_nil .ready trivial rfl (fun _ => codeOnly_of_mem_blockLine) rfl
    · exact accounts_of_codes_eq_nil _ h rfl (fun _ => codeOnly_of_mem_blockLine) rfl
  | joining j =>
    rw [step]
    refine accounts_settle (j := j.extend .braces raw) ⟨rfl, h.2⟩ ?_
    simp [Joining.extend, h.1, solid_glue, kept, takesBlock, pending, Convention.commentMarker]
  | ready =>
    have hcomment (text : Text) : ∀ line ∈ [ofComment number raw text], line.CodeOnly ∧ line.code = [] := by
      intro line hline
      obtain rfl := List.mem_singleton.mp hline
      exact ⟨fun _ => rfl, rfl⟩
    by_cases hblock : startsWith "/*" (trim raw) = true
    · obtain ⟨rest, hrest⟩ := List.isPrefixOf_iff_prefix.mp hblock
      rw [step_block hrest.symm, kept, takesBlock, if_pos hblock]
      cases splitAt? "*/" rest with
      | none =>
        exact accounts_of_codes_eq_nil (.inBlock "*/") rfl rfl
          (fun _ => codeOnly_of_mem_blockLine) rfl
      | some r => exact accounts_of_codes_eq_nil .ready trivial rfl (hcomment _) rfl
    · rw [kept, takesBlock, if_neg hblock]
      simp only [step, Convention.commentBlock?, if_neg hblock]
      split
      · -- a blank line has no code to keep
        next hempty =>
        refine accounts_of_codes_eq_nil .ready trivial rfl ?_ ?_
        · intro line hline
          obtain rfl := List.mem_singleton.mp hline
          exact ⟨fun _ => rfl, rfl⟩
        · have hsolid := solid_trim raw
          have hkept := solid_splitComment_prefix "//" raw
          rw [← hsolid, List.isEmpty_iff.mp hempty] at hkept
          exact List.prefix_nil.mp hkept
      · split
        · next hmarked =>
          refine accounts_of_codes_eq_nil .ready trivial rfl (hcomment _) ?_
          exact solid_splitComment_of_after? (by decide) (not_blank_of_all (by decide))
            (fun c hc => (plain_of_all (by decide) c hc).1) hmarked
        · refine accounts_settle (j := .start .braces number raw) ⟨rfl, rfl⟩ ?_
          simp [Joining.start, Convention.commentMarker, pending]

end Reading

theorem readFrom_cons (conv : Convention) (reading : Reading) (number : Nat) (raw : Text) (rest : List Text) :
    readFrom conv reading number (raw :: rest) =
      (reading.step conv number raw).1 ++ readFrom conv (reading.step conv number raw).2 (number + 1) rest := by
  cases reading <;> rfl

/-- What is kept of physical lines that are read one after another. -/
def keptFrom : Reading → Nat → List Text → Text
  | _, _, [] => []
  | reading, number, raw :: rest =>
    reading.kept raw ++ keptFrom (reading.step .braces number raw).2 (number + 1) rest

theorem solid_codes_readFrom {reading : Reading} (h : reading.Braced) (number : Nat) (lines : List Text) :
    solid (codes (readFrom .braces reading number lines)) =
      solid reading.pending ++ solid (keptFrom reading number lines) := by
  induction lines generalizing reading number with
  | nil => cases reading <;> simp [readFrom, codes, keptFrom, Reading.pending]
  | cons raw rest ih =>
    obtain ⟨hsolid, hbraced, _⟩ := Reading.accounts_step h number raw
    rw [readFrom_cons, codes_append, solid_append, ih hbraced, keptFrom, solid_append, ← List.append_assoc, hsolid,
      List.append_assoc]

theorem codeOnly_of_mem_readFrom {reading : Reading} (h : reading.Braced) {number : Nat} {lines : List Text} :
    ∀ line ∈ readFrom .braces reading number lines, line.CodeOnly := by
  induction lines generalizing reading number with
  | nil =>
    cases reading with
    | joining j =>
      intro line hline hcode
      obtain rfl := List.mem_singleton.mp hline
      exact absurd h.2 (by simp [hcode])
    | ready => exact fun _ h => nomatch h
    | inBlock closing => exact fun _ h => nomatch h
  | cons raw rest ih =>
    obtain ⟨_, hbraced, hlines⟩ := Reading.accounts_step h number raw
    rw [readFrom_cons]
    exact fun line hline => (List.mem_append.mp hline).elim (hlines line) (ih hbraced line)

/-! ### Braces on lines of their own -/

private theorem solid_codes_foldBrace? {before after : List Line} (hbefore : ∀ line ∈ before, line.CodeOnly)
    (h : foldBrace? before = some after) :
    solid (codes after.reverse) = solid (codes before.reverse) ++ ['\x7b'] ∧ ∀ line ∈ after, line.CodeOnly := by
  induction before generalizing after with
  | nil => cases h
  | cons l ls ih =>
    obtain ⟨hl, hls⟩ := List.forall_mem_cons.mp hbefore
    rw [foldBrace?] at h
    split at h
    · next hcode =>
      obtain rfl := Option.some.inj h
      refine ⟨?_, List.forall_mem_cons.mpr ⟨fun hnot => absurd hcode (ne_true_of_eq_false hnot), hls⟩⟩
      have hbrace : solid (" \x7b" : String) = ['\x7b'] := by decide
      simp only [List.reverse_cons, codes_append, codes_cons, codes_nil, List.append_nil, solid_append, hbrace,
        List.append_assoc]
    · next hcode =>
      obtain ⟨after', hafter', rfl⟩ := Option.map_eq_some_iff.mp h
      obtain ⟨hsolid, hafter⟩ := ih hls hafter'
      have hnil : l.code = [] := hl (by simpa using hcode)
      refine ⟨?_, List.forall_mem_cons.mpr ⟨hl, hafter⟩⟩
      simp only [List.reverse_cons, codes_append, codes_cons, codes_nil, hnil, List.append_nil, hsolid]

theorem solid_codes_foldBraces {before lines : List Line} (hbefore : ∀ line ∈ before, line.CodeOnly)
    (hlines : ∀ line ∈ lines, line.CodeOnly) :
    solid (codes (foldBraces before lines)) = solid (codes before.reverse) ++ solid (codes lines) := by
  induction lines generalizing before with
  | nil => simp [foldBraces]
  | cons l ls ih =>
    obtain ⟨hl, hls⟩ := List.forall_mem_cons.mp hlines
    rw [foldBraces]
    split
    · next after hfold =>
      split at hfold
      · next hbrace =>
        obtain ⟨hsolid, hafter⟩ := solid_codes_foldBrace? hbefore hfold
        have hl : solid l.code = ['\x7b'] := by
          rw [hbrace]
          decide
        rw [ih hafter hls, hsolid, codes_cons, solid_append, hl, List.append_assoc]
      · cases hfold
    · rw [ih (List.forall_mem_cons.mpr ⟨hl, hbefore⟩) hls]
      simp

private theorem foldBrace?_eq_none_iff {before : List Line} :
    foldBrace? before = none ↔ ∀ line ∈ before, line.isCode = false := by
  induction before with
  | nil => simp [foldBrace?]
  | cons l ls ih =>
    rw [foldBrace?, List.forall_mem_cons, ← ih]
    cases l.isCode <;> simp

private theorem foldBrace?_append {before after : List Line} (h : foldBrace? before = some after)
    (first : List Line) :
    foldBrace? (before ++ first) = some (after ++ first) ∧ ∃ line ∈ after, line.isCode = true := by
  induction before generalizing after with
  | nil => cases h
  | cons l ls ih =>
    rw [foldBrace?] at h
    rw [List.cons_append, foldBrace?]
    split at h
    · next hcode =>
      obtain rfl := Option.some.inj h
      rw [if_pos hcode]
      exact ⟨rfl, _, List.mem_cons_self, hcode⟩
    · next hcode =>
      obtain ⟨after', hafter', rfl⟩ := Option.map_eq_some_iff.mp h
      obtain ⟨happend, line, hline, hcodeline⟩ := ih hafter'
      rw [if_neg hcode, happend]
      exact ⟨rfl, line, List.mem_cons_of_mem _ hline, hcodeline⟩

theorem foldBraces_append_singleton {before lines : List Line} {first : Line}
    (hlines : ∀ line ∈ lines, line.CodeOnly)
    (h : (∃ line ∈ before, line.isCode = true) ∨ nextCode lines ≠ "\x7b") :
    foldBraces (before ++ [first]) lines = first :: foldBraces before lines := by
  induction lines generalizing before with
  | nil => simp [foldBraces]
  | cons l ls ih =>
    obtain ⟨hl, hls⟩ := List.forall_mem_cons.mp hlines
    rw [foldBraces, foldBraces]
    by_cases hbrace : l.code = "\x7b"
    · have hcode : l.isCode = true := by
        by_contra hnot
        rw [hl (by simpa using hnot)] at hbrace
        cases hbrace
      have hsome : ∃ line ∈ before, line.isCode = true := by
        refine h.resolve_right fun hnext => hnext ?_
        simp [nextCode, hcode, hbrace]
      rw [if_pos hbrace, if_pos hbrace]
      cases hfold : foldBrace? before with
      | none =>
        obtain ⟨line, hline, hcode⟩ := hsome
        simp [foldBrace?_eq_none_iff.mp hfold line hline] at hcode
      | some after =>
        obtain ⟨happend, hafter⟩ := foldBrace?_append hfold [first]
        rw [happend]
        exact ih hls (.inl hafter)
    · rw [if_neg hbrace, if_neg hbrace]
      have hstep := @ih (l :: before) hls
      refine hstep ?_
      cases hcode : l.isCode with
      | true => exact .inl ⟨l, List.mem_cons_self, hcode⟩
      | false =>
        rcases h with ⟨line, hline, hcodeline⟩ | hnext
        · exact .inl ⟨line, List.mem_cons_of_mem _ hline, hcodeline⟩
        · rw [nextCode, List.find?_cons_of_neg (by simp [hcode])] at hnext
          exact .inr hnext

/-- White space apart, the code of a braced source is what is kept of its physical lines. -/
theorem solid_codes_ofSource (source : Text) :
    solid (codes (ofSource .braces source)) = solid (keptFrom .ready 1 (physicalLines source)) := by
  have hready : Reading.ready.Braced := trivial
  rw [ofSource, solid_codes_foldBraces (by simp) (codeOnly_of_mem_readFrom hready), List.reverse_nil, codes_nil,
    solid_nil, List.nil_append, solid_codes_readFrom hready]
  rfl

/-! ### Numbers of lines -/

def renumber (k : Nat) (line : Line) : Line := { line with number := line.number + k }

def Reading.renumber (k : Nat) : Reading → Reading
  | .joining j => .joining { j with line := j.line.renumber k }
  | reading => reading

private theorem blockLine_renumber (k number : Nat) (raw text : Text) :
    blockLine (number + k) raw text = (blockLine number raw text).map (renumber k) := by
  unfold blockLine
  split <;> rfl

/-- Numbers are only passed on. -/
theorem step_renumber (conv : Convention) (k : Nat) (reading : Reading) (number : Nat) (raw : Text) :
    (reading.renumber k).step conv (number + k) raw =
      ((reading.step conv number raw).1.map (renumber k), (reading.step conv number raw).2.renumber k) := by
  have hsettle (j : Joining) : Reading.step.settle { j with line := j.line.renumber k } =
      ((Reading.step.settle j).1.map (renumber k), (Reading.step.settle j).2.renumber k) := by
    have hopen : Joining.isOpen { j with line := j.line.renumber k } = j.isOpen := rfl
    rw [Reading.step.settle, Reading.step.settle, hopen]
    split <;> rfl
  cases reading with
  | inBlock closing =>
    simp only [Reading.renumber, Reading.step]
    split <;> rw [blockLine_renumber]
  | joining j => exact hsettle (j.extend conv raw)
  | ready =>
    simp only [Reading.renumber, Reading.step]
    split
    · rfl
    split
    · split
      · rfl
      · rw [blockLine_renumber]
    · split
      · rfl
      · exact hsettle (.start conv number raw)

theorem readFrom_renumber (conv : Convention) (k : Nat) (reading : Reading) (number : Nat) (lines : List Text) :
    readFrom conv (reading.renumber k) (number + k) lines =
      (readFrom conv reading number lines).map (renumber k) := by
  induction lines generalizing reading number with
  | nil => cases reading <;> rfl
  | cons raw rest ih =>
    rw [readFrom_cons, readFrom_cons, step_renumber, List.map_append, ← ih, Nat.add_right_comm]

private theorem foldBrace?_renumber (k : Nat) (before : List Line) :
    foldBrace? (before.map (renumber k)) = (foldBrace? before).map (List.map (renumber k)) := by
  induction before with
  | nil => rfl
  | cons l ls ih =>
    have hcode : (l.renumber k).isCode = l.isCode := rfl
    rw [List.map_cons, foldBrace?, foldBrace?, hcode, ih]
    split
    · rfl
    · cases foldBrace? ls <;> rfl

private theorem foldBraces_renumber (k : Nat) (before lines : List Line) :
    foldBraces (before.map (renumber k)) (lines.map (renumber k)) = (foldBraces before lines).map (renumber k) := by
  induction lines generalizing before with
  | nil => simp [foldBraces]
  | cons l ls ih =>
    have hcode : (l.renumber k).code = l.code := rfl
    rw [List.map_cons, foldBraces, foldBraces, hcode, foldBrace?_renumber]
    by_cases hbrace : l.code = "\x7b"
    · rw [if_pos hbrace, if_pos hbrace]
      cases foldBrace? before with
      | some after => exact ih after
      | none => exact ih (l :: before)
    · rw [if_neg hbrace, if_neg hbrace]
      exact ih (l :: before)

private theorem nextCode_renumber (k : Nat) (lines : List Line) :
    nextCode (lines.map (renumber k)) = nextCode lines := by
  induction lines with
  | nil => rfl
  | cons l ls ih =>
    unfold nextCode at ih ⊢
    cases hcode : l.isCode with
    | true =>
      have hcode' : (l.renumber k).isCode = true := hcode
      rw [List.map_cons, List.find?_cons_of_pos hcode', List.find?_cons_of_pos hcode]
      rfl
    | false =>
      have hcode' : (l.renumber k).isCode = false := hcode
      rw [List.map_cons, List.find?_cons_of_neg (by simp [hcode']), List.find?_cons_of_neg (by simp [hcode]), ih]

/-- Lines after a first one are read as if they stood alone, unless a brace among them goes to it. -/
theorem ofSource_of_readFrom {conv : Convention} {source rest : Text} {line : Line} {k : Nat}
    (hread : readFrom conv .ready 1 (physicalLines source) =
      line :: (readFrom conv .ready 1 (physicalLines rest)).map (renumber k))
    (hnext : conv = .braces → nextCode (readFrom conv .ready 1 (physicalLines rest)) ≠ "\x7b") :
    ofSource conv source = line :: (ofSource conv rest).map (renumber k) := by
  cases conv with
  | indentation => exact hread
  | braces =>
    have hready : Reading.ready.Braced := trivial
    have hcode : ∀ l ∈ (readFrom .braces .ready 1 (physicalLines rest)).map (renumber k), l.CodeOnly := by
      intro l hl
      obtain ⟨l', hl', rfl⟩ := List.mem_map.mp hl
      exact codeOnly_of_mem_readFrom hready l' hl'
    have hfirst (lines : List Line) : foldBraces [] (line :: lines) = foldBraces ([] ++ [line]) lines := by
      rw [foldBraces]
      split
      · next hsome => split at hsome <;> cases hsome
      · rfl
    have hbrace := hnext rfl
    rw [← nextCode_renumber k] at hbrace
    rw [ofSource, hread, ofSource, hfirst, foldBraces_append_singleton hcode (.inr hbrace), ← foldBraces_renumber]
    rfl

end Line

end Pseudocode
