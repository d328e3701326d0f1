import Pseudocode.Proofs.LiteralAssignments

/-! # Code and string literals

A line falls into code and string literals, and its code into the pieces between separators that stand
outside literals and brackets. Neither loses a character. -/

namespace Pseudocode.Text

/-- Text whose ends are no white space has nothing to trim. -/
theorem trim_of_ends {s : Text} (hhead : ∀ c ∈ s.head?, isBlank c = false)
    (hlast : ∀ c ∈ s.getLast?, isBlank c = false) : trim s = s := by
  have hdrop {s : Text} (h : ∀ c ∈ s.head?, isBlank c = false) : s.dropWhile isBlank = s := by
    cases s with
    | nil => rfl
    | cons c s => rw [List.dropWhile_cons, h c rfl]; rfl
  rw [trim, trimStart, hdrop hhead, trimEnd, dropEndWhile, hdrop (by simpa using hlast),
    List.reverse_reverse]

/-- A text is its trimmed part with white space around it. -/
theorem exists_trim (s : Text) :
    ∃ b₁ b₂, s = b₁ ++ (trim s ++ b₂) ∧ (∀ c ∈ b₁, isBlank c = true) ∧ (∀ c ∈ b₂, isBlank c = true) := by
  refine ⟨s.takeWhile isBlank, ((trimStart s).reverse.takeWhile isBlank).reverse, ?_, ?_, ?_⟩
  · have hend : trim s ++ ((trimStart s).reverse.takeWhile isBlank).reverse = trimStart s := by
      rw [trim, trimEnd, dropEndWhile, ← List.reverse_append, List.takeWhile_append_dropWhile,
        List.reverse_reverse]
    rw [hend, trimStart, List.takeWhile_append_dropWhile]
  · exact fun c hc => List.mem_takeWhile_imp hc
  · exact fun c hc => List.mem_takeWhile_imp (List.mem_reverse.mp hc)

theorem isBlank_of_mem_getLast?_trim {s : Text} {c : Char} (hc : c ∈ (trim s).getLast?) : isBlank c = false := by
  rw [trim, trimEnd, dropEndWhile, List.getLast?_reverse] at hc
  have hnot := List.head?_dropWhile_not isBlank (trimStart s).reverse
  rw [Option.mem_def.mp hc] at hnot
  simpa using hnot

theorem getLast?_trim {s : Text} (hs : ∀ c ∈ s.getLast?, isBlank c = false) :
    (trim s).getLast? = s.getLast? := by
  obtain ⟨b₁, b₂, heq, hb₁, hb₂⟩ := exists_trim s
  cases hlast : s.getLast? with
  | none =>
    obtain rfl := List.getLast?_eq_none_iff.mp hlast
    rfl
  | some c =>
    have hc := hs c hlast
    have hnot {b : Text} (hb : ∀ c ∈ b, isBlank c = true) : c ∉ b.getLast? := fun h => by
      simp [hb c (List.mem_of_mem_getLast? h)] at hc
    rw [heq, List.getLast?_append, List.getLast?_append] at hlast
    cases h₂ : b₂.getLast? with
    | some d =>
      obtain rfl : d = c := by simpa [h₂] using hlast
      exact absurd h₂ (hnot hb₂)
    | none =>
      cases h₁ : (trim s).getLast? with
      | some d => simpa [h₂, h₁] using hlast
      | none => exact absurd (by simpa [h₂, h₁] using hlast) (hnot hb₁)

/-! ### Literals and the code between them -/

/-- Code up to the first literal, then each literal with the code after it. -/
structure Segments where
  lead : Text
  rest : List (Literal × Text)
  deriving DecidableEq, Repr

/-- A partly read line, from the right: the run of code or literal body at its left end, whether the
literal is closed, and the code after that literal. -/
structure SegmentRun where
  run : Text
  closed : Bool
  trail : Text
  rest : List (Literal × Text)

namespace SegmentRun

def empty : SegmentRun := ⟨[], false, [], []⟩

def push (c : Char) (role : Role) (r : SegmentRun) : SegmentRun :=
  match role with
  | .code | .body => { r with run := c :: r.run }
  | .closing => ⟨[], true, r.run, r.rest⟩
  | .opening => ⟨[], false, [], (⟨c, r.run, r.closed⟩, r.trail) :: r.rest⟩

/-- A line is cut from right to left. -/
def cut (m : Mode) (s : Text) : SegmentRun := (rolesFrom m s).foldr (fun x => push x.1 x.2) empty

theorem cut_cons (m : Mode) (c : Char) (s : Text) : cut m (c :: s) = push c (m.role c) (cut (m.next c) s) := rfl

end SegmentRun

def segments (s : Text) : Segments :=
  ⟨(SegmentRun.cut .code s).run, (SegmentRun.cut .code s).rest⟩

/-! ### Mapping code -/

section

variable (doubleQuotes : Bool) (f : Text → Text)

/-- The literals of a line, each with the mapped code after it. -/
def mappedRest (rest : List (Literal × Text)) : Text :=
  rest.flatMap fun x => (x.1.requoted doubleQuotes).text ++ f x.2

private theorem codeLoop_eq (s : Text) :
    (∀ code out, codeLoop doubleQuotes f code out s =
      out ++ (f (code ++ (SegmentRun.cut .code s).run) ++
        mappedRest doubleQuotes f (SegmentRun.cut .code s).rest)) ∧
    ∀ quote, isQuote quote = true → ∀ body escaped out,
      let r := SegmentRun.cut (if escaped then .escaped quote else .literal quote) s
      literalLoop doubleQuotes f quote body escaped out s =
        out ++ (((Literal.mk quote (body ++ r.run) r.closed).requoted doubleQuotes).text ++ f r.trail ++
          mappedRest doubleQuotes f r.rest) := by
  induction s with
  | nil => simp [codeLoop, literalLoop, SegmentRun.cut, rolesFrom, SegmentRun.empty, mappedRest]
  | cons c s ih =>
    obtain ⟨hcode, hliteral⟩ := ih
    constructor
    · intro code out
      rw [codeLoop, SegmentRun.cut_cons]
      cases hc : isQuote c with
      | true => simp [hliteral c hc, Mode.role, Mode.next, hc, SegmentRun.push, mappedRest]
      | false => simp [hcode, Mode.role, Mode.next, hc, SegmentRun.push]
    · intro quote hquote body escaped out
      rw [literalLoop, SegmentRun.cut_cons]
      cases escaped with
      | true => simp [hliteral quote hquote, Mode.role, Mode.next, SegmentRun.push]
      | false =>
        by_cases hback : c = '\\'
        · have hne : c ≠ quote := by
            rintro rfl
            exact absurd (hback ▸ hquote) (by decide)
          simp [hliteral quote hquote, Mode.role, Mode.next, SegmentRun.push, hback, hback ▸ hne]
        · by_cases hc : c = quote
          · simp [hcode, Mode.role, Mode.next, SegmentRun.push, hc, hc ▸ hback]
          · simp [hliteral quote hquote, Mode.role, Mode.next, SegmentRun.push, hback, hc]

theorem mapCode_eq (s : Text) : mapCode doubleQuotes f s =
    f (segments s).lead ++ mappedRest doubleQuotes f (segments s).rest :=
  (codeLoop_eq doubleQuotes f s).1 [] []

end

/-! ### Stretches of code -/

/-- The stretches of code between the literals of a line. -/
def Segments.stretches (t : Segments) : List Text := t.lead :: t.rest.map Prod.snd

/-- A literal begins with a quote and ends with it, unless no code comes after it. -/
structure Literal.Bounded (x : Literal × Text) : Prop where
  quote : isQuote x.1.quote = true
  closed : x.1.closed = false → x.2 = []

theorem bounded_segments (s : Text) : ∀ x ∈ (segments s).rest, Literal.Bounded x := by
  have hfrom (m : Mode) (s : Text) :
      let r := SegmentRun.cut m s
      (∀ x ∈ r.rest, Literal.Bounded x) ∧ (r.closed = false → r.trail = []) := by
    induction s generalizing m with
    | nil => simp [SegmentRun.cut, rolesFrom, SegmentRun.empty]
    | cons c s ih =>
      obtain ⟨hrest, hclosed⟩ := ih (m.next c)
      rw [SegmentRun.cut_cons]
      generalize SegmentRun.cut (m.next c) s = r at *
      cases hrole : m.role c with
      | code | body => exact ⟨hrest, hclosed⟩
      | closing => exact ⟨hrest, by simp [SegmentRun.push]⟩
      | opening =>
        have hquote : isQuote c = true := by
          cases m with
          | code => simpa [Mode.role] using hrole
          | literal q => simp [Mode.role, ite_eq_iff] at hrole
          | escaped q => simp [Mode.role] at hrole
        exact ⟨List.forall_mem_cons.mpr ⟨⟨hquote, hclosed⟩, hrest⟩, fun _ => rfl⟩
  exact (hfrom .code s).1

/-! ### Text without quotes -/

theorem code_of_no_quote {c : Char} (hc : isQuote c = false) :
    Mode.code.role c = .code ∧ Mode.code.next c = .code := by
  simp [Mode.role, Mode.next, hc]

section

variable {s : Text} (h : ∀ c ∈ s, isQuote c = false)

include h

private theorem segments_of_no_quote : segments s = ⟨s, []⟩ := by
  have hcut : SegmentRun.cut .code s = ⟨s, false, [], []⟩ := by
    induction s with
    | nil => rfl
    | cons c s ih =>
      obtain ⟨hc, hs⟩ := List.forall_mem_cons.mp h
      rw [SegmentRun.cut_cons, (code_of_no_quote hc).1, (code_of_no_quote hc).2, ih hs]
      rfl
  simp only [segments, hcut]

theorem mapCode_of_no_quote (doubleQuotes : Bool) (f : Text → Text) :
    mapCode doubleQuotes f s = f s := by
  simp [mapCode_eq, segments_of_no_quote h, mappedRest]

end

/-! ### Pieces between separators -/

/-- The pieces and the separators between them are the whole text. -/
theorem splitFrom_eq (sep : Char) (m : Mode) (d : Int) (s : Text) :
    s = (splitFrom sep m d s).1 ++ (splitFrom sep m d s).2.flatMap (sep :: ·) := by
  induction s generalizing m d with
  | nil => rfl
  | cons c s ih =>
    rw [splitFrom]
    split
    · next h =>
      simp only [Bool.and_eq_true, beq_iff_eq] at h
      obtain ⟨⟨_, rfl⟩, _⟩ := h
      simpa using ih .code 0
    · simpa using ih (m.next c) (d + m.weight c)

private theorem splitTopLevel_subset (sep : Char) (s : Text) :
    splitTopLevel sep s ⊆ ((splitFrom sep .code 0 s).1 :: (splitFrom sep .code 0 s).2).map trim := by
  unfold splitTopLevel
  dsimp only
  split
  · exact List.nil_subset _
  · exact List.Subset.refl _

theorem splitTopLevel_of_ne_nil {sep : Char} {s : Text} (h : splitTopLevel sep s ≠ []) :
    splitTopLevel sep s = ((splitFrom sep .code 0 s).1 :: (splitFrom sep .code 0 s).2).map trim := by
  unfold splitTopLevel at h ⊢
  dsimp only at h ⊢
  split at h
  · exact absurd rfl h
  · rfl

theorem splitTopLevel_of_first {sep : Char} {s p : Text} {ps : List Text} (h : splitFrom sep .code 0 s = (p, ps))
    (hp : trim p ≠ []) : splitTopLevel sep s = (p :: ps).map trim := by
  rw [splitTopLevel, h]
  dsimp only
  split
  · next hnil => exact absurd hnil hp
  · rfl

/-- A piece stands between separators or the ends of the text. -/
theorem exists_of_mem_splitTopLevel {sep : Char} {s p : Text} (h : p ∈ splitTopLevel sep s) :
    ∃ a q b, s = a ++ (q ++ b) ∧ p = trim q ∧ (∀ c ∈ a.getLast?, c = sep) ∧ (∀ c ∈ b.head?, c = sep) := by
  obtain ⟨q, hq, rfl⟩ := List.mem_map.mp (splitTopLevel_subset sep s h)
  have hs := splitFrom_eq sep .code 0 s
  have hhead (qs : List Text) : ∀ c ∈ (qs.flatMap (sep :: ·)).head?, c = sep := by
    cases qs <;> simp
  generalize splitFrom sep .code 0 s = r at hs hq
  rcases List.mem_cons.mp hq with rfl | hq
  · exact ⟨[], r.1, _, hs, rfl, by simp, hhead r.2⟩
  · obtain ⟨l, l', hl⟩ := List.append_of_mem hq
    refine ⟨r.1 ++ l.flatMap (sep :: ·) ++ [sep], q, l'.flatMap (sep :: ·), ?_, rfl, by simp, hhead l'⟩
    rw [hs, hl]
    simp

/-! ### Pieces without quotes and brackets -/

/-- A piece runs up to the first separator if it has neither quotes nor brackets. -/
theorem splitFrom_append {sep : Char} {p : Text} (hp : ∀ c ∈ p, isQuote c = false ∧ bracketWeight c = 0)
    (hsep : sep ∉ p) (s : Text) :
    splitFrom sep .code 0 (p ++ s) = (p ++ (splitFrom sep .code 0 s).1, (splitFrom sep .code 0 s).2) := by
  induction p with
  | nil => rfl
  | cons c p ih =>
    obtain ⟨hc, hp⟩ := List.forall_mem_cons.mp hp
    rw [List.mem_cons, not_or] at hsep
    have hne : (c == sep) = false := by simpa using Ne.symm hsep.1
    rw [List.cons_append, splitFrom]
    simp only [Mode.weight, Mode.role, Mode.next, hc.1, hc.2, hne, Bool.and_false, Bool.false_and,
      Bool.false_eq_true, ite_self, if_false, Int.add_zero]
    rw [ih hp hsep.2]
    rfl

theorem splitFrom_separator {sep : Char} (hsep : isQuote sep = false ∧ bracketWeight sep = 0) (s : Text) :
    splitFrom sep .code 0 (sep :: s) = ([], (splitFrom sep .code 0 s).1 :: (splitFrom sep .code 0 s).2) := by
  simp [splitFrom, Mode.role, hsep.1, hsep.2]

theorem splitFrom_of_plain {sep : Char} {p : Text} (hp : ∀ c ∈ p, isQuote c = false ∧ bracketWeight c = 0)
    (hsep : sep ∉ p) : splitFrom sep .code 0 p = (p, []) := by
  simpa [splitFrom] using splitFrom_append hp hsep []

end Pseudocode.Text
