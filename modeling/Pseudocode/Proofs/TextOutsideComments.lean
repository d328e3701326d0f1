import Pseudocode.Proofs.LineReading

/-! # Text outside comments

What the reader of a braced source keeps is compared with the text that stands outside comments. The reader
knows no comment block that begins after code, and of the last line of a comment block it keeps nothing. So
text is lost that follows the end of a comment block which began a line, and text that follows a comment
block with a quote or a comment marker in it. All other text outside comments reaches the code lines. -/

namespace Pseudocode

open Text
open scoped List

namespace Text

/-! ### Comments of a braced source -/

/-- The characters of a line outside comments, and whether a comment block is open after it. A block that is open
before is written `none`. -/
def uncommentedFrom : Option Mode → Text → Text × Bool
  | m, [] => ([], m.isNone)
  | none, '*' :: '/' :: cs => uncommentedFrom (some .code) cs
  | none, _ :: cs => uncommentedFrom none cs
  | some .code, '/' :: '/' :: _ => ([], false)
  | some .code, '/' :: '*' :: cs => uncommentedFrom none cs
  | some m, c :: cs =>
    let r := uncommentedFrom (some (m.next c)) cs
    (c :: r.1, r.2)

def uncommented (commented : Bool) (raw : Text) : Text × Bool :=
  uncommentedFrom (if commented then none else some .code) raw

/-- The text outside comments of physical lines. -/
def uncommentedLines : Bool → List Text → Text
  | _, [] => []
  | commented, raw :: rest => (uncommented commented raw).1 ++ uncommentedLines (uncommented commented raw).2 rest

/-- A comment block with a quote or a comment marker in it, or a slash right after it, is followed by no more text
on its line. -/
def plainBlocksFrom : Option Mode → Text → Bool
  | _, [] => true
  | none, '*' :: '/' :: cs =>
    if cs.head? = some '/' then solid (uncommentedFrom (some .code) cs).1 = [] else plainBlocksFrom (some .code) cs
  | none, c :: cs =>
    if isQuote c || (c = '/' && cs.head? = some '/') then solid (uncommentedFrom none cs).1 = []
    else plainBlocksFrom none cs
  | some .code, '/' :: '/' :: _ => true
  | some .code, '/' :: '*' :: cs => plainBlocksFrom none cs
  | some m, c :: cs => plainBlocksFrom (some (m.next c)) cs

def plainBlocks (commented : Bool) (raw : Text) : Bool :=
  plainBlocksFrom (if commented then none else some .code) raw

/-- The code before a comment, or all of the text. -/
def codeFrom (m : Mode) (s : Text) : Text := ((commentFrom "//" m s).map Prod.fst).getD s

private theorem codeFrom_cons {m : Mode} {c : Char} {s : Text}
    (h : m.role c = .code → c = '/' → s.head? ≠ some '/') : codeFrom m (c :: s) = c :: codeFrom (m.next c) s := by
  have hnot : ¬ (m.role c = .code && ("//" : Text).isPrefixOf (c :: s)) = true := by
    intro hfound
    obtain ⟨hrole, hslashes⟩ := Bool.and_eq_true_iff.mp hfound
    obtain ⟨rest, hrest⟩ := List.isPrefixOf_iff_prefix.mp hslashes
    obtain ⟨rfl, rfl⟩ := List.cons.inj hrest
    exact h (by simpa using hrole) rfl rfl
  rw [codeFrom, commentFrom, if_neg hnot, codeFrom]
  cases commentFrom "//" (m.next c) s <;> rfl

theorem solid_splitComment (s : Text) : solid (splitComment "//" s).1 = solid (codeFrom .code s) := by
  unfold splitComment codeFrom
  cases commentFrom "//" .code s <;> simp

theorem solid_uncommentedFrom_sublist {m : Option Mode} {s : Text} (h : plainBlocksFrom m s = true) :
    solid (uncommentedFrom m s).1 <+ solid (codeFrom (m.getD .code) s) := by
  have hskip (s t : Text) : solid s <+ solid (t ++ s) := by
    rw [solid_append]
    exact List.sublist_append_right _ _
  fun_induction plainBlocksFrom m s with
  | case1 => simp [uncommentedFrom]
  | case2 cs hslash =>
    have hnil : solid (uncommentedFrom (some .code) cs).1 = [] := by simpa using h
    simp [uncommentedFrom, hnil]
  | case3 cs hslash ih =>
    have hcode : codeFrom .code ('*' :: '/' :: cs) = "*/" ++ codeFrom .code cs := by
      rw [codeFrom_cons (by simp), codeFrom_cons fun _ _ => hslash]
      rfl
    rw [uncommentedFrom, Option.getD_none, hcode]
    exact (ih h).trans (hskip _ _)
  | case4 c cs hend hmark =>
    have hnil : solid (uncommentedFrom none cs).1 = [] := by simpa using h
    rw [uncommentedFrom, hnil]
    · exact List.nil_sublist _
    · exact hend
  | case5 c cs hend hmark ih =>
    obtain ⟨hquote, hslash⟩ : isQuote c = false ∧ (c = '/' → cs.head? ≠ some '/') := by simpa using hmark
    have hcode : codeFrom .code (c :: cs) = [c] ++ codeFrom .code cs := by
      rw [codeFrom_cons fun _ => hslash]
      simp [Mode.next, hquote]
    rw [uncommentedFrom, Option.getD_none, hcode]
    · exact (ih h).trans (hskip _ _)
    · exact hend
  | case6 => simp [uncommentedFrom]
  | case7 cs ih =>
    have hcode : codeFrom .code ('/' :: '*' :: cs) = "/*" ++ codeFrom .code cs := by
      rw [codeFrom_cons (by simp), codeFrom_cons (by simp)]
      rfl
    rw [uncommentedFrom, Option.getD_some, hcode]
    exact (ih h).trans (hskip _ _)
  | case8 m c cs hline hblock ih =>
    rw [uncommentedFrom, Option.getD_some, codeFrom_cons]
    · have hcons := List.Sublist.append_left (ih h) (solid [c])
      rwa [← solid_append, ← solid_append] at hcons
    · intro hrole hc hslash
      obtain ⟨rest, rfl⟩ := List.head?_eq_some_iff.mp hslash
      exact hline rest (eq_code_of_role hrole) hc rfl
    · exact hline
    · exact hblock

theorem uncommentedFrom_of_unclosed {s : Text} (h : ¬ "*/".toList <:+: s) : uncommentedFrom none s = ([], true) := by
  induction s with
  | nil => rfl
  | cons c s ih =>
    rw [List.infix_cons_iff, not_or] at h
    rw [uncommentedFrom, ih h.2]
    rintro rest rfl rfl
    exact h.1 ⟨rest, rfl⟩

theorem uncommentedFrom_blanks_append {b : Text} (hb : ∀ c ∈ b, isBlank c = true) (s : Text) :
    uncommentedFrom (some .code) (b ++ s) =
      (b ++ (uncommentedFrom (some .code) s).1, (uncommentedFrom (some .code) s).2) := by
  induction b with
  | nil => rfl
  | cons c b ih =>
    obtain ⟨hc, hb⟩ := List.forall_mem_cons.mp hb
    have hslash : c ≠ '/' := by
      rintro rfl
      cases hc
    rw [List.cons_append, uncommentedFrom, show Mode.code.next c = .code by simp [Mode.next, isQuote_of_isBlank hc],
      ih hb]
    · rfl
    · exact fun _ _ h => absurd h hslash
    · exact fun _ _ h => absurd h hslash

end Text

namespace Line

/-! ### Lines on which no text is lost -/

/-- Whether the reader keeps the text outside comments on a line. On a line of a comment block there must be
none; a block that began after code, which the reader takes for code, must not seem to begin again. -/
def Reading.follows : Reading → Bool → Text → Bool
  | .inBlock _, commented, raw => solid (uncommented commented raw).1 = []
  | .joining _, commented, raw => plainBlocks commented raw
  | .ready, commented, raw =>
    if startsWith "/*" (trim raw) then
      solid (uncommented commented raw).1 = [] && !(commented && startsWith "/*/" (trim raw))
    else plainBlocks commented raw

/-- Whether it does on all lines. -/
def followsFrom : Reading → Bool → Nat → List Text → Bool
  | _, _, _, [] => true
  | reading, commented, number, raw :: rest =>
    reading.follows commented raw &&
      followsFrom (reading.step .braces number raw).2 (uncommented commented raw).2 (number + 1) rest

namespace Reading

theorem solid_uncommented_sublist_kept {reading : Reading} {commented : Bool} {raw : Text}
    (h : reading.follows commented raw = true) : solid (uncommented commented raw).1 <+ solid (reading.kept raw) := by
  have hcode (hplain : plainBlocks commented raw = true) :
      solid (uncommented commented raw).1 <+ solid (splitComment "//" raw).1 := by
    rw [solid_splitComment]
    have hsublist := solid_uncommentedFrom_sublist hplain
    cases commented <;> exact hsublist
  cases reading with
  | inBlock closing =>
    have hnil : solid (uncommented commented raw).1 = [] := by simpa [follows] using h
    simp [hnil]
  | joining j => exact hcode h
  | ready =>
    rw [follows] at h
    rw [kept, takesBlock]
    split at h
    · have hnil : solid (uncommented commented raw).1 = [] := by simpa using (Bool.and_eq_true_iff.mp h).1
      simp [hnil]
    · next hblock =>
      rw [if_neg hblock]
      exact hcode h

/-- The reader is inside a comment block only where there is one. -/
def Within : Reading → Bool → Prop
  | .inBlock _, commented => commented = true
  | _, _ => True

private theorem within_settle (j : Joining) (commented : Bool) : (step.settle j).2.Within commented := by
  unfold step.settle
  split <;> trivial

private theorem commented_of_block {raw rest : Text} (hraw : trim raw = "/*" ++ rest) (hend : ¬ "*/".toList <:+: rest)
    {commented : Bool} (hagain : commented = true → rest.head? ≠ some '/') :
    (uncommented commented raw).2 = true := by
  cases commented with
  | true =>
    have hraw : ¬ "*/".toList <:+: raw := by
      rw [← infix_trim_iff (by decide) (not_blank_of_all (by decide)), hraw]
      intro hinfix
      rcases List.infix_cons_iff.mp hinfix with ⟨t, ht⟩ | hinfix
      · cases ht
      rcases List.infix_cons_iff.mp hinfix with ⟨t, ht⟩ | hinfix
      · obtain rfl := (List.cons.inj ht).2
        exact hagain rfl rfl
      · exact hend hinfix
    exact congrArg Prod.snd (uncommentedFrom_of_unclosed hraw)
  | false =>
    obtain ⟨b₁, b₂, heq, hb₁, hb₂⟩ := exists_trim raw
    have hrest : ¬ "*/".toList <:+: rest ++ b₂ := by
      rwa [infix_append_blanks_iff (by decide) (not_blank_of_all (by decide)) hb₂]
    have hcomment : uncommentedFrom (some .code) (trim raw ++ b₂) = uncommentedFrom none (rest ++ b₂) := by
      rw [hraw]
      rfl
    have hsome : uncommented false raw = uncommentedFrom (some .code) raw := rfl
    rw [hsome, heq, uncommentedFrom_blanks_append hb₁, hcomment, uncommentedFrom_of_unclosed hrest]

private theorem within_step {reading : Reading} {commented : Bool} {raw : Text} (hbraced : reading.Braced)
    (hwithin : reading.Within commented) (h : reading.follows commented raw = true) (number : Nat) :
    (reading.step .braces number raw).2.Within (uncommented commented raw).2 := by
  cases reading with
  | inBlock closing =>
    obtain rfl : closing = "*/" := hbraced
    obtain rfl : commented = true := hwithin
    rw [step]
    split
    · trivial
    · next hnone =>
      have hend : ¬ "*/".toList <:+: raw := by
        rw [← infix_trim_iff (by decide) (not_blank_of_all (by decide))]
        exact (splitAt?_eq_none_iff (by decide)).mp hnone
      exact congrArg Prod.snd (uncommentedFrom_of_unclosed hend)
  | joining j => exact within_settle _ _
  | ready =>
    by_cases hblock : startsWith "/*" (trim raw) = true
    · obtain ⟨rest, hrest⟩ := List.isPrefixOf_iff_prefix.mp hblock
      rw [step_block hrest.symm]
      cases hsplit : splitAt? "*/" rest with
      | some r => trivial
      | none =>
        have hend := (splitAt?_eq_none_iff (by decide)).mp hsplit
        refine commented_of_block hrest.symm hend fun hcommented hslash => ?_
        obtain ⟨t, rfl⟩ := List.head?_eq_some_iff.mp hslash
        have hagain : startsWith "/*/" (trim raw) = true := List.isPrefixOf_iff_prefix.mpr ⟨t, hrest⟩
        rw [follows, if_pos hblock, hcommented, hagain, Bool.and_true, Bool.not_true, Bool.and_false] at h
        cases h
    · -- no other line leads into a comment block
      simp only [step, Convention.commentBlock?, if_neg hblock]
      split
      · trivial
      · split
        · trivial
        · exact within_settle _ _

end Reading

private theorem solid_uncommentedLines_sublist {reading : Reading} {commented : Bool} {number : Nat}
    {lines : List Text}
    (hbraced : reading.Braced) (hwithin : reading.Within commented)
    (h : followsFrom reading commented number lines = true) :
    solid (uncommentedLines commented lines) <+ solid (keptFrom reading number lines) := by
  induction lines generalizing reading commented number with
  | nil => exact List.nil_sublist _
  | cons raw rest ih =>
    obtain ⟨hraw, hrest⟩ := Bool.and_eq_true_iff.mp h
    rw [uncommentedLines, keptFrom, solid_append, solid_append]
    exact (Reading.solid_uncommented_sublist_kept hraw).append
      (ih (Reading.accounts_step hbraced number raw).braced (Reading.within_step hbraced hwithin hraw number) hrest)

/-- White space apart, the code of a braced source is what the reader keeps, line by line: nothing of a comment
block up to the end of its last line, and of any other line what stands before the first `//` that is not
quoted. All text outside comments is kept if on lines of comment blocks there is none, and if no comment block
before more text has a quote or a comment marker in it. -/
theorem text_outside_comments_kept (source : Text) :
    solid (codes (ofSource .braces source)) = solid (keptFrom .ready 1 (physicalLines source)) ∧
    (followsFrom .ready false 1 (physicalLines source) = true →
      solid (uncommentedLines false (physicalLines source)) <+ solid (codes (ofSource .braces source))) := by
  have hbraced : Reading.ready.Braced := trivial
  have hwithin : Reading.ready.Within false := trivial
  refine ⟨solid_codes_ofSource source, fun h => ?_⟩
  rw [solid_codes_ofSource]
  exact solid_uncommentedLines_sublist hbraced hwithin h

/-- Comment blocks before, between and after code, with a quote and a comment marker in the last one. -/
theorem text_outside_comments_kept_shapes :
    let source : Text := "/* Shapes\n * of a kind */ // all\nclass A\n\x7b\n  f(1, /* second */ 2); // \"done\"\n" ++
      "  g(\"/*\",\n    /* last */ b);\n  y = 3; /* don't\n // care */\n\x7d"
    followsFrom .ready false 1 (physicalLines source) = true ∧
      solid (uncommentedLines false (physicalLines source)) = "classA\x7bf(1,2);g(\"/*\",b);y=3;\x7d".toList ∧
      solid (uncommentedLines false (physicalLines source)) <+ solid (codes (ofSource .braces source)) := by
  intro source
  have hfollows : followsFrom .ready false 1 (physicalLines source) = true := by decide +kernel
  exact ⟨hfollows, by decide +kernel, (text_outside_comments_kept source).2 hfollows⟩

/-- Code after a comment block that began the line. -/
theorem code_after_comment_block_lost :
    let source : Text := "/* a */ x = 1;"
    solid (uncommentedLines false (physicalLines source)) = "x=1;".toList ∧
      ofSource .braces source = [⟨1, .comment, [], 0, [], some "a".toList⟩] := by
  decide +kernel

end Line

end Pseudocode
