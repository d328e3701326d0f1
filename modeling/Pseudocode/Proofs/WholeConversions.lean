import Pseudocode.Proofs.BracketReading

/-! # Conversions that are whole operands

Where a sum becomes a concatenation, a conversion is dropped from an operand that begins with it and ends with a
parenthesis. The brackets stay nested if this is the parenthesis of the conversion. Reading an expression operand by
operand tells this, and what is read stays the same when subscripts are rewritten. -/

namespace Pseudocode

open Text Pattern

/-- How far an operand of a sum has been read: to its first word, into a conversion, to the end of a conversion, or
past all this. -/
inductive Progress where
  | start
  | word (w : Text)
  | inside
  | whole
  | other
  deriving DecidableEq

/-- The progress after one more character outside brackets. Nothing but white space may follow a conversion in its
operand, and a sum may be refused. -/
def Progress.next (sums : Bool) (p : Progress) (x : Char × Role) : Option Progress :=
  if x = ('+', .code) then if sums then some .start else none
  else match p with
    | .start => some (if x.2 = .code ∧ isBlank x.1 then .start
        else if x.2 = .code ∧ isWordChar x.1 then .word [x.1] else .other)
    | .word w => some (if x.2 = .code ∧ isWordChar x.1 then .word (w ++ [x.1])
        else if x = ('(', .code) ∧ w = "str" then .inside else .other)
    | .whole => if x.2 = .code ∧ isBlank x.1 then some .whole else none
    | .inside => none
    | .other => some .other

/-- Notes the brackets that are due and how far the operand has been read. -/
def noteOperand (sums : Bool) (a : Text × Progress) (x : Char × Role) : Option (Text × Progress) :=
  (noteBracket a.1 x).bind fun due =>
    if a.1 = [] then (a.2.next sums x).map (due, ·)
    else some (due, if due = [] ∧ a.2 = .inside then .whole else a.2)

/-- Every operand of a sum that begins with a conversion is the whole of it. -/
def ConvertsWhole (s : Text) : Prop := (read (noteOperand true) .code ([], .start) s).isSome = true

instance (s : Text) : Decidable (ConvertsWhole s) := inferInstanceAs (Decidable (_ = _))

namespace Text

variable {sums : Bool} {m : Mode} {due due' s : Text} {p p' : Progress}

theorem noteOperand_eq_some {a b : Text × Progress} {x : Char × Role} : noteOperand sums a x = some b ↔
    noteBracket a.1 x = some b.1 ∧
      if a.1 = [] then a.2.next sums x = some b.2
      else b.2 = if b.1 = [] ∧ a.2 = .inside then .whole else a.2 := by
  obtain ⟨due, p⟩ := a
  obtain ⟨due', p'⟩ := b
  unfold noteOperand
  cases hdue : noteBracket due x with
  | none => simp
  | some due₁ =>
    by_cases hnil : due = []
    · simp [hnil, and_comm]
    · simp only [hnil, if_false, Option.bind_some, Option.some.injEq, Prod.mk.injEq]
      constructor
      · rintro ⟨rfl, rfl⟩
        exact ⟨rfl, rfl⟩
      · rintro ⟨rfl, rfl⟩
        exact ⟨rfl, rfl⟩

/-- What is due is read as before. -/
theorem read_due (h : read (noteOperand sums) m (due, p) s = some (due', p')) :
    read noteBracket m due s = some due' := by
  induction s generalizing m due p with
  | nil =>
    obtain ⟨rfl, -⟩ := Prod.mk.inj (Option.some.inj h)
    rfl
  | cons c s ih =>
    obtain ⟨⟨due₁, p₁⟩, hc, hs⟩ := read_cons_eq_some.mp h
    exact read_cons_eq_some.mpr ⟨due₁, (noteOperand_eq_some.mp hc).1, ih hs⟩

theorem read_above (sums : Bool) {base : Text} (hbase : base ≠ []) (h : read noteBracket m due s = some due') :
    read (noteOperand sums) m (due ++ base, p) s = some (due' ++ base, p) := by
  induction s generalizing m due with
  | nil =>
    obtain rfl := Option.some.inj h
    rfl
  | cons c s ih =>
    obtain ⟨due₁, hc, hs⟩ := read_cons_eq_some.mp h
    refine read_cons_eq_some.mpr ⟨(due₁ ++ base, p), noteOperand_eq_some.mpr ⟨?_, ?_⟩, ih hs⟩
    · exact noteBracket_append_due hc base
    · simp [hbase]

/-- A character that is no bracket. -/
theorem noteOperand_plain {c : Char} (hc : bracketWeight c = 0) :
    noteOperand sums ([], p) (c, .code) = (p.next sums (c, .code)).map ([], ·) := by
  simp [noteOperand, noteBracket, dueAfter_of_plain hc]

theorem next_of_isWordChar {c : Char} (hc : isWordChar c = true) :
    Progress.start.next sums (c, .code) = some (.word [c]) ∧
      (∀ w, (Progress.word w).next sums (c, .code) = some (.word (w ++ [c]))) ∧
      Progress.other.next sums (c, .code) = some .other ∧ Progress.whole.next sums (c, .code) = none := by
  have hplus : c ≠ '+' := by
    rintro rfl
    exact absurd hc (by decide)
  have hblank : isBlank c = false := by
    by_contra hb
    simp [isWordChar_of_isBlank (by simpa using hb)] at hc
  simp [Progress.next, hplus, hblank, hc]

theorem read_cons_word {c : Char} (hc : isWordChar c = true) (p : Progress) (s : Text) :
    read (noteOperand sums) .code ([], p) (c :: s) =
      (p.next sums (c, .code)).bind fun p => read (noteOperand sums) .code ([], p) s := by
  obtain ⟨hquote, hweight⟩ := plain_of_isWordChar hc
  rw [read_cons_code hquote, noteOperand_plain hweight]
  cases p.next sums (c, .code) <;> rfl

theorem read_other_word {w : Text} (hw : ∀ c ∈ w, isWordChar c = true) :
    read (noteOperand sums) .code ([], .other) w = some ([], .other) := by
  induction w with
  | nil => rfl
  | cons c w ih =>
    obtain ⟨hc, hw⟩ := List.forall_mem_cons.mp hw
    rw [read_cons_word hc, (next_of_isWordChar hc).2.2.1, Option.bind_some, ih hw]

theorem read_operand_word (sums : Bool) {w : Text} (hne : w ≠ []) (hw : ∀ c ∈ w, isWordChar c = true)
    (hp : p = .start ∨ p = .other) : ∃ p', (p' = .word w ∨ p' = .other) ∧
      read (noteOperand sums) .code ([], p) w = some ([], p') := by
  have hword (v w : Text) (hw : ∀ c ∈ w, isWordChar c = true) :
      read (noteOperand sums) .code ([], .word v) w = some ([], .word (v ++ w)) := by
    induction w generalizing v with
    | nil => simp
    | cons c w ih =>
      obtain ⟨hc, hw⟩ := List.forall_mem_cons.mp hw
      rw [read_cons_word hc, (next_of_isWordChar hc).2.1, Option.bind_some, ih _ hw, List.append_assoc]
      rfl
  rcases hp with rfl | rfl
  · obtain ⟨c, w, rfl⟩ := List.exists_cons_of_ne_nil hne
    obtain ⟨hc, hw⟩ := List.forall_mem_cons.mp hw
    refine ⟨.word (c :: w), .inl rfl, ?_⟩
    rw [read_cons_word hc, (next_of_isWordChar hc).1, Option.bind_some, hword _ w hw]
    rfl
  · exact ⟨.other, .inr rfl, read_other_word hw⟩

/-- A word with brackets after it that is no conversion. -/
theorem read_operand_enclosed (sums : Bool) {w x : Text} {b d : Char} (hp : p = .start ∨ p = .other) (hne : w ≠ [])
    (hw : ∀ c ∈ w, isWordChar c = true) (hbd : b = '[' ∧ d = ']' ∨ b = '(' ∧ d = ')' ∧ w ≠ "str".toList)
    (hx : read noteBracket .code [] x = some []) (hclosed : Mode.code.after x = .code) :
    read (noteOperand sums) .code ([], p) (w ++ b :: (x ++ [d])) = some ([], .other) := by
  obtain ⟨p', hp', hread⟩ := read_operand_word sums hne hw hp
  have hquotes : isQuote b = false ∧ isQuote d = false := by
    rcases hbd with ⟨rfl, rfl⟩ | ⟨rfl, rfl, _⟩ <;> decide
  have hopen : noteOperand sums ([], p') (b, .code) = some ([d], .other) := by
    refine noteOperand_eq_some.mpr ⟨?_, ?_⟩
    · rcases hbd with ⟨rfl, rfl⟩ | ⟨rfl, rfl, _⟩ <;> rfl
    · rcases hbd with ⟨rfl, rfl⟩ | ⟨rfl, rfl, hstr⟩
      · rcases hp' with rfl | rfl <;> simp [Progress.next, show isWordChar '[' = false by decide]
      · rcases hp' with rfl | rfl
        · have hne : w ≠ ['s', 't', 'r'] := hstr
          simp [Progress.next, show isWordChar '(' = false by decide, hne]
        · simp [Progress.next]
  have hclose : noteOperand sums ([d], .other) (d, .code) = some ([], .other) := by
    refine noteOperand_eq_some.mpr ⟨?_, by simp⟩
    rcases hbd with ⟨rfl, rfl⟩ | ⟨rfl, rfl, _⟩ <;> rfl
  have hinside := read_above sums (p := .other) (List.cons_ne_nil d []) hx
  rw [List.nil_append] at hinside
  rw [read_append, hread, Option.bind_some, after_of_word hw, read_cons_code hquotes.1, hopen, Option.bind_some,
    read_append, hinside, Option.bind_some, hclosed, read_singleton, (code_of_no_quote hquotes.2).1, hclose]

theorem read_operand_field {w n : Text} (hp : p = .start ∨ p = .other) (hne : w ≠ [])
    (hw : ∀ c ∈ w, isWordChar c = true) (hn : ∀ c ∈ n, isWordChar c = true) :
    read (noteOperand sums) .code ([], p) (w ++ '.' :: n) = some ([], .other) := by
  obtain ⟨p', hp', hread⟩ := read_operand_word sums hne hw hp
  have hdot : noteOperand sums ([], p') ('.', .code) = some ([], .other) := by
    rw [noteOperand_plain (by decide)]
    rcases hp' with rfl | rfl <;> simp [Progress.next, show isWordChar '.' = false by decide]
  rw [read_append, hread, Option.bind_some, after_of_word hw, read_cons_code (by decide), hdot, Option.bind_some,
    read_other_word hn]

private theorem next_eq_word {x : Char × Role} {w : Text} (h : p.next sums x = some (.word w)) :
    x.2 = .code ∧ isWordChar x.1 = true := by
  unfold Progress.next at h
  split_ifs at h <;> cases p <;> simp_all [ite_eq_iff]

private theorem next_eq_inside {x : Char × Role} (h : p.next sums x = some .inside) : x = ('(', .code) := by
  unfold Progress.next at h
  split_ifs at h <;> cases p <;> simp_all

private theorem progress_of_read {u : Text} (h : read (noteOperand sums) .code ([], .start) u = some (due, p)) :
    (∀ w, p = .word w → due = [] ∧ u.reverse.head?.any isWordChar = true) ∧ (p = .inside → due ≠ []) := by
  induction u using List.reverseRecOn generalizing due p with
  | nil =>
    obtain ⟨rfl, rfl⟩ := Prod.mk.inj (Option.some.inj h)
    simp
  | append_singleton u c ih =>
    obtain ⟨⟨due₀, p₀⟩, hu, hnote⟩ := read_append_eq_some.mp h
    rw [read_singleton] at hnote
    obtain ⟨hdue, hnext⟩ := noteOperand_eq_some.mp hnote
    obtain ⟨hword, hinside⟩ := ih hu
    dsimp only at hdue hnext
    split at hnext
    · next hnil =>
      subst hnil
      refine ⟨fun w hw => ?_, fun hp => ?_⟩
      · obtain ⟨hrole, hc⟩ := next_eq_word (hnext.trans (congrArg some hw))
        rw [show (Mode.code.after u).role c = .code from hrole, noteBracket, if_pos rfl,
          dueAfter_of_plain (plain_of_isWordChar hc).2] at hdue
        exact ⟨(Option.some.inj hdue).symm, by simpa using hc⟩
      · rw [next_eq_inside (hnext.trans (congrArg some hp))] at hdue
        rw [← Option.some.inj hdue]
        exact List.cons_ne_nil _ _
    · next hne =>
      rw [hnext]
      split
      · simp
      · next hnot => exact ⟨fun w hw => absurd (hword w hw).1 hne, fun hp hdue => hnot ⟨hdue, hp⟩⟩

/-- Another part of an operand may come in the place of a subscript. -/
theorem keeps_operand_subscript {u w x t : Text} {a : Text × Progress}
    (hu : read (noteOperand sums) .code ([], .start) u = some a) (hfree : u.reverse.head?.any isWordChar = false)
    (hne : w ≠ []) (hw : ∀ c ∈ w, isWordChar c = true) (hx : read noteBracket .code [] x = some [])
    (hclosed : Mode.code.after x = .code)
    (ht : ∀ p, p = .start ∨ p = .other → read (noteOperand sums) .code ([], p) t = some ([], .other))
    (hafter : Mode.code.after t = .code) : Keeps (noteOperand sums) .code a (w ++ '[' :: (x ++ [']'])) t := by
  obtain ⟨due, p⟩ := a
  obtain ⟨hword, hinside⟩ := progress_of_read hu
  have hsubscript {p : Progress} (hp : p = .start ∨ p = .other) :=
    read_operand_enclosed sums hp hne hw (.inl ⟨rfl, rfl⟩) hx hclosed
  intro b hb
  refine ⟨?_, hafter.trans (after_subscript hw hclosed).symm⟩
  by_cases hdue : due = []
  · subst hdue
    have hcases : p = .start ∨ p = .other := by
      cases p with
      | start => exact .inl rfl
      | word v => exact absurd hfree (by rw [(hword v rfl).2]; simp)
      | inside => exact absurd rfl (hinside rfl)
      | whole =>
        obtain ⟨c, w, rfl⟩ := List.exists_cons_of_ne_nil hne
        have hc := hw c List.mem_cons_self
        rw [List.cons_append, read_cons_word hc, (next_of_isWordChar hc).2.2.2] at hb
        cases hb
      | other => exact .inr rfl
    rw [ht p hcases, ← hb, hsubscript hcases]
  · have habove := read_above sums (p := p) hdue (read_due (hsubscript (.inl rfl)))
    rw [List.nil_append] at habove
    rw [← hb, habove]
    exact read_above sums hdue (read_due (ht .start (.inl rfl)))

/-! ### Operands -/

private theorem length_of_noteBracket {c : Char} (h : noteBracket due (c, m.role c) = some due') :
    (due'.length : Int) = due.length + m.weight c := by
  unfold noteBracket at h
  split at h
  · next hcode =>
    rw [Mode.weight, if_pos hcode]
    exact length_dueAfter h
  · next hcode =>
    obtain rfl := Option.some.inj h
    rw [Mode.weight, if_neg hcode, Int.add_zero]

theorem read_splitFrom (h : read (noteOperand true) m (due, p) s = some ([], p')) :
    (∃ p₁, read (noteOperand false) m (due, p) (splitFrom '+' m due.length s).1 = some ([], p₁)) ∧
      ∀ q ∈ (splitFrom '+' m due.length s).2, ∃ p₁, read (noteOperand false) .code ([], .start) q = some ([], p₁) := by
  induction s generalizing m due p with
  | nil => exact ⟨⟨p', h⟩, by simp [splitFrom]⟩
  | cons c s ih =>
    obtain ⟨⟨due₁, p₁⟩, hc, hs⟩ := read_cons_eq_some.mp h
    obtain ⟨hdue, hnext⟩ := noteOperand_eq_some.mp hc
    rw [splitFrom]
    split
    · next hsplit =>
      simp only [Bool.and_eq_true, decide_eq_true_eq, beq_iff_eq, Int.natCast_eq_zero,
        List.length_eq_zero_iff] at hsplit
      obtain ⟨⟨⟨hrole, _⟩, rfl⟩, rfl⟩ := hsplit
      obtain rfl := eq_code_of_role hrole
      obtain rfl : [] = due₁ := Option.some.inj hdue
      obtain rfl : .start = p₁ := Option.some.inj hnext
      obtain ⟨hfirst, hrest⟩ := ih hs
      exact ⟨⟨p, rfl⟩, List.forall_mem_cons.mpr ⟨hfirst, hrest⟩⟩
    · next hsplit =>
      rw [← length_of_noteBracket hdue]
      obtain ⟨⟨p₂, hfirst⟩, hrest⟩ := ih hs
      refine ⟨⟨p₂, ?_⟩, hrest⟩
      have hsame : noteOperand false (due, p) (c, m.role c) = some (due₁, p₁) := by
        refine noteOperand_eq_some.mpr ⟨hdue, ?_⟩
        dsimp only at hnext ⊢
        split at hnext
        · next hnil =>
          have hplus : (c, m.role c) ≠ ('+', .code) := by
            intro heq
            obtain ⟨rfl, hrole⟩ := Prod.mk.inj heq
            exact hsplit (by simp [hrole, hnil, bracketWeight])
          rw [if_pos hnil]
          simpa only [Progress.next, if_neg hplus] using hnext
        · next hne =>
          rw [if_neg hne]
          exact hnext
      rw [read_cons, hsame]
      exact hfirst

private theorem not_read_whole {c : Char} (hc : isBlank c = false) (s : Text) (b : Text × Progress) :
    read (noteOperand false) .code ([], .whole) (s ++ [c]) ≠ some b := by
  have hstep {e : Char} {s : Text} (h : read (noteOperand false) .code ([], .whole) (e :: s) = some b) :
      isBlank e = true ∧ read (noteOperand false) .code ([], .whole) s = some b := by
    obtain ⟨⟨due, p⟩, he, hs⟩ := read_cons_eq_some.mp h
    obtain ⟨hdue, hnext⟩ := noteOperand_eq_some.mp he
    have hblank : Mode.code.role e = .code ∧ isBlank e = true ∧ .whole = p := by
      unfold Progress.next at hnext
      simp_all
    obtain ⟨hrole, hblank, rfl⟩ := hblank
    rw [hrole, noteBracket, if_pos rfl, dueAfter_of_plain (bracketWeight_of_isBlank hblank)] at hdue
    obtain rfl : [] = due := Option.some.inj hdue
    rw [(code_of_no_quote (isQuote_of_isBlank hblank)).2] at hs
    exact ⟨hblank, hs⟩
  intro h
  induction s with
  | nil => simp [(hstep h).1] at hc
  | cons e s ih => exact ih (hstep h).2

private theorem exists_noteBracket {ω : Text} {e : Char} {x : Char × Role} (h : noteBracket (ω ++ [e]) x = some due)
    (hne : due ≠ []) : ∃ ω', due = ω' ++ [e] ∧ noteBracket ω x = some ω' := by
  unfold noteBracket at h ⊢
  split at h
  · next hcode =>
    simp only [if_pos hcode]
    rcases dueAfter_cases h with ⟨d, hd, rfl, _⟩ | ⟨hpop, hall⟩ | ⟨rfl, hskip⟩
    · exact ⟨d :: ω, rfl, hd ω⟩
    · cases ω with
      | nil => exact absurd (List.cons.inj hpop).2.symm hne
      | cons d ω =>
        obtain ⟨rfl, rfl⟩ := List.cons.inj hpop
        exact ⟨ω, rfl, hall ω⟩
    · exact ⟨ω, rfl, hskip ω⟩
  · next hcode =>
    obtain rfl := Option.some.inj h
    exact ⟨ω, rfl, if_neg hcode⟩

private theorem eq_nil_of_noteBracket {ω : Text} {c : Char} (h : noteBracket (ω ++ [')']) (c, m.role c) = some []) :
    ω = [] ∧ m.role c = .code ∧ isQuote c = false := by
  unfold noteBracket at h
  split at h
  · next hcode =>
    rcases dueAfter_cases h with ⟨d, _, hpush, _⟩ | ⟨hpop, _⟩ | ⟨hskip, _⟩
    · cases hpush
    · obtain ⟨rfl, hparen⟩ : ω = [] ∧ ')' = c := by simpa [List.append_eq_cons_iff] using hpop
      exact ⟨rfl, hcode, hparen ▸ by decide⟩
    · simp at hskip
  · simp at h

private theorem read_argument {ω : Text}
    (h : read (noteOperand false) m (ω ++ [')'], .inside) (s ++ [')']) = some ([], p)) :
    read noteBracket m ω s = some [] ∧ m.after s = .code := by
  induction s generalizing m ω with
  | nil =>
    rw [List.nil_append, read_singleton] at h
    obtain ⟨rfl, hrole, _⟩ := eq_nil_of_noteBracket (noteOperand_eq_some.mp h).1
    exact ⟨rfl, eq_code_of_role hrole⟩
  | cons c s ih =>
    rw [List.cons_append] at h
    obtain ⟨⟨due₁, p₁⟩, hc, hs⟩ := read_cons_eq_some.mp h
    obtain ⟨hdue, hnext⟩ := noteOperand_eq_some.mp hc
    rw [if_neg (by simp)] at hnext
    dsimp only at hdue hnext
    by_cases hnil : due₁ = []
    · subst hnil
      obtain ⟨rfl, hrole, hquote⟩ := eq_nil_of_noteBracket hdue
      obtain rfl := eq_code_of_role hrole
      rw [hnext, if_pos ⟨rfl, rfl⟩, (code_of_no_quote hquote).2] at hs
      exact absurd hs (not_read_whole (by decide) s _)
    · obtain ⟨ω', rfl, hω'⟩ := exists_noteBracket hdue hnil
      rw [hnext, if_neg (by simp)] at hs
      obtain ⟨hread, hafter⟩ := ih hs
      exact ⟨by rw [read_cons, hω', Option.bind_some, hread], hafter⟩

theorem nested_of_read {x : Text}
    (h : read (noteOperand false) .code ([], .start) ("str(".toList ++ (x ++ [')'])) = some ([], p)) :
    Nested x ∧ Mode.code.after x = .code := by
  have hlead : read (noteOperand false) .code ([], .start) "str(".toList = some ([] ++ [')'], .inside) := by decide
  rw [read_append, hlead] at h
  obtain ⟨hnested, hafter⟩ := read_argument h
  exact ⟨nested_iff.mpr hnested, hafter⟩

private theorem exists_read_trim (h : read (noteOperand sums) .code ([], .start) s = some ([], p)) :
    ∃ p', read (noteOperand sums) .code ([], .start) (trim s) = some ([], p') := by
  obtain ⟨b₁, b₂, heq, hb₁, hb₂⟩ := exists_trim s
  have hblanks {b : Text} (hb : ∀ c ∈ b, isBlank c = true) :
      read (noteOperand sums) .code ([], .start) b = some ([], .start) := by
    induction b with
    | nil => rfl
    | cons c b ih =>
      obtain ⟨hc, hb⟩ := List.forall_mem_cons.mp hb
      have hplus : c ≠ '+' := by
        rintro rfl
        exact absurd hc (by decide +kernel)
      rw [read_cons_code (isQuote_of_isBlank hc), noteOperand_plain (bracketWeight_of_isBlank hc)]
      simpa [Progress.next, hplus, hc] using ih hb
  rw [heq, read_append, hblanks hb₁, Option.bind_some, after_of_no_quote fun c hc => isQuote_of_isBlank (hb₁ c hc)] at h
  obtain ⟨⟨due, p'⟩, htrim, hend⟩ := read_append_eq_some.mp h
  have hdue := read_due hend
  rw [read_of_no_bracket fun c hc => bracketWeight_of_isBlank (hb₂ c hc)] at hdue
  obtain rfl := Option.some.inj hdue
  exact ⟨p', htrim⟩

end Text

namespace Setting

variable {sums : Bool} {st : Setting} {d : Dialect} (hst : st.style = d.style)

include hst in
private theorem keeps_operand_stringIndex {s : Text} (hs : SubscriptsInCode st.indexes s) :
    Keeps (noteOperand sums) .code ([], .start) s (st.stringIndex s) := by
  refine keeps_stringIndex_of hs fun u w x a ha _ hfree hne hw hx hclosed b hb => ?_
  obtain ⟨_, hread⟩ := eq_of_read_subscript hw hx hclosed (read_due hb)
  obtain ⟨harguments, hafter⟩ := read_subscriptArguments skipsCode_noteBracket hw hclosed hread
  have hkw : st.kw .substringWord ≠ [] ∧ (∀ c ∈ st.kw .substringWord, isWordChar c = true) ∧
      st.kw .substringWord ≠ "str".toList := by
    rw [kw, hst]
    cases d <;> exact ⟨by decide, List.all_eq_true.mp rfl, by decide⟩
  rw [call_eq_arguments]
  refine keeps_operand_subscript ha hfree hne hw hread hclosed (fun p hp => ?_) ?_ b hb
  · exact read_operand_enclosed _ hp hkw.1 hkw.2.1 (.inr ⟨rfl, rfl, hkw.2.2⟩) harguments hafter
  · exact (read_in_parens skipsCode_noteBracket (plain_kw hst _) rfl (read_append_due harguments [')']) hafter rfl).2

private theorem keeps_operand_fieldAccess {s : Text} (hs : SubscriptsInCode st.indexes s) :
    Keeps (noteOperand sums) .code ([], .start) s (st.fieldAccess s) := by
  refine keeps_fieldAccess_of hs fun u w x n a ha _ hfree hne hw hn hx hclosed b hb => ?_
  have hread : read noteBracket .code [] x = some [] := read_of_no_bracket hx
  have htext : w ++ ".".toList ++ n = w ++ '.' :: n := by simp
  rw [htext]
  refine keeps_operand_subscript ha hfree hne hw hread hclosed (fun p hp => read_operand_field hp hne hw hn) ?_ b hb
  rw [Mode.after_append, after_of_word hw, Mode.after_cons, (code_of_no_quote (c := '.') (by decide)).2,
    after_of_word hn]

include hst in
/-- If every conversion of an expression is a whole operand, the conversions that are dropped have nested
arguments. -/
theorem nested_of_convertsWhole {s : Text} (h : ConvertsWhole s) (hnested : Nested s)
    (hindex : st.IndexesRecords ∨ st.IndexesStrings → ∀ l ∈ literals s, l.Unsubscripted st.indexes) :
    ∀ p ∈ splitTopLevel '+' (st.stringIndex (st.fieldAccess s)), ∀ x ∈ between? "str(" ")" p,
      Nested x ∧ Mode.code.after x = .code := by
  intro p hp x hx
  obtain ⟨⟨due, progress⟩, hread⟩ := Option.isSome_iff_exists.mp h
  obtain rfl : [] = due := Option.some.inj ((nested_iff.mp hnested).symm.trans (read_due hread))
  have hkept : read (noteOperand true) .code ([], .start) (st.stringIndex (st.fieldAccess s)) = some ([], progress) := by
    rcases subscripts_cases hindex with ⟨hrecords, hstrings⟩ | hnone
    · exact ((keeps_operand_fieldAccess hrecords).trans (keeps_operand_stringIndex hst hstrings) _ hread).1
    · rwa [hnone]
  obtain ⟨hfirst, hrest⟩ := read_splitFrom hkept
  rw [splitTopLevel_of_ne_nil (List.ne_nil_of_mem hp)] at hp
  obtain ⟨q, hq, rfl⟩ := List.mem_map.mp hp
  obtain ⟨_, hoperand⟩ : ∃ p, read (noteOperand false) .code ([], .start) q = some ([], p) := by
    rcases List.mem_cons.mp hq with rfl | hq
    · exact hfirst
    · exact hrest q hq
  obtain ⟨_, htrim⟩ := exists_read_trim hoperand
  rw [eq_append_of_between? hx] at htrim
  exact nested_of_read htrim

end Setting

end Pseudocode
