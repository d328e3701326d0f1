import Pseudocode.Proofs.BraceChains
import Pseudocode.Proofs.PatternReading
import Mathlib.Data.Option.Basic

/-! # Assignments of literals

A line that declares a constant in one dialect is a plain assignment in every other: its name holds
neither operators nor brackets, and its value begins like no comparison and no comprehension. -/

namespace Pseudocode

namespace Text

/-! ### White space at the ends -/

theorem trim_append_left {blanks : Text} (h : ∀ c ∈ blanks, isBlank c = true) (s : Text) :
    trim (blanks ++ s) = trim s := by
  unfold trim trimStart
  rw [List.dropWhile_append_of_pos h]

theorem trim_append_right {blanks : Text} (h : ∀ c ∈ blanks, isBlank c = true) (s : Text) :
    trim (s ++ blanks) = trim s := by
  have hblanks : blanks.dropWhile isBlank = [] := by simpa using h
  have hend (t : Text) : trimEnd (t ++ blanks) = trimEnd t := by
    unfold trimEnd dropEndWhile
    rw [List.reverse_append, List.dropWhile_append_of_pos (by simpa using h)]
  unfold trim trimStart
  rw [List.dropWhile_append]
  split
  · next hempty => rw [hblanks, List.isEmpty_iff.mp hempty]
  · exact hend _

theorem trim_eq_self {s : Text} (h : ∀ c ∈ s, isBlank c = false) : trim s = s := by
  have hdrop {s : Text} (h : ∀ c ∈ s, isBlank c = false) : s.dropWhile isBlank = s := by
    cases s with
    | nil => rfl
    | cons c cs => simp [h c List.mem_cons_self]
  unfold trim trimStart trimEnd dropEndWhile
  rw [hdrop h, hdrop (by simpa using h), List.reverse_reverse]

/-- Trimming keeps a first character that is not white space. -/
theorem head?_trim {c : Char} (h : isBlank c = false) (s : Text) :
    (trim (c :: s)).head? = some c := by
  unfold trim trimStart trimEnd dropEndWhile
  rw [List.dropWhile_cons_of_neg (by simp [h]), List.reverse_cons, List.head?_reverse,
    List.dropWhile_append]
  split
  · simp [h]
  · simp

/-- A text begins with no text that has another first character. -/
theorem isPrefixOf_of_head? {lead s : Text} {c : Char} (hs : s.head? = some c)
    (hl : lead.head?.any (· != c) = true) : lead.isPrefixOf s = false := by
  cases lead with
  | nil => cases hl
  | cons d lead =>
    cases s with
    | nil => cases hs
    | cons c' s =>
      obtain rfl := Option.some.inj hs
      have hd : d ≠ c' := by simpa using hl
      simp [List.isPrefixOf, hd]

/-! ### Text without signs -/

/-- Quotes, brackets and operators. -/
def signs : Text := "\"'()[]\x7b\x7d" ++ operatorStarts

section

variable {c : Char} (h : c ∉ signs)

include h

theorem beq_of_not_mem_signs {d : Char} (hd : d ∈ signs) : (c == d) = false := by
  simp only [beq_eq_false_iff_ne, ne_eq]
  rintro rfl
  exact h hd

theorem isQuote_of_not_mem_signs : isQuote c = false := by
  have hdouble := beq_of_not_mem_signs h (by decide : '"' ∈ signs)
  have hsingle := beq_of_not_mem_signs h (by decide : '\'' ∈ signs)
  simp [isQuote, hdouble, hsingle]

private theorem role_of_not_mem_signs : Mode.code.role c = .code := by
  simp [Mode.role, isQuote_of_not_mem_signs h]

theorem next_of_not_mem_signs : Mode.code.next c = .code := by
  simp [Mode.next, isQuote_of_not_mem_signs h]

theorem weight_of_not_mem_signs : Mode.code.weight c = 0 := by
  -- evaluated along the list: a quantifier over characters would run through all of them
  have hall : (['(', '[', '{'] ++ [')', ']', '}']).all (· ∈ signs) = true := by decide
  simp only [List.all_eq_true, decide_eq_true_eq, List.forall_mem_append] at hall
  rw [Mode.weight, role_of_not_mem_signs h, if_pos rfl, bracketWeight,
    if_neg (fun hc => h (hall.1 c hc)), if_neg (fun hc => h (hall.2 c hc))]

end

private theorem assignmentFrom_append {before : Text} (h : ∀ c ∈ before, c ∉ signs) (prev : Char)
    (rest : Text) :
    assignmentFrom prev .code 0 (before ++ rest) =
      (assignmentFrom (before.getLast?.getD prev) .code 0 rest).map fun r => (before ++ r.1, r.2) := by
  induction before generalizing prev with
  | nil => simp
  | cons c before ih =>
    obtain ⟨hc, hbefore⟩ := List.forall_mem_cons.mp h
    have hassign := beq_of_not_mem_signs hc (by decide : '=' ∈ signs)
    have hlast : (c :: before).getLast?.getD prev = before.getLast?.getD c := by
      rw [List.getLast?_cons]
      rfl
    rw [hlast, List.cons_append, assignmentFrom]
    simp only [hassign, next_of_not_mem_signs hc, weight_of_not_mem_signs hc, Bool.and_false,
      Bool.false_and, Bool.false_eq_true, ↓reduceIte, Int.add_zero]
    rw [ih hbefore, Option.map_map]
    rfl

theorem splitAssignment?_of_not_mem_signs {before rest : Text} (h : ∀ c ∈ before, c ∉ signs)
    (hrest : rest.head? ≠ some '=') :
    splitAssignment? (before ++ '=' :: rest) = some (before, rest) := by
  have hlast : before.getLast?.getD ' ' ∉ operatorStarts := by
    cases hb : before.getLast? with
    | none => decide
    | some c => exact fun hc => h c (List.mem_of_getLast? hb) (List.mem_append_right _ hc)
  rw [splitAssignment?, assignmentFrom_append h, assignmentFrom]
  simp [Mode.role, isQuote, hlast, hrest]

theorem splitTopLevel_of_not_mem_signs {sep : Char} (hsep : sep ∈ signs) {s : Text}
    (h : ∀ c ∈ s, c ∉ signs) (hs : trim s ≠ []) : splitTopLevel sep s = [trim s] := by
  have hsplit : splitFrom sep .code 0 s = (s, []) := by
    clear hs
    induction s with
    | nil => rfl
    | cons c s ih =>
      obtain ⟨hc, hs⟩ := List.forall_mem_cons.mp h
      rw [splitFrom]
      simp only [beq_of_not_mem_signs hc hsep, next_of_not_mem_signs hc, weight_of_not_mem_signs hc,
        Bool.and_false, Bool.false_and, Bool.false_eq_true, ↓reduceIte, Int.add_zero, ih hs]
  unfold splitTopLevel
  simp only [hsplit]
  cases ht : trim s with
  | nil => exact absurd ht hs
  | cons c cs => rfl

theorem not_mem_signs_of_isBlank {c : Char} (h : isBlank c = true) : c ∉ signs := by
  have hsigns : signs.all (fun d => !isBlank d) = true := by decide
  intro hc
  have hblank := List.all_eq_true.mp hsigns c hc
  rw [h] at hblank
  cases hblank

end Text

namespace DataType

open Text

/-! ### First characters of literals -/

/-- Characters with which no literal begins. -/
def notLeading : List Char := ['=', '[', '{', '(']

/-- White space, digits and the other marks of a literal are none of them. -/
theorem notLeading_apart {c : Char} (h : c ∈ notLeading) :
    isBlank c = false ∧ c.isDigit = false ∧ '"' ≠ c ∧ '\'' ≠ c ∧ 'f' ≠ c ∧ 'T' ≠ c ∧ 'F' ≠ c ∧
      't' ≠ c ∧ '-' ≠ c ∧ '.' ≠ c := by
  have hall : notLeading.all (fun c => isBlank c = false ∧ c.isDigit = false ∧ '"' ≠ c ∧ '\'' ≠ c ∧
      'f' ≠ c ∧ 'T' ≠ c ∧ 'F' ≠ c ∧ 't' ≠ c ∧ '-' ≠ c ∧ '.' ≠ c) = true := by
    decide
  exact of_decide_eq_true (List.all_eq_true.mp hall c h)

private theorem isStringLiteral_of_head {c : Char} (hc : c ∈ notLeading) (rest : Text) :
    isStringLiteral (c :: rest) = false := by
  obtain ⟨hblank, _, hdouble, hsingle, _⟩ := notLeading_apart hc
  have hhead := head?_trim hblank rest
  have hdouble : List.isPrefixOf ['"'] (trim (c :: rest)) = false :=
    isPrefixOf_of_head? hhead (by simpa using hdouble)
  have hsingle : List.isPrefixOf ['\''] (trim (c :: rest)) = false :=
    isPrefixOf_of_head? hhead (by simpa using hsingle)
  simp [isStringLiteral, between?, after?, hdouble, hsingle]

private theorem isInterpolated_of_head {c : Char} (hc : c ∈ notLeading) (rest : Text) :
    isInterpolated (c :: rest) = false := by
  obtain ⟨hblank, _, _, _, hf, _⟩ := notLeading_apart hc
  have hhead := head?_trim hblank rest
  have hstart (lead : Text) : List.isPrefixOf ('f' :: lead) (trim (c :: rest)) = false :=
    isPrefixOf_of_head? hhead (by simpa using hf)
  simp [isInterpolated, startsWith, hstart]

private theorem ofLiteral?_of_head {s rest : Text} {c : Char} (hc : c ∈ notLeading)
    (hs : trim s = c :: rest) : ofLiteral? s = none := by
  obtain ⟨_, hdigit, _, _, hf, hT, hF, ht, hminus, hdot⟩ := notLeading_apart hc
  have hwords : isOneOf truthWords (c :: rest) = false := by
    simp [isOneOf, truthWords, hf.symm, hT.symm, hF.symm, ht.symm]
  have hsign : after? "-" (c :: rest) = none := by
    simp [after?, List.isPrefixOf, hminus]
  have hdecimal : isDecimal (c :: rest) = false := by
    unfold isDecimal
    simp only [List.takeWhile_cons, List.dropWhile_cons, hdigit]
    split
    · simp_all
    · simp
  unfold ofLiteral?
  simp only [hs, isStringLiteral_of_head hc, isInterpolated_of_head hc, hwords, hsign,
    Option.getD_none, hdecimal]
  simp [hdigit]

/-- A literal begins neither like a comparison nor like a bracket. -/
theorem exists_head_of_ofLiteral? {s : Text} {type : DataType} (h : ofLiteral? s = some type) :
    ∃ c rest, trim s = c :: rest ∧ c ∉ notLeading := by
  cases ht : trim s with
  | nil =>
    have hnone : ofLiteral? s = none := by
      unfold ofLiteral?
      rw [ht]
      decide
    rw [hnone] at h
    cases h
  | cons c rest =>
    refine ⟨c, rest, rfl, ?_⟩
    intro hc
    rw [ofLiteral?_of_head hc ht] at h
    cases h

end DataType

namespace Name

open Text

theorem isNameChar_of_mem {s : Text} (h : isIdentifier s = true) : ∀ c ∈ s, isNameChar c = true := by
  cases s with
  | nil => simp
  | cons c cs =>
    simp only [isIdentifier, Bool.and_eq_true, List.all_eq_true] at h
    refine List.forall_mem_cons.mpr ⟨?_, h.2⟩
    simp only [isNameChar, Bool.or_eq_true] at h ⊢
    rcases h.1 with hc | hc
    · exact .inl (.inl hc)
    · exact .inr hc

theorem trim_of_isIdentifier {s : Text} (h : isIdentifier s = true) : trim s = s := by
  refine trim_eq_self fun c hc => ?_
  cases hblank : isBlank c with
  | false => rfl
  | true => rw [← isNameChar_of_mem h c hc, isNameChar_of_isBlank hblank]

theorem isTarget_of_isIdentifier {s : Text} (h : isIdentifier s = true) : isTarget s = true := by
  simp [isTarget, trim_of_isIdentifier h, h]

theorem not_mem_signs_of_isConstant {s : Text} (h : isConstant s = true) : ∀ c ∈ s, c ∉ signs := by
  have hsigns : signs.all (fun d => !(d.isUpper || d.isDigit || d == '_')) = true := by decide
  simp only [isConstant, Bool.and_eq_true, List.all_eq_true] at h
  intro c hc hm
  have hsign := List.all_eq_true.mp hsigns c hm
  rw [h.2 c hc] at hsign
  cases hsign

end Name

namespace Indented

open Text Pattern

/-! ### Constants -/

/-- The parts of a line that assigns a literal to a constant. -/
theorem exists_of_constantRule {cx : Context} {code : Text} {o : Outcome}
    (h : constantRule cx code = some o) :
    ∃ name gap gap' value type, code = name ++ gap ++ '=' :: (gap' ++ value) ∧
      Name.isConstant name = true ∧ (∀ c ∈ gap, isBlank c = true) ∧ (∀ c ∈ gap', isBlank c = true) ∧
        DataType.ofLiteral? (trim value) = some type := by
  rw [computes_constantRule.apply_eq, constantOutcome?] at h
  obtain ⟨_, _, h⟩ := Option.bind_eq_some_iff.mp h
  obtain ⟨m, hm, h⟩ := Option.bind_eq_some_iff.mp h
  obtain ⟨type, htype, h⟩ := Option.bind_eq_some_iff.mp h
  obtain ⟨_, hname, _⟩ := Option.bind_eq_some_iff.mp h
  have hreads := reads_of_whole? hm
  simp only [constantPattern, reads_append, reads_group, gap, rest1, reads_most, reads_most1,
    reads_text] at hreads
  obtain ⟨_, value, _, _, rfl, hgroups, ⟨_, gap', _, _, rfl, rfl, ⟨_, _, _, _, rfl, rfl,
    ⟨name, gap, _, _, rfl, rfl, ⟨_, rfl, _⟩, hgap, rfl⟩, rfl, rfl⟩, hgap', rfl⟩, _, rfl, _, _, rfl⟩ :=
    hreads
  have hgroup : m.group 1 = name := by
    rw [Match.group, Match.group?, hgroups]
    rfl
  have hvalue : m.group 2 = value := by
    rw [Match.group, Match.group?, hgroups]
    rfl
  rw [hvalue] at htype
  rw [hgroup] at hname
  refine ⟨name, gap, gap', value, type, by simp, ?_, hgap, hgap', htype⟩
  exact (Option.guard_eq_some' _).mp hname

/-- The value does not make the sign of assignment a comparison. -/
theorem head?_value_ne {blanks value : Text} {type : DataType}
    (hblanks : ∀ c ∈ blanks, isBlank c = true) (h : DataType.ofLiteral? (trim value) = some type) :
    (blanks ++ value).head? ≠ some '=' := by
  cases blanks with
  | cons b blanks =>
    intro heq
    obtain rfl := Option.some.inj heq
    exact not_mem_signs_of_isBlank (hblanks _ List.mem_cons_self) (by decide)
  | nil =>
    intro heq
    obtain ⟨rest, rfl⟩ : ∃ rest, value = '=' :: rest := List.head?_eq_some_iff.mp heq
    obtain ⟨c, cs, htrim, hc⟩ := DataType.exists_head_of_ofLiteral? h
    obtain ⟨t, ht⟩ := List.head?_eq_some_iff.mp (head?_trim (by decide : isBlank '=' = false) rest)
    have hhead := head?_trim (by decide : isBlank '=' = false) t
    rw [← ht, htrim] at hhead
    obtain rfl := Option.some.inj hhead
    exact hc (by decide)

private theorem isComprehension_of_ofLiteral? {value : Text} {type : DataType}
    (h : DataType.ofLiteral? value = some type) : isComprehension value = false := by
  obtain ⟨c, cs, htrim, hc⟩ := DataType.exists_head_of_ofLiteral? h
  have hbracket : c ∉ ['[', '{', '('] := fun hm => hc (List.mem_cons_of_mem _ hm)
  simp only [isComprehension, htrim, List.head?_cons, Option.any_some, decide_eq_false hbracket,
    Bool.false_and]

/-- What is a constant in one dialect is a plain assignment elsewhere. -/
theorem assignmentRule_of_constantRule {cx : Context} {code : Text} {o : Outcome}
    (h : constantRule cx code = some o) (cx' : Context) :
    ∃ notes lines, assignmentRule cx' code = some ((cx'.withNotes notes).writes lines) := by
  obtain ⟨name, gap, gap', value, type, rfl, hname, hgap, hgap', htype⟩ := exists_of_constantRule h
  have hsigns := Name.not_mem_signs_of_isConstant hname
  have hidentifier : Name.isIdentifier name = true := by
    simp only [Name.isConstant, Bool.and_eq_true] at hname
    exact hname.1.1.2
  have htrim := Name.trim_of_isIdentifier hidentifier
  have hsplit : splitAssignment? (name ++ gap ++ '=' :: (gap' ++ value)) =
      some (name ++ gap, gap' ++ value) := by
    refine splitAssignment?_of_not_mem_signs ?_ (head?_value_ne hgap' htype)
    rw [List.forall_mem_append]
    exact ⟨hsigns, fun c hc => not_mem_signs_of_isBlank (hgap c hc)⟩
  have htarget : bareTarget (trim (name ++ gap)) = name := by
    have hne : trim name ≠ [] := by
      intro hnil
      rw [← htrim, hnil] at hidentifier
      cases hidentifier
    rw [trim_append_right hgap, htrim, bareTarget,
      splitTopLevel_of_not_mem_signs (by decide) hsigns hne]
  have hvalue : (trim value).isEmpty = false := by
    obtain ⟨c, cs, ht, _⟩ := DataType.exists_head_of_ofLiteral? htype
    cases hv : trim value with
    | nil =>
      rw [hv] at ht
      cases ht
    | cons c cs => rfl
  rw [computes_assignmentRule.apply_eq, assignmentOutcome?]
  simp only [hsplit, Option.bind_eq_bind, Option.bind_some, htarget, trim_append_left hgap', hvalue,
    Name.isTarget_of_isIdentifier hidentifier, isComprehension_of_ofLiteral? htype, hidentifier]
  exact ⟨_, _, rfl⟩

end Indented

end Pseudocode
