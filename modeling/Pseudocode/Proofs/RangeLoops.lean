import Pseudocode.Proofs.CountingLoops
import Pseudocode.Proofs.QuotedText
import Pseudocode.Proofs.RuleRuns

/-! # Loops over ranges

A range excludes its end and a counting loop includes it, so the bound is moved by one against the
direction of the step. The loop of a range header, and the loop that builds a list from a range, then run
through the items of the range. -/

namespace Pseudocode

open Text Pattern Arithmetic

/-! ### Items of a range -/

/-- The item of a range at an index. -/
def rangeItem? (start stop step : Int) (i : Nat) : Option Int :=
  let item := start + step * i
  if 0 < step ∧ item < stop ∨ step < 0 ∧ stop < item then some item else none

/-- The items of a range in order. -/
def IsRange (start stop step : Int) (items : List Int) : Prop :=
  ∀ i : Nat, items[i]? = rangeItem? start stop step i

private theorem rangeItem?_eq_none {start stop step : Int}
    (h : ¬ (0 < step ∧ start < stop ∨ step < 0 ∧ stop < start)) (i : Nat) :
    rangeItem? start stop step i = none := by
  refine if_neg fun hitem => h ?_
  have hup (hpos : 0 < step) : 0 ≤ step * i := Int.mul_nonneg (by omega) (by omega)
  have hdown (hneg : step < 0) : step * i ≤ 0 := Int.mul_nonpos_of_nonpos_of_nonneg (by omega) (by omega)
  rcases hitem with ⟨hpos, hitem⟩ | ⟨hneg, hitem⟩
  · exact .inl ⟨hpos, by have := hup hpos; omega⟩
  · exact .inr ⟨hneg, by have := hdown hneg; omega⟩

private theorem rangeItem?_succ (start stop step : Int) (i : Nat) :
    rangeItem? start stop step (i + 1) = rangeItem? (start + step) stop step i := by
  have hitem : start + step * ((i + 1 : Nat) : Int) = start + step + step * i := by
    rw [Int.natCast_add, Int.mul_add]
    omega
  simp only [rangeItem?, hitem]

private theorem exists_passes_of_range {goesOn : Int → Prop} {stop step : Int}
    (hgo : ∀ i, goesOn i ↔ 0 < step ∧ i < stop ∨ step < 0 ∧ stop < i) (start : Int) :
    ∃ items, IsRange start stop step items ∧ Passes goesOn (· + step) start items := by
  by_cases h : goesOn start
  · obtain ⟨items, hitems, hpasses⟩ := exists_passes_of_range hgo (start + step)
    refine ⟨start :: items, fun i => ?_, .pass h hpasses⟩
    cases i with
    | zero =>
      have hin := (hgo start).mp h
      simp [rangeItem?, hin]
    | succ i => rw [List.getElem?_cons_succ, hitems, rangeItem?_succ]
  · exact ⟨[], fun i => (rangeItem?_eq_none (fun hin => h ((hgo start).mpr hin)) i).symm, .done h⟩
termination_by (if 0 < step then stop - start else start - stop).toNat
decreasing_by
  have hgo := (hgo start).mp h
  split <;> omega

theorem CountingLoop.exists_runs_range (var : Text) (start stop : Int) {step : Int} (hstep : step ≠ 0) :
    ∃ items, IsRange start stop step items ∧ ∀ values,
      CountingLoop.Runs ⟨var, start, if step < 0 then stop + 1 else stop - 1, step⟩ values ↔ values = items := by
  have hgo (i : Int) : CountingLoop.GoesOn ⟨var, start, if step < 0 then stop + 1 else stop - 1, step⟩ i ↔
      0 < step ∧ i < stop ∨ step < 0 ∧ stop < i := by
    simp only [CountingLoop.GoesOn]
    split <;> split <;> omega
  obtain ⟨items, hitems, hpasses⟩ := exists_passes_of_range hgo start
  refine ⟨items, hitems, fun values => ⟨fun h => h.unique hpasses, ?_⟩⟩
  rintro rfl
  exact hpasses

/-! ### Arguments of a range -/

/-- The arguments of a range and the integers that they stand for. -/
inductive RangeArgs : Text → Int → Int → Int → Prop
  | stop {q : Text} {b : Int} (hq : integer? (trim q) = some b) : RangeArgs q 0 b 1
  | start {p q : Text} {a b : Int} (hp : integer? (trim p) = some a) (hq : integer? (trim q) = some b) :
      RangeArgs (p ++ ',' :: q) a b 1
  | step {p q r : Text} {a b s : Int} (hp : integer? (trim p) = some a) (hq : integer? (trim q) = some b)
      (hr : integer? (trim r) = some s) : RangeArgs (p ++ ',' :: (q ++ ',' :: r)) a b s

private theorem plain_of_integer? {p : Text} {n : Int} (h : integer? (trim p) = some n) :
    (∀ c ∈ p, isQuote c = false ∧ bracketWeight c = 0) ∧ ',' ∉ p := by
  refine ⟨fun c hc => ?_, notMem_of_integer? h (by decide)⟩
  rcases isBlank_or_isNumeric h hc with hc | hc
  · exact ⟨isQuote_of_isBlank hc, bracketWeight_of_isBlank hc⟩
  · have hc := isNumeric_plain hc
    exact ⟨hc.1, hc.2.1⟩

theorem RangeArgs.not_mem_paren {args : Text} {a b s : Int} (h : RangeArgs args a b s) : '(' ∉ args := by
  have hplain {p : Text} {n : Int} (hp : integer? (trim p) = some n) : '(' ∉ p :=
    notMem_of_integer? hp (by decide)
  cases h with
  | stop hq => exact hplain hq
  | start hp hq => simp [hplain hp, hplain hq]
  | step hp hq hr => simp [hplain hp, hplain hq, hplain hr]

/-- Whether a step goes down is seen from the sign of an integer. -/
def SeesSign (isDown : Text → Text → Bool) : Prop :=
  ∀ p n, integer? p = some n → isDown p p = startsWith "-" p

theorem exists_rangeBounds {cx : Context} (hst : cx.style = .cambridge) {args : Text} {a b s : Int}
    (hargs : RangeArgs args a b s) (hs : s ≠ 0) (hlow : -(signedLimit : Int) ≤ b - 1)
    (hhigh : b + 1 < signedLimit) :
    ∃ bounds, (∀ isDown, SeesSign isDown → Indented.rangeBounds? cx isDown args = some bounds) ∧
      integer? bounds.start = some a ∧ integer? bounds.stop = some (if s < 0 then b + 1 else b - 1) ∧
      bounds.step.elim (some 1) integer? = some s := by
  have hne {p : Text} {n : Int} (h : integer? (trim p) = some n) : trim p ≠ [] := (isNumeric_of_integer? h).1
  have hexpr {p : Text} {n : Int} (h : integer? (trim p) = some n) : cx.expr (trim p) = trim p := by
    have htrim := Setting.trim_of_integer? h
    rw [Setting.expr_of_integer? (d := .cambridge) hst (by rwa [htrim]), htrim]
  have hminus {p : Text} (h : integer? (trim p) = some b) : integer? (minusOne (trim p)) = some (b - 1) :=
    integer?_offsetBound h (by omega) (by omega)
  have hplus {p : Text} (h : integer? (trim p) = some b) : integer? (plusOne (trim p)) = some (b + 1) :=
    integer?_offsetBound h (by omega) (by omega)
  have hcomma : isQuote ',' = false ∧ bracketWeight ',' = 0 := by decide
  unfold Indented.rangeBounds?
  cases hargs with
  | stop hq =>
    obtain ⟨hplain, hno⟩ := plain_of_integer? hq
    rw [splitTopLevel_of_first (splitFrom_of_plain hplain hno) (hne hq)]
    refine ⟨_, fun _ _ => rfl, rfl, ?_, rfl⟩
    simpa [hexpr hq] using hminus hq
  | @start p q _ _ hp hq =>
    obtain ⟨hplain, hno⟩ := plain_of_integer? hp
    obtain ⟨hplain', hno'⟩ := plain_of_integer? hq
    have hsplit : splitFrom ',' .code 0 (p ++ ',' :: q) = (p, [q]) := by
      rw [splitFrom_append hplain hno, splitFrom_separator hcomma, splitFrom_of_plain hplain' hno',
        List.append_nil]
    rw [splitTopLevel_of_first hsplit (hne hp)]
    refine ⟨_, fun _ _ => rfl, ?_, ?_, rfl⟩
    · simpa [hexpr hp] using hp
    · simpa [hexpr hq] using hminus hq
  | @step p q r _ _ _ hp hq hr =>
    obtain ⟨hplain, hno⟩ := plain_of_integer? hp
    obtain ⟨hplain', hno'⟩ := plain_of_integer? hq
    obtain ⟨hplain'', hno''⟩ := plain_of_integer? hr
    have hsplit : splitFrom ',' .code 0 (p ++ ',' :: (q ++ ',' :: r)) = (p, [q, r]) := by
      rw [splitFrom_append hplain hno, splitFrom_separator hcomma, splitFrom_append hplain' hno',
        splitFrom_separator hcomma, splitFrom_of_plain hplain'' hno'', List.append_nil, List.append_nil]
    rw [splitTopLevel_of_first hsplit (hne hp)]
    have hlast : integer? (if startsWith "-" (trim r) then plusOne (trim q) else minusOne (trim q)) =
        some (if s < 0 then b + 1 else b - 1) := by
      by_cases hneg : s < 0
      · rw [if_pos hneg, if_pos ((startsWith_minus_iff hr hs).mpr hneg), hplus hq]
      · rw [if_neg hneg, if_neg fun h => hneg ((startsWith_minus_iff hr hs).mp h), hminus hq]
    refine ⟨⟨trim p, if startsWith "-" (trim r) then plusOne (trim q) else minusOne (trim q), some (trim r)⟩,
      fun isDown hdown => ?_, hp, hlast, hr⟩
    simp only [List.map_cons, List.map_nil, hexpr hp, hexpr hq, hexpr hr, hdown _ s hr]

/-! ### Where a range is written -/

section

variable {c : Char} {s t u v : Text}

theorem eq_or_exists_of_last (h : s ++ c :: t = u ++ c :: v) (ht : c ∉ t) :
    s = u ∧ t = v ∨ ∃ w, s = u ++ c :: w := by
  rcases List.append_eq_append_iff.mp h with ⟨w, rfl, hw⟩ | ⟨w, rfl, hw⟩
  · cases w with
    | nil => exact .inl ⟨by simp, (List.cons.inj hw).2⟩
    | cons d w =>
      obtain ⟨rfl, rfl⟩ := List.cons.inj hw
      simp at ht
  · cases w with
    | nil => exact .inl ⟨by simp, (List.cons.inj hw).2.symm⟩
    | cons d w =>
      obtain ⟨rfl, _⟩ := List.cons.inj hw
      exact .inr ⟨w, rfl⟩

theorem exists_of_not_mem (h : s ++ c :: t = u ++ v) (hv : c ∉ v) : ∃ w, u = s ++ c :: w := by
  rcases List.append_eq_append_iff.mp h with ⟨w, rfl, hw⟩ | ⟨w, rfl, hw⟩
  · cases w with
    | nil =>
      rw [List.nil_append] at hw
      simp [← hw] at hv
    | cons d w =>
      obtain ⟨rfl, _⟩ := List.cons.inj hw
      exact ⟨w, rfl⟩
  · simp [hw] at hv

end

/-- What stands from the keyword of a loop to the parenthesis of its range. -/
structure RangeOpening where
  var : Text
  gap₁ : Text
  gap₂ : Text
  gap₃ : Text
  gap₄ : Text
  fits : name.fits var = true
  blank₁ : gap₁ ≠ [] ∧ ∀ c ∈ gap₁, isBlank c = true
  blank₂ : gap₂ ≠ [] ∧ ∀ c ∈ gap₂, isBlank c = true
  blank₃ : gap₃ ≠ [] ∧ ∀ c ∈ gap₃, isBlank c = true
  blank₄ : ∀ c ∈ gap₄, isBlank c = true

namespace RangeOpening

/-- The opening without its keyword and its parenthesis. -/
def inner (r : RangeOpening) : Text :=
  r.gap₁ ++ (r.var ++ (r.gap₂ ++ ("in" ++ (r.gap₃ ++ ("range" ++ r.gap₄)))))

def text (r : RangeOpening) : Text := "for" ++ (r.inner ++ ['('])

theorem not_mem_inner (r : RangeOpening) : '(' ∉ r.inner := by
  have hblank {b : Text} (hb : ∀ c ∈ b, isBlank c = true) : '(' ∉ b := fun hc => absurd (hb _ hc) (by decide)
  have hvar : '(' ∉ r.var := fun hc => absurd ((isWordChar_of_fits r.fits).2 _ hc) (by decide)
  simp [inner, hblank r.blank₁.2, hblank r.blank₂.2, hblank r.blank₃.2, hblank r.blank₄, hvar]

theorem var_eq {r r' : RangeOpening} {t t' : Text} (h : t ++ r.inner = t' ++ r'.inner) : r.var = r'.var := by
  have hrev := congrArg List.reverse h
  simp only [inner, List.reverse_append, List.append_assoc] at hrev
  have hblank {b : Text} (hb : ∀ c ∈ b, isBlank c = true) : ∀ c ∈ b.reverse, isBlank c = true := by
    simpa using hb
  have hword (r : RangeOpening) : IsWord r.var.reverse := by
    obtain ⟨hne, hvar⟩ := isWordChar_of_fits r.fits
    exact ⟨by simpa using hne, by simpa using hvar⟩
  have hstop (r : RangeOpening) (s : Text) : (r.gap₁.reverse ++ s).head?.any isWordChar = false :=
    head?_blank_append (hblank r.blank₁.2) fun hnil => absurd hnil (by simpa using r.blank₁.1)
  obtain ⟨_, hrev⟩ := eq_of_runs (hblank r.blank₄) (hblank r'.blank₄) (by rfl) (by rfl) hrev
  obtain ⟨_, hrev⟩ := eq_of_runs (hblank r.blank₃.2) (hblank r'.blank₃.2) (by rfl) (by rfl)
    (List.append_cancel_left hrev)
  obtain ⟨_, hrev⟩ := eq_of_runs (hblank r.blank₂.2) (hblank r'.blank₂.2) (head?_word_append (hword r) _)
    (head?_word_append (hword r') _)
    (List.append_cancel_left hrev)
  obtain ⟨hvar, _⟩ := eq_of_runs (hword r).2 (hword r').2 (hstop r _) (hstop r' _) hrev
  exact List.reverse_injective hvar

end RangeOpening

/-- A pattern that goes on from the keyword of a loop to the parenthesis of its range. -/
def rangeOpening (lead : Pattern) (i : Nat) : Pattern :=
  lead ++ gap1 ++ .group i name ++ gap1 ++ "in" ++ gap1 ++ "range" ++ gap ++ "("

theorem reads_rangeOpening {lead : Pattern} {i : Nat} {s : Text} {g : Groups} :
    Reads (rangeOpening lead i) s g ↔ ∃ (r : RangeOpening) (t : Text) (g' : Groups),
      s = t ++ (r.inner ++ ['(']) ∧ g = (i, r.var) :: g' ∧ Reads lead t g' := by
  constructor
  · intro h
    obtain ⟨_, _, _, _, rfl, rfl, h₁, hparen⟩ := reads_append.mp h
    obtain ⟨rfl, rfl⟩ := reads_text.mp hparen
    obtain ⟨_, b₄, _, _, rfl, rfl, h₂, hgap₄⟩ := reads_append.mp h₁
    obtain ⟨hb₄, rfl⟩ := reads_most.mp hgap₄
    obtain ⟨_, _, _, _, rfl, rfl, h₃, hrange⟩ := reads_append.mp h₂
    obtain ⟨rfl, rfl⟩ := reads_text.mp hrange
    obtain ⟨_, b₃, _, _, rfl, rfl, h₄, hgap₃⟩ := reads_append.mp h₃
    obtain ⟨hb₃, hb₃', rfl⟩ := reads_most1.mp hgap₃
    obtain ⟨_, _, _, _, rfl, rfl, h₅, hin⟩ := reads_append.mp h₄
    obtain ⟨rfl, rfl⟩ := reads_text.mp hin
    obtain ⟨_, b₂, _, _, rfl, rfl, h₆, hgap₂⟩ := reads_append.mp h₅
    obtain ⟨hb₂, hb₂', rfl⟩ := reads_most1.mp hgap₂
    obtain ⟨_, v, _, _, rfl, rfl, h₇, hgroup⟩ := reads_append.mp h₆
    obtain ⟨_, rfl, hv⟩ := reads_group.mp hgroup
    obtain ⟨t, b₁, g', _, rfl, rfl, ht, hgap₁⟩ := reads_append.mp h₇
    obtain ⟨hb₁, hb₁', rfl⟩ := reads_most1.mp hgap₁
    obtain ⟨rfl, _⟩ := reads_name hv
    have hfits : name.fits v = true := Option.isSome_iff_exists.mpr (exists_whole? (hv.way rfl [] []))
    refine ⟨⟨v, b₁, b₂, b₃, b₄, hfits, ⟨hb₁, hb₁'⟩, ⟨hb₂, hb₂'⟩, ⟨hb₃, hb₃'⟩, hb₄⟩, t, g', ?_, rfl, ht⟩
    simp [RangeOpening.inner]
  · rintro ⟨r, t, g', rfl, rfl, ht⟩
    have hv := reads_name_of_fits r.fits
    have hseq : Reads (rangeOpening lead i)
        (t ++ r.gap₁ ++ r.var ++ r.gap₂ ++ "in".toList ++ r.gap₃ ++ "range".toList ++ r.gap₄ ++ "(".toList)
        ((i, r.var) :: g') :=
      .seq (.seq (.seq (.seq (.seq (.seq (.seq (.seq ht (reads_most1.mpr ⟨r.blank₁.1, r.blank₁.2, rfl⟩))
        (.group i hv)) (reads_most1.mpr ⟨r.blank₂.1, r.blank₂.2, rfl⟩)) (.text _))
        (reads_most1.mpr ⟨r.blank₃.1, r.blank₃.2, rfl⟩)) (.text _)) (.most r.blank₄)) (.text _)
    simpa [RangeOpening.inner] using hseq

/-- The opening of a range, its arguments and the last character after them. -/
def rangeClause (lead : Pattern) (i j : Nat) (c : Char) : Pattern :=
  rangeOpening lead i ++ .group j rest ++ ")" ++ gap ++ .text [c]

/-- What follows the parenthesis of a range. -/
def rangeRest (args b : Text) (c : Char) : Text := args ++ ')' :: (b ++ [c])

private theorem args_eq_of_rangeRest {args args' b b' : Text} {c : Char} (hb : ∀ d ∈ b, isBlank d = true)
    (hb' : ∀ d ∈ b', isBlank d = true) (h : rangeRest args b c = rangeRest args' b' c) : args = args' := by
  have hrev := congrArg List.reverse h
  simp only [rangeRest, List.reverse_append, List.reverse_cons, List.reverse_nil, List.nil_append,
    List.append_assoc, List.singleton_append] at hrev
  obtain ⟨_, _, hargs⟩ := eq_of_runs_cons (p := isBlank) (by simpa using hb) (by simpa using hb') (by decide)
    (by decide) (List.cons.inj hrev).2
  exact List.reverse_injective hargs

section

variable {p : Pattern} {i j : Nat} {c : Char} {r : RangeOpening} {s args b : Text} {g : Groups}
  (hb : ∀ d ∈ b, isBlank d = true)

include hb

theorem reads_rangeClause {g' : Groups} (hlead : Reads p (s ++ "for") g')
    (hline : ∀ d ∈ args, inLine d = true) :
    Reads (rangeClause p i j c) (s ++ (r.text ++ rangeRest args b c))
      ((j, args) :: (i, r.var) :: g') := by
  have hopening := (reads_rangeOpening (i := i)).mpr ⟨r, _, _, rfl, rfl, hlead⟩
  have hseq : Reads (rangeClause p i j c)
      (s ++ "for".toList ++ (r.inner ++ ['(']) ++ args ++ ")".toList ++ b ++ [c])
      ((j, args) :: (i, r.var) :: g') :=
    .seq (.seq (.seq (.seq hopening (.group j (.most hline))) (.text _)) (.most hb)) (.text _)
  simpa [RangeOpening.text, rangeRest] using hseq

theorem reads_rangeClause_cases (hargs : '(' ∉ rangeRest args b c)
    (h : Reads (rangeClause p i j c) (s ++ (r.text ++ rangeRest args b c)) g) :
    ∃ t g' r', Reads p t g' ∧
      ((∃ u, s ++ r.text = t ++ u) ∧ g = (j, args) :: (i, r.var) :: g' ∨
        ∃ w, s = t ++ (RangeOpening.inner r' ++ '(' :: w)) := by
  obtain ⟨_, _, _, _, hcode, rfl, h₁, htext⟩ := reads_append.mp h
  obtain ⟨rfl, rfl⟩ := reads_text.mp htext
  obtain ⟨_, b', _, _, rfl, rfl, h₂, hgap⟩ := reads_append.mp h₁
  obtain ⟨hb', rfl⟩ := reads_most.mp hgap
  obtain ⟨_, _, _, _, rfl, rfl, h₃, hparen⟩ := reads_append.mp h₂
  obtain ⟨rfl, rfl⟩ := reads_text.mp hparen
  obtain ⟨_, args', _, _, rfl, rfl, h₄, hgroup⟩ := reads_append.mp h₃
  obtain ⟨_, rfl, hrest⟩ := reads_group.mp hgroup
  obtain ⟨_, rfl⟩ := reads_most.mp hrest
  obtain ⟨r', t, g', rfl, rfl, ht⟩ := reads_rangeOpening.mp h₄
  refine ⟨t, g', r', ht, ?_⟩
  have hcode : (s ++ ("for".toList ++ r.inner)) ++ '(' :: rangeRest args b c =
      (t ++ r'.inner) ++ '(' :: rangeRest args' b' c := by
    simpa [RangeOpening.text, rangeRest] using hcode
  rcases eq_or_exists_of_last hcode hargs with ⟨hopening, hrest⟩ | ⟨w, hopening⟩
  · refine .inl ⟨⟨r'.inner ++ ['('], ?_⟩, ?_⟩
    · rw [RangeOpening.text, ← List.append_assoc, ← List.append_assoc, List.append_assoc s, hopening,
        List.append_assoc]
    · rw [← List.append_assoc] at hopening
      rw [args_eq_of_rangeRest hb hb' hrest, RangeOpening.var_eq hopening]
      rfl
  · have hnot : '(' ∉ "for".toList ++ r.inner := by simpa using r.not_mem_inner
    obtain ⟨w, hs⟩ := exists_of_not_mem hopening.symm hnot
    exact .inr ⟨w, by rw [hs, List.append_assoc]⟩

end

namespace Indented

/-! ### The rules -/

/-- A comprehension up to the keyword of its loop. -/
def elementLead : Pattern :=
  .group 1 name ++ gap ++ "=" ++ gap ++ "[" ++ gap ++ .group 2 upto1 ++ gap1 ++ "for"

private theorem reads_elementLead {s : Text} {g : Groups} (h : Reads elementLead s g) :
    ∃ x b₁ b₂ d e, s = x ++ (b₁ ++ '=' :: (b₂ ++ '[' :: (d ++ "for".toList))) ∧ g = [(2, e), (1, x)] ∧
      (∀ c ∈ x, isWordChar c = true) ∧ (∀ c ∈ b₁, isBlank c = true) ∧ ∀ c ∈ b₂, isBlank c = true := by
  obtain ⟨_, _, _, _, rfl, rfl, h₁, hfor⟩ := reads_append.mp h
  obtain ⟨rfl, rfl⟩ := reads_text.mp hfor
  obtain ⟨_, b₄, _, _, rfl, rfl, h₂, hgap₄⟩ := reads_append.mp h₁
  obtain ⟨_, _, rfl⟩ := reads_most1.mp hgap₄
  obtain ⟨_, e, _, _, rfl, rfl, h₃, hgroup⟩ := reads_append.mp h₂
  obtain ⟨_, rfl, he⟩ := reads_group.mp hgroup
  obtain ⟨_, _, rfl⟩ := reads_most1.mp (reads_fewest1.mp he)
  obtain ⟨_, b₃, _, _, rfl, rfl, h₄, hgap₃⟩ := reads_append.mp h₃
  obtain ⟨_, rfl⟩ := reads_most.mp hgap₃
  obtain ⟨_, _, _, _, rfl, rfl, h₅, hbracket⟩ := reads_append.mp h₄
  obtain ⟨rfl, rfl⟩ := reads_text.mp hbracket
  obtain ⟨_, b₂, _, _, rfl, rfl, h₆, hgap₂⟩ := reads_append.mp h₅
  obtain ⟨hb₂, rfl⟩ := reads_most.mp hgap₂
  obtain ⟨_, _, _, _, rfl, rfl, h₇, hassign⟩ := reads_append.mp h₆
  obtain ⟨rfl, rfl⟩ := reads_text.mp hassign
  obtain ⟨x, b₁, _, _, rfl, rfl, hname, hgap₁⟩ := reads_append.mp h₇
  obtain ⟨hb₁, rfl⟩ := reads_most.mp hgap₁
  obtain ⟨_, rfl, hx⟩ := reads_group.mp hname
  obtain ⟨rfl, _, _, _, _, hword⟩ := reads_name hx
  exact ⟨x, b₁, b₂, b₃ ++ e ++ b₄, e, by simp, rfl, hword, hb₁, hb₂⟩

theorem reads_elementLead_of_parts {x b₁ b₂ b₃ e : Text} (hx : name.fits x = true)
    (hb₁ : ∀ c ∈ b₁, isBlank c = true) (hb₂ : ∀ c ∈ b₂, isBlank c = true)
    (hb₃ : b₃ ≠ [] ∧ ∀ c ∈ b₃, isBlank c = true) (he : e ≠ [] ∧ ∀ c ∈ e, inLine c = true) :
    Reads elementLead (x ++ (b₁ ++ '=' :: (b₂ ++ '[' :: (e ++ b₃))) ++ "for") [(2, e), (1, x)] := by
  have hname := reads_name_of_fits hx
  have hseq : Reads elementLead (x ++ b₁ ++ "=".toList ++ b₂ ++ "[".toList ++ [] ++ e ++ b₃ ++ "for".toList)
      [(2, e), (1, x)] :=
    .seq (.seq (.seq (.seq (.seq (.seq (.seq (.seq (.group 1 hname) (.most hb₁)) (.text _)) (.most hb₂))
      (.text _)) (.most (List.forall_mem_nil _))) (.group 2 (reads_fewest1.mpr (reads_most1.mpr
      ⟨he.1, he.2, rfl⟩)))) (reads_most1.mpr ⟨hb₃.1, hb₃.2, rfl⟩)) (.text _)
  simpa using hseq

section

variable {cx : Context} {r : RangeOpening} {args b : Text} (hline : ∀ c ∈ args, inLine c = true)
  (hargs : '(' ∉ args) (hb : ∀ c ∈ b, isBlank c = true)

include hargs hb in
theorem not_mem_rangeRest {c : Char} (hc : c ≠ '(') : '(' ∉ rangeRest args b c := by
  have hblank : '(' ∉ b := fun h => absurd (hb _ h) (by decide)
  simp [rangeRest, hargs, hblank, hc.symm]

include hargs hb

private theorem comprehension_groups {x b₁ b₂ b₃ e : Text} (hx : ∀ c ∈ x, isWordChar c = true)
    (hb₁ : ∀ c ∈ b₁, isBlank c = true) (hb₂ : ∀ c ∈ b₂, isBlank c = true) (hb₃ : ∀ c ∈ b₃, isBlank c = true)
    (hrange : ∀ (r' : RangeOpening) (u w : Text), e ≠ u ++ (r'.text ++ w)) {g : Groups}
    (h : Reads comprehensionPattern
      (x ++ (b₁ ++ '=' :: (b₂ ++ '[' :: (e ++ b₃))) ++ (r.text ++ rangeRest args b ']')) g) :
    ∃ e', g = [(4, args), (3, r.var), (2, e'), (1, x)] := by
  obtain ⟨t, g', r', ht, hcases⟩ := reads_rangeClause_cases (p := elementLead) (i := 3) (j := 4) hb
    (not_mem_rangeRest hargs hb (by decide)) h
  obtain ⟨x', b₁', b₂', d, e', rfl, rfl, hx', hb₁', hb₂'⟩ := reads_elementLead ht
  rcases hcases with ⟨⟨u, hu⟩, hg⟩ | ⟨w, hw⟩
  · have hstop {b : Text} (hb : ∀ c ∈ b, isBlank c = true) (s : Text) :
        (b ++ '=' :: s).head?.any isWordChar = false := head?_blank_append hb fun _ => rfl
    simp only [List.append_assoc, List.cons_append] at hu
    obtain ⟨rfl, _⟩ := eq_of_runs hx hx' (hstop hb₁ _) (hstop hb₁' _) hu
    exact ⟨e', hg⟩
  · -- an earlier range would lie in the element
    have hno {x b₁ b₂ : Text} (hx : ∀ c ∈ x, isWordChar c = true) (hb₁ : ∀ c ∈ b₁, isBlank c = true)
        (hb₂ : ∀ c ∈ b₂, isBlank c = true) : '[' ∉ x ++ (b₁ ++ '=' :: b₂) := by
      simp only [List.mem_append, List.mem_cons, not_or]
      exact ⟨fun hc => absurd (hx _ hc) (by decide), fun hc => absurd (hb₁ _ hc) (by decide), by decide,
        fun hc => absurd (hb₂ _ hc) (by decide)⟩
    have hbracket : (x ++ (b₁ ++ '=' :: b₂)) ++ '[' :: (e ++ b₃) =
        (x' ++ (b₁' ++ '=' :: b₂')) ++ '[' :: (d ++ ("for".toList ++ r'.inner) ++ '(' :: w) := by
      simpa using hw
    obtain ⟨_, helement⟩ := eq_of_first (hno hx hb₁ hb₂) (hno hx' hb₁' hb₂') hbracket
    have hparen : '(' ∉ b₃ := fun hc => absurd (hb₃ _ hc) (by decide)
    obtain ⟨w', hw'⟩ := exists_of_not_mem helement.symm hparen
    exact absurd (by simpa [RangeOpening.text] using hw') (hrange r' d w')

include hline

private theorem rangeRule_of_rangeBounds {bounds : Bounds}
    (hbounds : rangeBounds? cx (fun _ step => startsWith "-" (trim step)) args = some bounds) :
    rangeRule cx (r.text ++ rangeRest args b ':') =
      some (cx.opens [cx.line (cx.style.forHeader r.var bounds.start bounds.stop bounds.step)]
        (.loop r.var)) := by
  have hreads : Reads rangePattern (r.text ++ rangeRest args b ':') [(2, args), (1, r.var)] :=
    reads_rangeClause (s := []) (p := "for") hb (.text _) hline
  obtain ⟨m, hm⟩ := exists_whole? (hreads.way rfl [] [])
  have hgroups : m.groups = [(2, args), (1, r.var)] := by
    obtain ⟨t, g', r', ht, ⟨_, hg⟩ | ⟨w, hnil⟩⟩ :=
      reads_rangeClause_cases (s := []) (p := "for") (i := 1) (j := 2) hb
        (not_mem_rangeRest hargs hb (by decide)) (reads_of_whole? hm)
    · rw [hg, (reads_text.mp ht).2]
    · simp at hnil
  have hvar : m.group 1 = r.var := by simp [Match.group, Match.group?, hgroups, List.lookup_cons]
  have hargs : m.group 2 = args := by simp [Match.group, Match.group?, hgroups]
  simp only [rangeRule, Converter.reading_apply, hm, hvar, hargs, hbounds,
    Option.bind_eq_bind, Option.bind_some]
  rfl

private theorem comprehensionRule_of_rangeBounds {bounds : Bounds}
    (hbounds : rangeBounds? cx (fun step _ => startsWith "-" (trim step)) args = some bounds)
    {x b₁ b₂ b₃ e : Text} (hx : name.fits x = true) (hb₁ : ∀ c ∈ b₁, isBlank c = true)
    (hb₂ : ∀ c ∈ b₂, isBlank c = true) (hb₃ : b₃ ≠ [] ∧ ∀ c ∈ b₃, isBlank c = true)
    (he : e ≠ [] ∧ ∀ c ∈ e, inLine c = true)
    (hrange : ∀ (r' : RangeOpening) (u w : Text), e ≠ u ++ (r'.text ++ w)) :
    ∃ element,
      comprehensionRule cx (x ++ (b₁ ++ '=' :: (b₂ ++ '[' :: (e ++ (b₃ ++ (r.text ++ rangeRest args b ']')))))) =
        some (cx.writes
          [cx.assign "index" "0",
            cx.line (cx.style.forHeader r.var bounds.start bounds.stop bounds.step),
            cx.assignInner (x ++ "[index]") element,
            cx.assignInner "index" "index + 1",
            cx.line (cx.style.terminator .forLoop (some r.var) none)]) := by
  have hreads : Reads comprehensionPattern _ _ := reads_rangeClause (p := elementLead) (i := 3) (j := 4) (c := ']')
    (r := r) hb (reads_elementLead_of_parts hx hb₁ hb₂ hb₃ he) hline
  obtain ⟨m, hm⟩ := exists_whole? (hreads.way rfl [] [])
  obtain ⟨e', hg⟩ := comprehension_groups hargs hb (isWordChar_of_fits hx).2 hb₁ hb₂ hb₃.2 hrange (reads_of_whole? hm)
  have htarget : m.group 1 = x := by simp [Match.group, Match.group?, hg, List.lookup_cons]
  have hvar : m.group 3 = r.var := by simp [Match.group, Match.group?, hg, List.lookup_cons]
  have hargs : m.group 4 = args := by simp [Match.group, Match.group?, hg]
  refine ⟨cx.expr (Setting.respell "*" "*" (m.group 2)), ?_⟩
  have hcode : x ++ (b₁ ++ '=' :: (b₂ ++ '[' :: (e ++ (b₃ ++ (r.text ++ rangeRest args b ']'))))) =
      x ++ (b₁ ++ '=' :: (b₂ ++ '[' :: (e ++ b₃))) ++ (r.text ++ rangeRest args b ']') := by
    simp
  simp only [hcode, comprehensionRule, Converter.reading_apply, hm, htarget, hvar, hargs, hbounds,
    Option.bind_eq_bind, Option.bind_some]
  rfl

end

/-- Under the Cambridge dialect, the header that is written for a loop over a range of integers is that of a
counting loop over the same variable, and its passes run through exactly the items of the range. The rule
for comprehensions writes the same header, provided that the element before it has no range of its own. -/
theorem range_loops_keep_items {cx : Context} (hst : cx.style = .cambridge) (r : RangeOpening)
    {args : Text} {a b s : Int} (hargs : RangeArgs args a b s) (hline : ∀ c ∈ args, inLine c = true)
    (hs : s ≠ 0) (hlow : -(signedLimit : Int) ≤ b - 1) (hhigh : b + 1 < signedLimit) :
    ∃ header loop items, CountingLoop.ofHeader? header = some loop ∧ loop.var = r.var ∧
      IsRange a b s items ∧ (∀ values, loop.Runs values ↔ values = items) ∧
      (∀ b₄ : Text, (∀ c ∈ b₄, isBlank c = true) →
        rangeRule cx (r.text ++ rangeRest args b₄ ':') = some (cx.opens [cx.line header] (.loop r.var))) ∧
      ∀ x b₁ b₂ e b₃ b₄ : Text, name.fits x = true → (∀ c ∈ b₁ ++ b₂ ++ b₃ ++ b₄, isBlank c = true) →
        e ≠ [] → (∀ c ∈ e, inLine c = true) → b₃ ≠ [] →
        (∀ (r' : RangeOpening) (u w : Text), e ≠ u ++ (r'.text ++ w)) →
        ∃ element, comprehensionRule cx
            (x ++ (b₁ ++ '=' :: (b₂ ++ '[' :: (e ++ (b₃ ++ (r.text ++ rangeRest args b₄ ']')))))) =
          some (cx.writes
            [cx.assign "index" "0", cx.line header, cx.assignInner (x ++ "[index]") element,
              cx.assignInner "index" "index + 1",
              cx.line (cx.style.terminator .forLoop (some r.var) none)]) := by
  have hparen := hargs.not_mem_paren
  obtain ⟨bounds, hbounds, hstart, hstop, hstep⟩ := exists_rangeBounds hst hargs hs hlow hhigh
  have hheader := hst ▸ CountingLoop.ofHeader?_forHeader (isWordChar_of_fits r.fits) hstart hstop hstep
  obtain ⟨items, hitems, hruns⟩ := CountingLoop.exists_runs_range r.var a b hs
  refine ⟨_, _, items, hheader, rfl, hitems, hruns, fun b₄ hb₄ => ?_, ?_⟩
  · exact rangeRule_of_rangeBounds hline hparen hb₄
      (hbounds _ fun p n h => by rw [Setting.trim_of_integer? h])
  · intro x b₁ b₂ e b₃ b₄ hx hb hne he hb₃ hrange
    simp only [List.forall_mem_append] at hb
    obtain ⟨⟨⟨hb₁, hb₂⟩, hb₃'⟩, hb₄⟩ := hb
    exact comprehensionRule_of_rangeBounds hline hparen hb₄
      (hbounds _ fun p n h => by rw [Setting.trim_of_integer? h]) hx hb₁ hb₂ ⟨hb₃, hb₃'⟩ ⟨hne, he⟩ hrange

/-- A range that goes down, in a header and in a comprehension. -/
theorem range_loops_keep_items_down :
    let cx : Context :=
      { style := .cambridge, convention := .indentation, symbols := {}, blocks := [], written := 0,
        indent := [] }
    RangeArgs "10, -1, -3" 10 (-1) (-3) ∧ ∃ header loop items element,
      rangeRule cx "for i in range(10, -1, -3):" = some (cx.opens [cx.line header] (.loop "i")) ∧
      comprehensionRule cx "xs = [sum(i * j for j in row) for i in range(10, -1, -3)]" =
        some (cx.writes [cx.assign "index" "0", cx.line header, cx.assignInner "xs[index]" element,
          cx.assignInner "index" "index + 1", cx.line (cx.style.terminator .forLoop (some "i") none)]) ∧
      CountingLoop.ofHeader? header = some loop ∧ (∀ values, loop.Runs values ↔ values = items) ∧
      items[0]? = some 10 ∧ items[3]? = some 1 ∧ items[4]? = none := by
  intro cx
  have hargs : RangeArgs "10, -1, -3" 10 (-1) (-3) :=
    .step (p := "10") (q := " -1") (r := " -3") (by decide) (by decide) (by decide)
  have hspace : " ".toList ≠ [] ∧ ∀ c ∈ " ".toList, isBlank c = true :=
    ⟨by decide, List.all_eq_true.mp (by decide)⟩
  let r : RangeOpening :=
    { var := "i", gap₁ := " ", gap₂ := " ", gap₃ := " ", gap₄ := [], fits := by decide
      blank₁ := hspace, blank₂ := hspace, blank₃ := hspace, blank₄ := List.forall_mem_nil _ }
  obtain ⟨header, loop, items, hheader, _, hitems, hruns, hrule, hcomprehension⟩ :=
    @range_loops_keep_items cx rfl r _ _ _ _ hargs (List.all_eq_true.mp (by decide)) (by decide) (by decide)
      (by decide)
  -- the generator in the element goes over no range
  have hrange (r' : RangeOpening) (u w : Text) : "sum(i * j for j in row)".toList ≠ u ++ (r'.text ++ w) := by
    intro h
    have hmem : 'g' ∈ "sum(i * j for j in row)".toList := by
      rw [h]
      simp [RangeOpening.text, RangeOpening.inner]
    exact absurd hmem (by decide)
  obtain ⟨element, helement⟩ := hcomprehension "xs" " " " " "sum(i * j for j in row)" " " [] (by decide)
    (List.all_eq_true.mp (by decide)) (by decide) (List.all_eq_true.mp (by decide)) (by decide) hrange
  exact ⟨hargs, header, loop, items, element, hrule [] (by simp), helement, hheader, hruns, hitems 0, hitems 3,
    hitems 4⟩

/-- The range of a nested comprehension is taken for that of the outer one, and what is written is no
header of a loop. -/
theorem nested_range_taken :
    let o : Options := ⟨.indentation, .cambridge⟩
    let header : Text := "FOR j ← 0 TO 3)] for i in range(4 - 1"
    (Run.ofLines o [⟨1, .code, [], 0, "x = [[0 for j in range(3)] for i in range(4)]", none⟩]).state.output =
        ["index ← 0".toList, header, "   x[index] ← [0".toList, "   index ← index + 1".toList,
          "NEXT j".toList] ∧
      CountingLoop.ofHeader? header = none := by
  decide +kernel

end Indented

end Pseudocode
