import Pseudocode.Proofs.ArithmeticSpelling
import Pseudocode.Rule.Phrase

/-! # Counting loops

A counting loop goes from a first value to a last one, both included, in steps of a fixed size. Its header
is read back from the text that is written for it, and the values of its variable are those of its passes,
one after another. -/

namespace Pseudocode

namespace Text

open Arithmetic

/-! ### Integers in text -/

/-- An integer with an optional sign. -/
def integer? (s : Text) : Option Int :=
  match s with
  | '-' :: ds => (digits? ds).map fun n : Nat => -(n : Int)
  | '+' :: ds => (digits? ds).map fun n : Nat => (n : Int)
  | ds => (digits? ds).map fun n : Nat => (n : Int)

theorem digits?_eq_some {s : Text} {n : Nat} (h : digits? s = some n) :
    s ≠ [] ∧ ∀ c ∈ s, c.isDigit = true := by
  unfold digits? at h
  split at h
  · cases h
  · next hs => simpa using hs

theorem digits?_ofNat (n : Nat) : digits? (ofNat n) = some n := by
  have hne : (ofNat n).isEmpty = false := by simp [ofNat]
  have hall : (ofNat n).all Char.isDigit = true :=
    List.all_eq_true.mpr fun c hc => Nat.isDigit_of_mem_toDigits (by decide) (by decide) hc
  have hvalue : (ofNat n).foldl (fun n c => 10 * n + (c.toNat - '0'.toNat)) 0 = n := by
    rw [← Nat.ofDigitChars_eq_foldl]
    exact Nat.ofDigitChars_ten_toDigits
  simp only [digits?, hne, hall, hvalue]
  rfl

theorem integer?_of_digits? {s : Text} {n : Nat} (h : digits? s = some n) : integer? s = some (n : Int) := by
  obtain ⟨_, hs⟩ := digits?_eq_some h
  unfold integer?
  split
  · exact absurd (hs '-' (by simp)) (by decide)
  · exact absurd (hs '+' (by simp)) (by decide)
  · rw [h]
    rfl

theorem integer?_ofInt (n : Int) : integer? (ofInt n) = some n := by
  cases n with
  | ofNat n => exact integer?_of_digits? (digits?_ofNat n)
  | negSucc n =>
    simp only [ofInt, integer?, digits?_ofNat]
    rfl

/-- The characters of an integer. -/
def isNumeric (c : Char) : Bool := c.isDigit || c == '-' || c == '+'

theorem exists_of_integer? {s : Text} {n : Int} (h : integer? s = some n) :
    ∃ sign ds, s = sign ++ ds ∧ (sign = [] ∨ sign = ['-'] ∨ sign = ['+']) ∧ ds ≠ [] ∧
      ∀ c ∈ ds, c.isDigit = true := by
  unfold integer? at h
  split at h <;> obtain ⟨m, hm, _⟩ := Option.map_eq_some_iff.mp h
  · exact ⟨['-'], _, rfl, by simp, digits?_eq_some hm⟩
  · exact ⟨['+'], _, rfl, by simp, digits?_eq_some hm⟩
  · exact ⟨[], _, rfl, by simp, digits?_eq_some hm⟩

theorem isNumeric_of_integer? {s : Text} {n : Int} (h : integer? s = some n) :
    s ≠ [] ∧ ∀ c ∈ s, isNumeric c = true := by
  obtain ⟨sign, ds, rfl, hsign, hne, hds⟩ := exists_of_integer? h
  refine ⟨by simp [hne], fun c hc => ?_⟩
  rcases List.mem_append.mp hc with hc | hc
  · rcases hsign with rfl | rfl | rfl
    · cases hc
    · obtain rfl := List.mem_singleton.mp hc
      decide
    · obtain rfl := List.mem_singleton.mp hc
      decide
  · simp [isNumeric, hds c hc]

/-- With white space around an integer, its characters are the only others. -/
theorem isBlank_or_isNumeric {s : Text} {n : Int} (h : integer? (trim s) = some n) {c : Char} (hc : c ∈ s) :
    isBlank c = true ∨ isNumeric c = true := by
  obtain ⟨b₁, b₂, hs, hb₁, hb₂⟩ := exists_trim s
  rw [hs, List.mem_append, List.mem_append] at hc
  rcases hc with hc | hc | hc
  · exact .inl (hb₁ c hc)
  · exact .inr ((isNumeric_of_integer? h).2 c hc)
  · exact .inl (hb₂ c hc)

theorem notMem_of_integer? {s : Text} {n : Int} (h : integer? (trim s) = some n) {d : Char}
    (hd : (isBlank d || isNumeric d) = false) : d ∉ s := by
  intro hmem
  simp only [Bool.or_eq_false_iff] at hd
  rcases isBlank_or_isNumeric h hmem with hblank | hnumeric
  · rw [hd.1] at hblank
    cases hblank
  · rw [hd.2] at hnumeric
    cases hnumeric

theorem isNumeric_plain {c : Char} (h : isNumeric c = true) :
    isQuote c = false ∧ bracketWeight c = 0 ∧ isBlank c = false ∧ c ≠ ',' ∧ c ≠ '[' ∧ c ≠ '(' ∧
      isForeign c = false := by
  simp only [isNumeric, Bool.or_eq_true, beq_iff_eq] at h
  rcases h with (h | rfl) | rfl
  · have hword : isWordChar c = true := by
      have hlt : c.toNat < 128 := Nat.lt_of_le_of_lt (of_decide_eq_true (Bool.and_eq_true_iff.mp h).2) (by decide)
      simp [isWordChar, hlt, Char.isAlphanum, h]
    have hne {d : Char} (hd : isWordChar d = false) : c ≠ d := by
      rintro rfl
      rw [hword] at hd
      cases hd
    refine ⟨?_, ?_, isBlank_of_isWordChar hword, hne (by decide), hne (by decide), hne (by decide),
      isForeign_of_isWordChar hword⟩
    · simp [isQuote, hne (show isWordChar '"' = false by decide),
        hne (show isWordChar '\'' = false by decide)]
    · simp [bracketWeight, hne (show isWordChar '(' = false by decide),
        hne (show isWordChar '[' = false by decide), hne (show isWordChar '{' = false by decide),
        hne (show isWordChar ')' = false by decide), hne (show isWordChar ']' = false by decide),
        hne (show isWordChar '}' = false by decide)]
  · decide
  · decide

theorem startsWith_minus_iff {s : Text} {n : Int} (h : integer? s = some n) (hn : n ≠ 0) :
    startsWith "-" s = true ↔ n < 0 := by
  unfold integer? at h
  split at h <;> obtain ⟨m, hm, rfl⟩ := Option.map_eq_some_iff.mp h
  · simp [startsWith]
    omega
  · simp [startsWith]
  · next hminus _ =>
    have hnot : startsWith "-" s = false := by
      cases s with
      | nil => rfl
      | cons c s =>
        have hc : '-' ≠ c := by
          rintro rfl
          exact hminus s rfl
        simp [startsWith, List.isPrefixOf, hc]
    rw [hnot]
    simp

theorem signed64?_of_integer? {s : Text} {n : Int} (h : integer? s = some n)
    (hlow : -(signedLimit : Int) ≤ n) (hhigh : n < signedLimit) : signed64? s = some n := by
  unfold integer? at h
  unfold signed64?
  split at h <;> obtain ⟨m, hm, rfl⟩ := Option.map_eq_some_iff.mp h
  · simp only [hm, Option.bind_some]
    rw [if_pos (by omega)]
  · simp only [hm, Option.bind_some]
    rw [if_pos (by omega)]
  · simp only [hm, Option.bind_some]
    rw [if_pos (by omega)]

/-! ### Words and white space between them -/

theorem head?_word_append {w : Text} (hw : IsWord w) (s : Text) : (w ++ s).head?.any isBlank = false := by
  obtain ⟨c, cs, rfl⟩ := List.exists_cons_of_ne_nil hw.1
  exact isBlank_of_isWordChar (hw.2 c (by simp))

/-- After a word there is white space or no word. -/
theorem head?_blank_append {b s : Text} (hb : ∀ c ∈ b, isBlank c = true)
    (hs : b = [] → s.head?.any isWordChar = false) : (b ++ s).head?.any isWordChar = false := by
  cases b with
  | nil => exact hs rfl
  | cons c b => exact isWordChar_of_isBlank (hb c (by simp))

end Text

namespace Setting

open Text Pattern Arithmetic

/-! ### Integers are expressions -/

variable {s : Text} {n : Int}

theorem trim_of_integer? (h : integer? s = some n) : trim s = s :=
  trim_eq_self fun c hc => (isNumeric_plain ((isNumeric_of_integer? h).2 c hc)).2.2.1

private theorem concatenate_of_integer? (st : Setting) (h : integer? s = some n) : st.concatenate s = s := by
  have hplain : ∀ c ∈ s, isQuote c = false ∧ bracketWeight c = 0 := fun c hc =>
    have hc := isNumeric_plain ((isNumeric_of_integer? h).2 c hc)
    ⟨hc.1, hc.2.1⟩
  have hdigits {ds : Text} (hds : ∀ c ∈ ds, c.isDigit = true) : '+' ∉ ds := fun hc =>
    absurd (hds _ hc) (by decide)
  have hone (hplus : '+' ∉ s) : st.concatenate s = s := by
    have hshort : (splitTopLevel '+' s).length < 2 := by
      by_cases hnil : splitTopLevel '+' s = []
      · simp [hnil]
      · simp [splitTopLevel_of_ne_nil hnil, splitFrom_of_plain hplain hplus]
    simp [concatenate, hshort]
  obtain ⟨sign, ds, rfl, hsign, hne, hds⟩ := exists_of_integer? h
  rcases hsign with rfl | rfl | rfl
  · exact hone (hdigits hds)
  · exact hone (by simpa using hdigits hds)
  · have hempty : (splitTopLevel '+' ('+' :: ds)).any List.isEmpty = true := by
      rw [splitTopLevel, splitFrom_separator (by decide)]
      rfl
    simp only [List.cons_append, List.nil_append]
    simp only [concatenate, hempty, Bool.or_true, Bool.true_or, if_true]

private theorem respellCode_of_integer? {st : Setting} {d : Dialect} (hst : st.style = d.style)
    (h : integer? s = some n) : st.respellCode s = s := by
  obtain ⟨hne, hs⟩ := isNumeric_of_integer? h
  have hplain : Plain (reserved st.convention) s := by
    refine ⟨fun c hc => (isNumeric_plain (hs c hc)).2.2.2.2.2.2, fun w hw hm => ?_, ?_⟩
    · have hall : ∀ w ∈ reserved st.convention, w.any (fun c => !isNumeric c) = true := by
        cases st.convention <;> decide
      obtain ⟨c, hc, hnot⟩ := List.any_eq_true.mp (hall w hw)
      simp [hs c (mem_of_mem_lexemes hm hc)] at hnot
    · have hchain := isChain_plain (s := []) (fun c hc => (isNumeric_plain (hs c hc)).2.2.2.2.2.1) .nil
        (by simp) ' '
      simpa using hchain.tail
  have hlexemes : lexemes s ≠ [] := by
    obtain ⟨c, cs, rfl⟩ := List.exists_cons_of_ne_nil hne
    obtain ⟨w, ws, hw⟩ := exists_lexemes_cons (isNumeric_plain (hs c (by simp))).2.2.1 cs
    simp [hw]
  have hkeeps {op : String} {new : Text} (hop : op.toList.any (fun c => !isNumeric c) = true) :
      Setting.respell op new s = s :=
    replace_of_needs (p := gap ++ (op : Pattern) ++ gap) (q := fun c => !isNumeric c)
      (Bool.or_eq_true_iff.mpr (.inl (Bool.or_eq_true_iff.mpr (.inr hop))))
      (fun c hc => by simp [hs c hc])
  rw [respellCode_eq hst hplain hlexemes, spellAll, Setting.pythonArithmetic, hkeeps (by decide),
    hkeeps (by decide), ite_self, hkeeps (by decide)]

theorem expr_of_integer? {st : Setting} {d : Dialect} (hst : st.style = d.style)
    (h : integer? (trim s) = some n) : st.expr s = trim s := by
  have hplain (c : Char) (hc : c ∈ trim s) := isNumeric_plain ((isNumeric_of_integer? h).2 c hc)
  rw [expr_eq_of_concatenate (fun c hc => ⟨(hplain c hc).1, (hplain c hc).2.2.2.2.1⟩)
    (concatenate_of_integer? st h), respellCode_of_integer? hst h]

end Setting

/-! ### Bounds moved by one -/

theorem integer?_offsetBound {s : Text} {n delta : Int} (h : Text.integer? s = some n)
    (hn : -(Text.signedLimit : Int) ≤ n ∧ n < Text.signedLimit)
    (hmoved : -(Text.signedLimit : Int) ≤ n + delta ∧ n + delta < Text.signedLimit) :
    Text.integer? (offsetBound delta s) = some (n + delta) := by
  have hword : (n + delta).bmod Text.unsignedLimit = n + delta :=
    Int.bmod_eq_of_le (by simp only [Text.signedLimit, Text.unsignedLimit] at hmoved ⊢; omega)
      (by simp only [Text.signedLimit, Text.unsignedLimit] at hmoved ⊢; omega)
  unfold offsetBound
  simp only [Setting.trim_of_integer? h, Text.signed64?_of_integer? h hn.1 hn.2, hword, Text.integer?_ofInt]

/-! ### Passes of a loop -/

/-- The values of a variable in the passes of a loop, from a value on: each value for which the loop goes
on has its pass, and `next` gives the value after it. -/
inductive Passes (goesOn : Int → Prop) (next : Int → Int) : Int → List Int → Prop
  | done {i : Int} (h : ¬ goesOn i) : Passes goesOn next i []
  | pass {i : Int} {values : List Int} (h : goesOn i) (hrest : Passes goesOn next (next i) values) :
      Passes goesOn next i (i :: values)

namespace Passes

variable {goesOn goesOn' : Int → Prop} {next next' : Int → Int} {i : Int} {values values' : List Int}

@[simp] theorem nil_iff : Passes goesOn next i [] ↔ ¬ goesOn i := by
  constructor
  · intro h
    cases h with
    | done h => exact h
  · exact .done

@[simp] theorem cons_iff {j : Int} :
    Passes goesOn next i (j :: values) ↔ i = j ∧ goesOn i ∧ Passes goesOn next (next i) values := by
  constructor
  · intro h
    cases h with
    | pass h hrest => exact ⟨rfl, h, hrest⟩
  · rintro ⟨rfl, h, hrest⟩
    exact .pass h hrest

theorem unique (h : Passes goesOn next i values) (h' : Passes goesOn next i values') : values = values' := by
  induction h generalizing values' with
  | done hstop =>
    cases h' with
    | done => rfl
    | pass hgo => exact absurd hgo hstop
  | pass hgo _ ih =>
    cases h' with
    | done hstop => exact absurd hgo hstop
    | pass _ hrest => rw [ih hrest]

theorem congr (h : Passes goesOn next i values) (hgo : ∀ j, goesOn j ↔ goesOn' j)
    (hnext : ∀ j ∈ values, next j = next' j) : Passes goesOn' next' i values := by
  induction h with
  | done hstop => exact .done fun h => hstop ((hgo _).mpr h)
  | pass h _ ih =>
    obtain ⟨hi, hnext⟩ := List.forall_mem_cons.mp hnext
    exact .pass ((hgo _).mp h) (hi ▸ ih hnext)

end Passes

/-- A loop over a variable from a first to a last value in steps of one size. -/
structure CountingLoop where
  var : Text
  first : Int
  last : Int
  step : Int
  deriving DecidableEq, Repr

namespace CountingLoop

/-- Both bounds belong to the loop. -/
def GoesOn (l : CountingLoop) (i : Int) : Prop := if 0 ≤ l.step then i ≤ l.last else l.last ≤ i

/-- The values of the variable in all passes of the loop. -/
def Runs (l : CountingLoop) (values : List Int) : Prop := Passes l.GoesOn (· + l.step) l.first values

/-! ### Headers -/

open Text

/-- The loop of a header that has been cut into words. Without a step the loop counts by one. -/
def ofWords? : List Text → Option CountingLoop
  | [w₁, var, w₂, first, w₃, last] => do
    guard (w₁ = "FOR" ∧ w₂ = "←" ∧ w₃ = "TO")
    return ⟨var, ← integer? first, ← integer? last, 1⟩
  | [w₁, var, w₂, first, w₃, last, w₄, step] => do
    guard (w₁ = "FOR" ∧ w₂ = "←" ∧ w₃ = "TO" ∧ w₄ = "STEP")
    return ⟨var, ← integer? first, ← integer? last, ← integer? step⟩
  | _ => none

def ofHeader? (header : Text) : Option CountingLoop := ofWords? (words header)

end CountingLoop

namespace Text

@[simp] theorem words_nil : words [] = [] := rfl

theorem words_space (s : Text) : words (' ' :: s) = words s := by
  simp [words, show isBlank ' ' = true by decide]

theorem words_append {w s : Text} (hne : w ≠ []) (hw : ∀ c ∈ w, isBlank c = false)
    (hs : ∀ c ∈ s.head?, isBlank c = true) : words (w ++ s) = w :: words s := by
  induction w with
  | nil => exact absurd rfl hne
  | cons c w ih =>
    obtain ⟨hc, hw⟩ := List.forall_mem_cons.mp hw
    cases w with
    | nil =>
      cases s with
      | nil => simp [words, hc]
      | cons d s => simp [words, hc, hs d rfl]
    | cons d w =>
      have ih := ih (by simp) hw
      have hd := hw d (by simp)
      simp only [List.cons_append] at ih ⊢
      rw [words, if_neg (by simp [hc])]
      simp only [hd, ih, Bool.false_eq_true, if_false]

theorem words_append_space {w : Text} (hne : w ≠ []) (hw : ∀ c ∈ w, isBlank c = false) (s : Text) :
    words (w ++ ' ' :: s) = w :: words s := by
  rw [words_append hne hw (by simp; decide), words_space]

/-! ### Slots -/

/-- Nothing is replaced in a text that lacks a character of what is looked for. -/
theorem replaceAll_of_not_mem {needle s : Text} {c : Char} (hc : c ∈ needle) (hs : c ∉ s) (new : Text) :
    replaceAll needle new s = s := by
  rw [Pattern.replaceAll_eq (List.ne_nil_of_mem hc)]
  refine Pattern.replace_of_needs (q := (· == c)) ?_ fun d hd => ?_
  · exact List.any_eq_true.mpr ⟨c, hc, beq_self_eq_true c⟩
  · simp only [beq_eq_false_iff_ne, ne_eq]
    rintro rfl
    exact hs hd

/-- A slot that occurs once is filled in its place. -/
theorem replaceAll_slot {c d : Char} (lead cs rest new : Text) (hlead : c ∉ lead)
    (hd : d ∈ c :: cs) (hrest : d ∉ rest) :
    replaceAll (c :: cs) new (lead ++ (c :: (cs ++ rest))) = lead ++ (new ++ rest) := by
  have hskip (s : Text) : replaceFrom (c :: cs) new s.length (s ++ rest) = rest := by
    induction s with
    | nil => exact replaceAll_of_not_mem hd hrest new
    | cons _ s ih => exact ih
  induction lead with
  | nil =>
    have hprefix : (c :: cs).isPrefixOf (c :: (cs ++ rest)) = true :=
      List.isPrefixOf_iff_prefix.mpr (List.prefix_append (c :: cs) rest)
    rw [List.nil_append, replaceAll, replaceFrom, if_pos hprefix]
    exact congrArg (new ++ ·) (hskip cs)
  | cons e lead ih =>
    rw [List.mem_cons, not_or] at hlead
    simp only [replaceAll] at ih ⊢
    rw [List.cons_append, replaceFrom, if_neg (by simp [List.isPrefixOf, hlead.1]), ih hlead.2]
    rfl

end Text

section

open Text

private theorem Style.forHeader_cambridge {var first : Text} (hvar : '{' ∉ var) (hfirst : '{' ∉ first) (last : Text)
    (step : Option Text) :
    Style.cambridge.forHeader var first last step =
      "FOR " ++ var ++ " ← " ++ first ++ " TO " ++ last ++ step.elim [] (" STEP ".toList ++ ·) := by
  have htemplate : Style.cambridge.forTemplate = "FOR ".toList ++ '{' :: ("var\x7d".toList ++ (" ← ".toList ++
      '{' :: ("start\x7d".toList ++ (" TO ".toList ++ '{' :: ("end\x7d".toList ++ []))))) := by decide
  have hlead : '{' ∉ "FOR ".toList ++ (var ++ " ← ".toList) := by simpa using hvar
  have hlead' : '{' ∉ "FOR ".toList ++ (var ++ (" ← ".toList ++ (first ++ " TO ".toList))) := by
    simpa using ⟨hvar, hfirst⟩
  have hslots : fill Style.cambridge.forTemplate [("var", var), ("start", first), ("end", last)] =
      "FOR " ++ var ++ " ← " ++ first ++ " TO " ++ last := by
    change replaceAll ('{' :: "end\x7d".toList) last (replaceAll ('{' :: "start\x7d".toList) first
      (replaceAll ('{' :: "var\x7d".toList) var Style.cambridge.forTemplate)) = _
    have hfirst := replaceAll_slot (d := 's') _ "start\x7d" (" TO ".toList ++ '{' :: ("end\x7d".toList ++ []))
      first hlead (by decide) (by decide)
    have hlast := replaceAll_slot (d := 'e') _ "end\x7d" [] last hlead' (by decide) (by decide)
    simp only [List.append_assoc] at hfirst hlast ⊢
    rw [htemplate, replaceAll_slot (d := 'v') _ _ _ _ (by decide) (by decide) (by decide), hfirst, hlast,
      List.append_nil]
  cases step with
  | none => simpa [forHeader] using hslots
  | some step =>
    have hstep : fill " STEP \x7bstep\x7d" [("step", step)] = " STEP ".toList ++ step :=
      congrArg (" STEP ".toList ++ ·) (List.append_nil step)
    exact congrArg₂ (· ++ ·) hslots hstep

end

namespace CountingLoop

open Text Arithmetic

/-- A loop can be read back from its header. -/
theorem ofHeader?_forHeader {var first last : Text} {step : Option Text} {a b k : Int}
    (hvar : IsWord var) (ha : integer? first = some a) (hb : integer? last = some b)
    (hk : step.elim (some 1) integer? = some k) :
    ofHeader? (Style.cambridge.forHeader var first last step) = some ⟨var, a, b, k⟩ := by
  have hnumber {s : Text} {n : Int} (h : integer? s = some n) :
      s ≠ [] ∧ (∀ c ∈ s, isBlank c = false) ∧ '{' ∉ s := by
    obtain ⟨hne, hs⟩ := isNumeric_of_integer? h
    exact ⟨hne, fun c hc => (isNumeric_plain (hs c hc)).2.2.1, fun hc => absurd (hs _ hc) (by decide)⟩
  have hblank : ∀ c ∈ var, isBlank c = false := fun c hc => isBlank_of_isWordChar (hvar.2 c hc)
  have hbrace : '{' ∉ var := fun hc => absurd (hvar.2 _ hc) (by decide)
  obtain ⟨hane, hablank, habrace⟩ := hnumber ha
  obtain ⟨hbne, hbblank, _⟩ := hnumber hb
  have hword (w : Text) (hw : w.all (fun c => !isBlank c) = true) : ∀ c ∈ w, isBlank c = false := by
    simpa using hw
  have hwords (s : Text) (hs : ∀ c ∈ s.head?, isBlank c = true) :
      words ("FOR " ++ var ++ " ← " ++ first ++ " TO " ++ last ++ s) =
        ["FOR".toList, var, "←".toList, first, "TO".toList, last] ++ words s := by
    have hcut : "FOR ".toList ++ var ++ " ← ".toList ++ first ++ " TO ".toList ++ last ++ s =
        "FOR".toList ++ ' ' :: (var ++ ' ' :: ("←".toList ++ ' ' :: (first ++ ' ' :: ("TO".toList ++
          ' ' :: (last ++ s))))) := by
      simp
    rw [hcut, words_append_space (by decide) (hword "FOR" (by decide)), words_append_space hvar.1 hblank,
      words_append_space (by decide) (hword "←" (by decide)), words_append_space hane hablank,
      words_append_space (by decide) (hword "TO" (by decide)), words_append hbne hbblank hs]
    rfl
  rw [ofHeader?, Style.forHeader_cambridge hbrace habrace]
  cases step with
  | none =>
    rw [Option.elim_none, hwords [] (by simp)]
    obtain rfl := Option.some.inj hk
    simp [ofWords?, ha, hb]
  | some step =>
    obtain ⟨hkne, hkblank, _⟩ := hnumber hk
    rw [Option.elim_some, hwords _ (by simp; decide)]
    have hstep : words (" STEP ".toList ++ step) = ["STEP".toList, step] := by
      have hstep := words_append hkne hkblank (s := []) (by simp)
      rw [List.append_nil] at hstep
      have hcut : " STEP ".toList ++ step = ' ' :: ("STEP".toList ++ ' ' :: step) := rfl
      rw [hcut, words_space, words_append_space (by decide) (hword "STEP" (by decide)), hstep, words_nil]
    rw [hstep]
    simp [ofWords?, ha, hb, show integer? step = some k from hk]

end CountingLoop

end Pseudocode
