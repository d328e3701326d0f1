import Pseudocode.Expr
import Pseudocode.Proofs.ArithmeticReading
import Pseudocode.Proofs.CodeSegments
import Pseudocode.Proofs.PatternReplacing

/-! # Arithmetic in the spelling of a dialect

Powers, integer divisions and remainders are spelled anew, and all else of a text of arithmetic stays, so
its words and signs are those of the source, each in the spelling of the dialect. -/

namespace Pseudocode

/-- The words of a source that are no names. -/
def Convention.logicWords : Convention → List Text
  | .indentation => ["and", "or", "not", "True", "False"]
  | .braces => ["true", "false"]

namespace Arithmetic

open Text Pattern

/-! ### Respelling a sign -/

/-- A sign that is cut from the text after it. -/
structure IsSign (op : Text) : Prop where
  ne_nil : op ≠ []
  apart : ∀ c ∈ op.head?, isBlank c = false ∧ isWordChar c = false
  lexemes_append : ∀ s, lexemes (op ++ s) = op :: lexemes s
  /-- No such sign begins inside another one. -/
  double : ∀ c d s, isDouble c d = true → op <+: d :: s → op <+: c :: d :: s

theorem isSign_double {c : Char} (h : c = '*' ∨ c = '/') : IsSign [c, c] := by
  have hdouble : isDouble c c = true := by rcases h with rfl | rfl <;> decide
  refine ⟨by simp, ?_, lexemes_cons_of_isDouble hdouble, ?_⟩
  · rintro d ⟨⟩
    rcases h with rfl | rfl <;> decide
  · intro d e s hde hp
    obtain ⟨rfl, _⟩ : c = e ∧ _ := by simpa using hp
    obtain rfl : d = c := eq_of_beq (Bool.and_eq_true_iff.mp hde).1
    simp

theorem isSign_power : IsSign "**".toList := isSign_double (.inl rfl)

theorem isSign_quotient : IsSign "//".toList := isSign_double (.inr rfl)

theorem isSign_remainder : IsSign "%".toList := by
  change IsSign ['%']
  refine ⟨by simp, ?_, fun s => ?_, ?_⟩
  · rintro d ⟨⟩
    decide
  · refine lexemes_cons_of_not_joins (by decide) fun d _ => ?_
    simp [joins, isDouble, show isWordChar '%' = false by decide]
  · intro c d s hcd hp
    obtain rfl : '%' = d := by simpa using hp
    obtain rfl := eq_of_beq (Bool.and_eq_true_iff.mp hcd).1
    cases hcd

/-- Two characters that are no word and the parenthesis of a call. -/
def NoCall (c d : Char) : Prop := ¬ (isWordChar c = true ∧ d = '(')

theorem isChain_noCall {s : Text} (h : (lexemes s).IsChain fun a b => ¬ (IsWord a ∧ b = ['('])) :
    s.IsChain NoCall := by
  fun_induction lexemes s with
  | case1 => exact .nil
  | case2 | case3 => exact .singleton _
  | case4 c d cs hc ih =>
    refine List.isChain_cons_cons.mpr ⟨fun hcall => ?_, ih h⟩
    rw [isWordChar_of_isBlank hc] at hcall
    exact Bool.false_ne_true hcall.1
  | case5 c d cs _ hword ih =>
    obtain ⟨hwc, hwd⟩ := Bool.and_eq_true_iff.mp hword
    obtain ⟨w, ws, hw⟩ := exists_lexemes_cons (isBlank_of_isWordChar hwd) cs
    rw [hw] at ih h
    obtain ⟨hhead, htail⟩ := List.isChain_cons.mp h
    refine List.isChain_cons_cons.mpr ⟨?_, ih (List.isChain_cons.mpr ⟨?_, htail⟩)⟩
    · rintro ⟨_, rfl⟩
      exact absurd hwd (by decide)
    · exact fun b hb hcall => hhead b hb ⟨⟨by simp, List.forall_mem_cons.mpr ⟨hwc, hcall.1.2⟩⟩, hcall.2⟩
  | case6 c d cs _ hword hdouble ih =>
    obtain rfl := eq_of_beq (Bool.and_eq_true_iff.mp hdouble).1
    have hsign : isWordChar c = false := by simpa using hword
    have hapart (e : Char) : NoCall c e := fun hcall => by simp [hsign] at hcall
    exact List.isChain_cons_cons.mpr ⟨hapart c, List.isChain_cons.mpr ⟨fun e _ => hapart e, ih h.tail⟩⟩
  | case7 c d cs hc hword hdouble ih =>
    refine List.isChain_cons_cons.mpr ⟨?_, ih h.tail⟩
    rintro ⟨hwc, rfl⟩
    have hparen : lexemes ('(' :: cs) = ['('] :: lexemes cs :=
      lexemes_cons_of_not_joins (by decide) fun e _ => by
        simp [joins, isDouble, show isWordChar '(' = false by decide]
    rw [hparen, List.isChain_cons_cons] at h
    exact h.1 ⟨⟨by simp, by simpa using hwc⟩, rfl⟩

/-- A text without opening parentheses may stand before a text that does not begin with one. -/
theorem isChain_plain {x s : Text} (hx : ∀ c ∈ x, c ≠ '(') (hs : s.IsChain NoCall) (hhead : ∀ c ∈ s.head?, c ≠ '(')
    (c : Char) : (c :: (x ++ s)).IsChain NoCall := by
  induction x generalizing c with
  | nil => exact List.isChain_cons.mpr ⟨fun d hd h => hhead d hd h.2, hs⟩
  | cons d x ih =>
    obtain ⟨hd, hx⟩ := List.forall_mem_cons.mp hx
    exact List.isChain_cons_cons.mpr ⟨fun h => hd h.2, ih hx d⟩

/-- A character that is no word may stand before anything. -/
theorem isChain_apart {s : Text} (hs : s.IsChain NoCall) {c : Char} (hc : isWordChar c = false) :
    (c :: s).IsChain NoCall :=
  List.isChain_cons.mpr ⟨fun d _ h => by simp [hc] at h, hs⟩

theorem isChain_spaced {new s : Text} (hnew : ∀ c ∈ new, c ≠ '(') (hs : s.IsChain NoCall) (c : Char) :
    (c :: (new ++ ' ' :: s)).IsChain NoCall :=
  isChain_plain hnew (isChain_apart hs (by decide)) (by rintro d ⟨⟩; decide) c

section

variable {op : String}

/-- White space, the sign and white space. -/
theorem reads_sign {s : Text} {g : Groups} (h : Reads (gap ++ (op : Pattern) ++ gap) s g) :
    ∃ b₁ b₂, s = b₁ ++ (op.toList ++ b₂) ∧ (∀ c ∈ b₁, isBlank c = true) ∧ (∀ c ∈ b₂, isBlank c = true) := by
  obtain ⟨_, b₂, _, _, rfl, _, h₁, hgap₂⟩ := reads_append.mp h
  obtain ⟨b₁, _, _, _, rfl, _, hgap₁, htext⟩ := reads_append.mp h₁
  obtain ⟨rfl, _⟩ := reads_text.mp htext
  exact ⟨b₁, b₂, by simp, (reads_most.mp hgap₁).1, (reads_most.mp hgap₂).1⟩

variable (hop : IsSign op.toList) (new : Text)

include hop

/-- Respells a sign in the rest of a text. -/
def respellFrom (op : String) (new seen s : Text) : Text :=
  replaceFrom (gap ++ (op : Pattern) ++ gap) (fun _ => " " ++ new ++ " ") 0 seen s

theorem respell_cases (seen : Text) (c : Char) (cs : Text) :
    (∃ b₁ b₂ rest seen', c :: cs = b₁ ++ (op.toList ++ (b₂ ++ rest)) ∧
      (∀ d ∈ b₁, isBlank d = true) ∧ (∀ d ∈ b₂, isBlank d = true) ∧
      respellFrom op new seen (c :: cs) = ' ' :: (new ++ ' ' :: respellFrom op new seen' rest)) ∨
    ¬ op.toList <+: c :: cs ∧
      respellFrom op new seen (c :: cs) = c :: respellFrom op new (c :: seen) cs := by
  rcases replaceFrom_cases (gap ++ (op : Pattern) ++ gap) (fun _ => " " ++ new ++ " ") seen c cs with
    ⟨m, rest, _, hrest, _, _, hway, hreplace⟩ | ⟨hnone, hkeep⟩
  · obtain ⟨b₁, b₂, htext, hb₁, hb₂⟩ := reads_sign hway.reads
    refine .inl ⟨b₁, b₂, rest, m.text.reverse ++ seen, ?_, hb₁, hb₂, ?_⟩
    · rw [hrest, htext]
      simp
    · rw [respellFrom, hreplace]
      simp [respellFrom]
  · refine .inr ⟨fun hp => ?_, hkeep⟩
    obtain ⟨rest, hrest⟩ := hp
    have hreads : Reads (gap ++ (op : Pattern) ++ gap) op.toList [] := by
      have hseq : Reads (gap ++ (op : Pattern) ++ gap) ([] ++ op.toList ++ []) [] :=
        .seq (.seq (.most (List.forall_mem_nil _)) (.text op.toList)) (.most (List.forall_mem_nil _))
      simpa using hseq
    obtain ⟨m, hm⟩ := exists_at? (hreads.way rfl seen rest)
    rw [hrest] at hm
    obtain ⟨rest', hrest', hway, _⟩ := way_of_at? hm
    obtain ⟨b₁, b₂, htext, _⟩ := reads_sign hway.reads
    rw [hnone m hm] at htext
    have hlength := congrArg List.length htext
    have hpos := List.length_pos_iff.mpr hop.ne_nil
    simp only [List.length_nil, List.length_append] at hlength
    omega

theorem head?_respell (seen s : Text) :
    (respellFrom op new seen s).head? = s.head? ∨
      (respellFrom op new seen s).head? = some ' ' ∧ s.head?.any isWordChar = false := by
  cases s with
  | nil => exact .inl (by simp [respellFrom])
  | cons c cs =>
    rcases respell_cases hop new seen c cs with ⟨b₁, b₂, rest, seen', hs, hb₁, _, ht⟩ | ⟨_, ht⟩
    · refine .inr ⟨by simp [ht], ?_⟩
      rw [hs]
      cases b₁ with
      | cons d b₁ => exact isWordChar_of_isBlank (hb₁ d (by simp))
      | nil =>
        obtain ⟨d, ds, hd⟩ := List.exists_cons_of_ne_nil hop.ne_nil
        have hword := (hop.apart d (by simp [hd])).2
        simpa [hd] using hword
    · exact .inl (by simp [ht])

private theorem exists_respell_of_isWordChar {d : Char} (hd : isWordChar d = true) (seen cs : Text) :
    ∃ r, respellFrom op new seen (d :: cs) = d :: r := by
  rcases head?_respell hop new seen (d :: cs) with hhead | ⟨_, hnot⟩
  · exact List.head?_eq_some_iff.mp hhead
  · simp [hd] at hnot

private theorem respell_of_isDouble {c d : Char} (hdouble : isDouble c d = true) (hc : isBlank c = false) {cs : Text}
    (hnone : ¬ op.toList <+: c :: d :: cs) (seen : Text) :
    respellFrom op new seen (d :: cs) = d :: respellFrom op new (d :: seen) cs := by
  rcases respell_cases hop new seen d cs with ⟨b₁, b₂, rest, _, hs, hb₁, _, _⟩ | ⟨_, hkeep⟩
  · cases b₁ with
    | nil =>
      rw [List.nil_append] at hs
      exact absurd (hop.double c d cs hdouble (hs ▸ List.prefix_append _ _)) hnone
    | cons e b₁ =>
      obtain ⟨rfl, _⟩ := List.cons.inj hs
      obtain rfl := eq_of_beq (Bool.and_eq_true_iff.mp hdouble).1
      rw [hb₁ c (by simp)] at hc
      cases hc
  · exact hkeep

private theorem lexemes_cons_kept {c : Char} {cs : Text} (hnone : ¬ op.toList <+: c :: cs) (seen : Text)
    (ih : ∀ seen s : Text, s.length ≤ cs.length → lexemes (respellFrom op new seen s) =
      (lexemes s).map fun l => if l = op.toList then new else l) :
    lexemes (c :: respellFrom op new seen cs) =
      (lexemes (c :: cs)).map fun l => if l = op.toList then new else l := by
  have hstays {l : Text} (hl : l <+: c :: cs) : (if l = op.toList then new else l) = l :=
    if_neg fun (heq : l = op.toList) => hnone (heq ▸ hl)
  have hwords {e : Char} {w : Text} (he : isWordChar e = true) :
      (if e :: w = op.toList then new else e :: w) = e :: w :=
    if_neg fun heq => by simp [(hop.apart e (by simp [← heq])).2] at he
  have htail := ih seen cs (Nat.le_refl _)
  cases hc : isBlank c with
  | true => rw [lexemes_cons_of_isBlank hc, lexemes_cons_of_isBlank hc, htail]
  | false =>
    by_cases hjoins : ∀ d ∈ cs.head?, joins c d = false
    · rw [lexemes_cons_of_not_joins hc hjoins, List.map_cons, hstays (by simp), ← htail]
      refine lexemes_cons_of_not_joins hc fun e he => ?_
      rcases head?_respell hop new seen cs with hhead | ⟨hhead, _⟩
      · exact hjoins e (hhead ▸ he)
      · obtain rfl : e = ' ' := Option.some.inj (he.symm.trans hhead)
        exact joins_of_isBlank c (by decide)
    · cases cs with
      | nil => simp at hjoins
      | cons d cs =>
        have hjoins : joins c d = true := by simpa using hjoins
        rcases Bool.or_eq_true_iff.mp hjoins with hword | hdouble
        · -- the next character goes on with the word, so it stays too
          obtain ⟨hwc, hwd⟩ := Bool.and_eq_true_iff.mp hword
          obtain ⟨w, ws, hw⟩ := exists_lexemes_cons (isBlank_of_isWordChar hwd) cs
          obtain ⟨r, hr⟩ := exists_respell_of_isWordChar hop new hwd seen cs
          rw [hr] at htail ⊢
          rw [lexemes_cons_of_isWordChar hwc hwd, htail, lexemes_cons_of_isWordChar hwc hwd, hw]
          simp only [List.map_cons, consWord, hwords hwd, hwords hwc]
        · -- the sign that does not begin here begins at the next character neither
          rw [respell_of_isDouble hop new hdouble hc hnone, lexemes_cons_of_isDouble hdouble,
            lexemes_cons_of_isDouble hdouble, List.map_cons, hstays (by simp), ih _ cs (by simp)]

theorem lexemes_respell (hnew : ∀ s, lexemes (new ++ ' ' :: s) = new :: lexemes s) (seen s : Text) :
    lexemes (respellFrom op new seen s) =
      (lexemes s).map fun l => if l = op.toList then new else l := by
  -- a sign of two characters is passed in one step, so the induction is on the length
  induction hn : s.length using Nat.strong_induction_on generalizing s seen with
  | _ n ih =>
    subst hn
    cases s with
    | nil => simp [respellFrom]
    | cons c cs =>
      rcases respell_cases hop new seen c cs with ⟨b₁, b₂, rest, seen', hs, hb₁, hb₂, ht⟩ | ⟨hnone, ht⟩
      · have hlength : rest.length < (c :: cs).length := by
          have hpos := List.length_pos_iff.mpr hop.ne_nil
          rw [hs]
          simp only [List.length_append]
          omega
        rw [ht, lexemes_cons_of_isBlank (by decide), hnew, ih _ hlength _ _ rfl, hs,
          lexemes_append_left hb₁, hop.lexemes_append, lexemes_append_left hb₂]
        simp
      · rw [ht]
        exact lexemes_cons_kept hop new hnone _ fun seen s hs =>
          ih s.length (by simp; omega) seen s rfl

theorem isChain_respell (hnew : ∀ c ∈ new, c ≠ '(') (seen : Text) {s : Text} (hs : s.IsChain NoCall) :
    (respellFrom op new seen s).IsChain NoCall := by
  induction hn : s.length using Nat.strong_induction_on generalizing s seen with
  | _ n ih =>
    subst hn
    cases s with
    | nil => simp [respellFrom]
    | cons c cs =>
      rcases respell_cases hop new seen c cs with ⟨b₁, b₂, rest, seen', heq, _, _, ht⟩ | ⟨_, ht⟩
      · have hlength : rest.length < (c :: cs).length := by
          have hpos := List.length_pos_iff.mpr hop.ne_nil
          rw [heq]
          simp only [List.length_append]
          omega
        have hrest : rest.IsChain NoCall := by
          rw [heq, ← List.append_assoc, ← List.append_assoc] at hs
          exact hs.right_of_append
        rw [ht]
        exact isChain_spaced hnew (ih _ hlength _ hrest rfl) ' '
      · rw [ht, List.isChain_cons]
        refine ⟨fun d hd => ?_, ih _ (by simp) _ hs.tail rfl⟩
        rcases head?_respell hop new (c :: seen) cs with hhead | ⟨hhead, _⟩
        · exact (List.isChain_cons.mp hs).1 d (hhead ▸ hd)
        · obtain rfl : d = ' ' := Option.some.inj (hd.symm.trans hhead)
          simp [NoCall]

end

/-- A word is found between its edges. -/
theorem edges_of_way {w : String} (hw : IsWord w.toList) {seen t b : Text} {g : Groups}
    (h : Way (Pattern.word w) seen t b g) :
    t = w.toList ∧ seen.head?.any isWordChar = false ∧ b.head?.any isWordChar = false := by
  obtain ⟨_, _, _, _, rfl, _, hway, hedge₂⟩ := way_append.mp h
  obtain ⟨rfl, _, hedge₂⟩ := way_wordEdge.mp hedge₂
  obtain ⟨_, _, _, _, rfl, _, hedge₁, htext⟩ := way_append.mp hway
  obtain ⟨rfl, _, hedge₁⟩ := way_wordEdge.mp hedge₁
  obtain ⟨rfl, _⟩ := way_text.mp htext
  refine ⟨by simp, ?_, ?_⟩
  · exact (isWordEdge_before hw.1 hw.2).mp (by simpa using hedge₁)
  · exact (isWordEdge_after hw.1 hw.2).mp (by simpa using hedge₂)

/-! ### Code without calls and dots -/

section

variable {s : Text} (h : s.IsChain NoCall)

include h

theorem not_call {a w b : Text} (hs : s = a ++ (w ++ '(' :: b)) (hw : IsWord w) : False := by
  obtain ⟨hne, hw⟩ := hw
  have hlast := hw _ (List.getLast_mem hne)
  rw [← List.dropLast_append_getLast hne] at hs
  exact List.isChain_iff_forall_rel_of_append_cons_cons.mp h
    (show s = (a ++ w.dropLast) ++ w.getLast hne :: '(' :: b by simp [hs]) ⟨hlast, rfl⟩

theorem routineCalls_of_noCall (st : Setting) : st.routineCalls s = s := by
  unfold Setting.routineCalls
  split
  · refine replace_of_no_match fun seen t rest g hs hway => ?_
    obtain ⟨_, _, _, _, rfl, _, hreads, htext⟩ := reads_append.mp hway.reads
    obtain ⟨rfl, _⟩ := reads_text.mp htext
    obtain ⟨_, w, _, _, rfl, _, hedge, hgroup⟩ := reads_append.mp hreads
    obtain ⟨_, _, hname⟩ := reads_group.mp hgroup
    obtain ⟨_, _, _, rfl, _, hw⟩ := reads_name hname
    cases hedge
    exact (not_call h (by simpa using hs) ⟨by simp, hw⟩).elim
  · rfl

theorem replace_length_of_noCall (f : Match → Text) : Pattern.replace (.wordEdge ++ "len(") f s = s := by
  refine replace_of_no_match fun seen t rest g hs hway => ?_
  obtain ⟨_, _, _, _, rfl, _, hedge, htext⟩ := reads_append.mp hway.reads
  obtain ⟨rfl, _⟩ := reads_text.mp htext
  cases hedge
  exact (not_call h (w := "len") (by simpa using hs) (by decide)).elim

end

theorem javaArithmetic_of_no_dot {s : Text} (hs : ∀ c ∈ s, (c == '.') = false) : Setting.javaArithmetic s = s := by
  have hcalls (calls : List (Text × Text)) (hcalls : ∀ call ∈ calls, call.1.any (· == '.') = true) :
      calls.foldl (fun s call => replaceAll call.1 call.2 s) s = s := by
    induction calls with
    | nil => rfl
    | cons call calls ih =>
      obtain ⟨hcall, hrest⟩ := List.forall_mem_cons.mp hcalls
      have hne : call.1 ≠ [] := fun hnil => by simp [hnil] at hcall
      rw [List.foldl_cons, replaceAll_eq hne, replace_of_needs (p := .text call.1) hcall hs, ih hrest]
  simp only [Setting.javaArithmetic]
  rw [replace_of_needs (q := (· == '.')) (by decide) hs, hcalls _ (by decide),
    replace_of_needs (q := (· == '.')) (by decide) hs]

/-! ### Text of arithmetic -/

/-- The signs of arithmetic, in sources and in dialects. -/
def arithmeticSigns : Text := "+-*/%^()"

/-- Characters that arithmetic is not written with. -/
def isForeign (c : Char) : Bool := !(isBlank c || isWordChar c || arithmeticSigns.contains c)

/-- A text of words and signs of arithmetic that has no calls and none of some words. -/
structure Plain (reserved : List Text) (s : Text) : Prop where
  chars : ∀ c ∈ s, isForeign c = false
  words : ∀ w ∈ reserved, w ∉ lexemes s
  calls : s.IsChain NoCall

theorem isForeign_of_isBlank {c : Char} (h : isBlank c = true) : isForeign c = false := by
  simp [isForeign, h]

theorem isForeign_of_isWordChar {c : Char} (h : isWordChar c = true) : isForeign c = false := by
  simp [isForeign, h]

/-- Words and signs without calls are a text of arithmetic. -/
theorem plain_of_lexemes {reserved : List Text} {s : Text}
    (hchars : ∀ l ∈ lexemes s, IsWord l ∨ ∀ c ∈ l, isForeign c = false)
    (hwords : ∀ w ∈ reserved, w ∉ lexemes s)
    (hcalls : (lexemes s).IsChain fun a b => ¬ (IsWord a ∧ b = ['('])) : Plain reserved s := by
  refine ⟨fun c hc => ?_, hwords, isChain_noCall hcalls⟩
  rcases mem_lexemes_of_mem hc with hblank | ⟨l, hl, hcl⟩
  · exact isForeign_of_isBlank hblank
  · rcases hchars l hl with hword | hsign
    · exact isForeign_of_isWordChar (hword.2 c hcl)
    · exact hsign c hcl

private theorem joins_plus : (∀ c, joins c '+' = false) ∧ (∀ d, joins '+' d = false) := by
  have hword : isWordChar '+' = false := by decide
  refine ⟨fun c => ?_, fun d => by simp [joins, isDouble, hword]⟩
  by_cases hc : c = '+'
  · subst hc
    decide
  · simp [joins, isDouble, hword, hc]

/-! ### Expressions without strings -/

theorem isInfix_trim (s : Text) : trim s <:+: s := by
  obtain ⟨b₁, b₂, heq, _⟩ := exists_trim s
  exact ⟨b₁, b₂, by rw [List.append_assoc]; exact heq.symm⟩

private theorem isStringLiteral_of_no_quote {s : Text} (hs : ∀ c ∈ s, isQuote c = false) :
    DataType.isStringLiteral s = false := by
  have hquote {q : Char} (hq : isQuote q = true) : (between? [q] [q] (trim s)).isSome = false := by
    cases ht : trim s with
    | nil => rfl
    | cons c t =>
      have hc : c ≠ q := by
        rintro rfl
        rw [hs c ((isInfix_trim s).subset (by simp [ht]))] at hq
        cases hq
      simp [between?, after?, List.isPrefixOf, hc.symm]
  exact Bool.or_eq_false_iff.mpr ⟨hquote (q := '"') (by decide), hquote (q := '\'') (by decide)⟩

/-- The ends of the names of conversions, with the parenthesis of a call. -/
def conversionEnds : List Text := ["r(", "f("]

theorem not_conversion_of_noCall {s : Text} (h : s.IsChain NoCall) : ∀ w ∈ conversionEnds, ¬ w <:+: s := by
  rintro w hw ⟨a, b, heq⟩
  have hw : w = ['r', '('] ∨ w = ['f', '('] := by simpa [conversionEnds] using hw
  rcases hw with rfl | rfl
  · exact not_call h (a := a) (w := ['r']) (b := b) (by simp [← heq]) (by decide)
  · exact not_call h (a := a) (w := ['f']) (b := b) (by simp [← heq]) (by decide)

private theorem isStringOperand_eq_false {st : Setting} {s : Text} (hquote : ∀ c ∈ s, isQuote c = false)
    (hcalls : ∀ w ∈ conversionEnds, ¬ w <:+: s) (hnoted : st.symbols.notes.isString (trim s) = false) :
    st.isStringOperand s = false := by
  have hmem : ∀ c ∈ trim s, isQuote c = false := fun c hc => hquote c ((isInfix_trim s).subset hc)
  have hstarts {lead w : Text} (hw : w ∈ conversionEnds) (hlead : w <:+: lead) :
      startsWith lead (trim s) = false := by
    by_contra hstarts
    have hpre := List.isPrefixOf_iff_prefix.mp (Bool.not_eq_false _ ▸ hstarts)
    exact hcalls w hw (hlead.trans (hpre.isInfix.trans (isInfix_trim s)))
  have hstr : startsWith "str(" (trim s) = false := hstarts (w := "r(") (by decide) ⟨"st", [], rfl⟩
  have hvalue : startsWith "String.valueOf(" (trim s) = false :=
    hstarts (w := "f(") (by decide) ⟨"String.valueO", [], rfl⟩
  simp only [Setting.isStringOperand, isStringLiteral_of_no_quote hmem, hstr, hvalue, hnoted, Bool.or_false]

private theorem mem_lexemes_of_mem_splitTopLevel {s p l : Text} (hp : p ∈ splitTopLevel '+' s) (hl : l ∈ lexemes p) :
    l ∈ lexemes s := by
  obtain ⟨a, q, b, hs, rfl, ha, hb⟩ := exists_of_mem_splitTopLevel hp
  rw [lexemes_trim] at hl
  rw [hs, lexemes_append, lexemes_append]
  · simp [hl]
  · intro c _ d hd
    rw [hb d hd]
    exact joins_plus.1 c
  · intro c hc d _
    rw [ha c hc]
    exact joins_plus.2 d

/-- Code without strings and subscripts goes through the first passes as it is, if its sums do. -/
theorem expr_eq_of_concatenate {st : Setting} {s : Text}
    (hchars : ∀ c ∈ trim s, isQuote c = false ∧ c ≠ '[') (hconcat : st.concatenate (trim s) = trim s) :
    st.expr s = st.respellCode (trim s) := by
  have hquote : ∀ c ∈ trim s, isQuote c = false := fun c hc => (hchars c hc).1
  have hbracket : ∀ c ∈ trim s, (c == '[') = false := fun c hc => by simpa using (hchars c hc).2
  have hexpand : (if st.isPython then Interpolation.expand (trim s) else trim s) = trim s := by
    split
    · exact replace_of_needs (q := isQuote) (by decide) hquote
    · rfl
  have hfield : st.fieldAccess (trim s) = trim s := by
    unfold Setting.fieldAccess
    split
    · exact replace_of_needs (q := (· == '[')) (by decide) hbracket
    · rfl
  have hindex : st.stringIndex (trim s) = trim s := by
    unfold Setting.stringIndex
    split
    · exact replace_of_needs (q := (· == '[')) (by decide) hbracket
    · rfl
  simp only [Setting.expr]
  rw [hexpand, hfield, hindex, hconcat, mapCode_of_no_quote hquote]

/-- An expression without strings and subscripts is respelled as it stands. -/
theorem expr_eq_respellCode {st : Setting} {s : Text} (hchars : ∀ c ∈ trim s, isQuote c = false ∧ c ≠ '[')
    (hcalls : ∀ w ∈ conversionEnds, ¬ w <:+: trim s)
    (hstrings : ∀ p, st.symbols.notes.isString p = true → ∃ l ∈ lexemes p, l ∉ lexemes s) :
    st.expr s = st.respellCode (trim s) := by
  have hany : (splitTopLevel '+' (trim s)).any st.isStringOperand = false := by
    refine List.any_eq_false.mpr fun p hp => ?_
    obtain ⟨a, q, b, hs, rfl, _⟩ := exists_of_mem_splitTopLevel hp
    have hpart : trim q <:+: trim s := (isInfix_trim q).trans ⟨a, b, by simp [hs]⟩
    rw [isStringOperand_eq_false fun c hc => (hchars c (hpart.subset hc)).1]
    · exact Bool.false_ne_true
    · exact fun w hw h => hcalls w hw (h.trans hpart)
    · by_contra hnoted
      obtain ⟨l, hl, hnot⟩ := hstrings _ (Bool.not_eq_false _ ▸ hnoted)
      exact hnot (by simpa using mem_lexemes_of_mem_splitTopLevel hp (by simpa using hl))
  exact expr_eq_of_concatenate hchars (by simp [Setting.concatenate, hany])

namespace Plain

variable {reserved : List Text} {s : Text} (h : Plain reserved s)

include h

theorem replace_eq {p : Pattern} (hp : p.needs isForeign = true) (f : Match → Text) : p.replace f s = s :=
  replace_of_needs hp h.chars

theorem isQuote_of_mem : ∀ c ∈ s, isQuote c = false := by
  intro c hc
  by_contra hq
  have hforeign : isForeign c = true := by
    rcases Bool.or_eq_true_iff.mp (Bool.not_eq_false _ ▸ hq) with hq | hq <;>
      obtain rfl := eq_of_beq hq <;> decide
  rw [h.chars c hc] at hforeign
  cases hforeign

theorem not_word {a w b : Text} (hs : s = a ++ (w ++ b)) (hw : w ∈ reserved) (hword : IsWord w)
    (ha : a.getLast?.any isWordChar = false) (hb : b.head?.any isWordChar = false) : False := by
  refine h.words w hw ?_
  rw [hs, lexemes_of_edges hword.1 hword.2 ha hb]
  simp

theorem respellWord_eq {w : String} (hw : w.toList ∈ reserved) (hword : IsWord w.toList) (new : Text) :
    Setting.respellWord w new s = s := by
  refine replace_of_no_match fun seen t rest g hs hway => ?_
  obtain ⟨rfl, ha, hb⟩ := edges_of_way hword hway
  exact (h.not_word hs hw hword (by simpa using ha) hb).elim

theorem newObject_eq (hnew : "new".toList ∈ reserved) (st : Setting) : st.newObject s = s := by
  unfold Setting.newObject
  split
  · refine replace_of_no_match fun seen t rest g hs hway => ?_
    obtain ⟨_, paren, _, _, rfl, _, hway₁, _⟩ := way_append.mp hway
    obtain ⟨_, b, _, _, rfl, _, hway₂, _⟩ := way_append.mp hway₁
    obtain ⟨_, w, _, _, rfl, _, hway₃, _⟩ := way_append.mp hway₂
    obtain ⟨_, b', _, _, rfl, _, hway₄, hgap⟩ := way_append.mp hway₃
    obtain ⟨_, _, _, _, rfl, _, hedge, htext⟩ := way_append.mp hway₄
    obtain ⟨rfl, _, hedge⟩ := way_wordEdge.mp hedge
    obtain ⟨rfl, _⟩ := way_text.mp htext
    obtain ⟨hb', hblank, _⟩ := reads_most1.mp hgap.reads
    have hword : IsWord "new".toList := by decide
    have ha := (isWordEdge_before hword.1 hword.2).mp (by simpa using hedge)
    have hb : (b' ++ (w ++ (b ++ (paren ++ rest)))).head?.any isWordChar = false := by
      obtain ⟨c, cs, rfl⟩ := List.exists_cons_of_ne_nil hb'
      exact isWordChar_of_isBlank (hblank c (by simp))
    exact (h.not_word (by simpa using hs) hnew hword (by simpa using ha) hb).elim
  · rfl

private theorem of_append {a t b : Text} (hs : s = a ++ (t ++ b)) (hwords : ∀ w ∈ lexemes t, w ∈ lexemes s) :
    Plain reserved t := by
  refine ⟨fun c hc => h.chars c (by simp [hs, hc]), fun w hw hm => h.words w hw (hwords w hm), ?_⟩
  have hcalls := h.calls
  rw [hs] at hcalls
  exact hcalls.right_of_append.left_of_append

theorem trim : Plain reserved (Text.trim s) := by
  obtain ⟨b₁, b₂, hs, _⟩ := exists_trim s
  exact h.of_append hs (by simp)

theorem respell {op : String} (hop : IsSign op.toList) {new : Text}
    (hlexemes : ∀ s, lexemes (new ++ ' ' :: s) = new :: lexemes s)
    (hchars : ∀ c ∈ new, isForeign c = false ∧ c ≠ '(') (hreserved : new ∉ reserved) :
    Plain reserved (Setting.respell op new s) := by
  refine ⟨fun c hc => ?_, fun w hw hm => ?_, ?_⟩
  · rcases mem_of_mem_replaceFrom hc with hc | ⟨_, hc⟩
    · exact h.chars c hc
    · have hc : c = ' ' ∨ c ∈ new := by simpa [or_comm, or_left_comm] using hc
      rcases hc with rfl | hc
      · decide
      · exact (hchars c hc).1
  · have hm : w ∈ lexemes (respellFrom op new [] s) := hm
    rw [lexemes_respell hop new hlexemes, List.mem_map] at hm
    obtain ⟨l, hl, rfl⟩ := hm
    split at hw
    · exact hreserved hw
    · next hne => exact h.words l hw (by simpa [hne] using hl)
  · exact isChain_respell hop new (fun c hc => (hchars c hc).2) [] h.calls

end Plain

/-- A word that is set apart by a space is cut as one. -/
theorem lexemes_word_append {w : Text} (hw : IsWord w) (s : Text) :
    lexemes (w ++ ' ' :: s) = w :: lexemes s := by
  have hedges := lexemes_of_edges (a := []) (b := ' ' :: s) hw.1 hw.2 rfl
    (show isWordChar ' ' = false by decide)
  rwa [lexemes_cons_of_isBlank (by decide)] at hedges

theorem lexemes_caret (s : Text) : lexemes ("^".toList ++ ' ' :: s) = "^".toList :: lexemes s := by
  rw [← lexemes_cons_of_isBlank (c := ' ') (by decide) s]
  refine lexemes_cons_of_not_joins (by decide) fun d hd => ?_
  obtain rfl : ' ' = d := Option.some.inj hd
  decide

/-! ### Spelling of the signs -/

/-- Words of each convention that are no names of variables, and the word that creates objects. -/
def reserved (conv : Convention) : List Text := conv.logicWords ++ ["new".toList]

namespace Plain

variable {words : List Text} {s : Text}

theorem comparisons_eq {st : Setting} (h : Plain words (Setting.respell "%" (st.kw .modWord) s)) :
    st.comparisons s = Setting.respell "%" (st.kw .modWord) s := by
  simp only [Setting.comparisons, Setting.respell] at h ⊢
  rw [h.replace_eq (by decide), h.replace_eq (by decide), h.replace_eq (by decide),
    h.replace_eq (by decide)]

variable (h : Plain words s)

include h

theorem pythonLogic_eq (hwords : reserved .indentation ⊆ words) (st : Setting) : st.pythonLogic s = s := by
  have hword {w : String} (hw : w.toList ∈ reserved .indentation) (hword : IsWord w.toList) (new : Text) :
      Setting.respellWord w new s = s :=
    h.respellWord_eq (hwords hw) hword new
  simp only [Setting.pythonLogic]
  rw [hword (by decide) (by decide), hword (by decide) (by decide), hword (by decide) (by decide),
    hword (by decide) (by decide), hword (by decide) (by decide), replace_length_of_noCall h.calls]

theorem javaLogic_eq (hwords : reserved .braces ⊆ words) (st : Setting) : st.javaLogic s = s := by
  have hword {w : String} (hw : w.toList ∈ reserved .braces) (hword : IsWord w.toList) (new : Text) :
      Setting.respellWord w new s = s :=
    h.respellWord_eq (hwords hw) hword new
  simp only [Setting.javaLogic, Setting.respell]
  rw [h.replace_eq (by decide), h.replace_eq (by decide), h.replace_eq (by decide),
    hword (by decide) (by decide), hword (by decide) (by decide)]

theorem javaArithmetic_eq : Setting.javaArithmetic s = s := by
  refine javaArithmetic_of_no_dot fun c hc => ?_
  by_contra hdot
  obtain rfl : c = '.' := by simpa using hdot
  exact absurd (h.chars _ hc) (by decide)

theorem stringCalls_eq (st : Setting) : st.stringCalls s = s := h.replace_eq (by decide) _

theorem lengthField_eq (st : Setting) : st.lengthField s = s := h.replace_eq (by decide) _

end Plain

/-- How a word or sign of a source is spelled. -/
def spell (style : Style) (conv : Convention) (l : Text) : Text :=
  if l = "%".toList then style.keyword .modWord
  else if conv = .indentation ∧ l = "**".toList then "^"
  else if conv = .indentation ∧ l = "//".toList then style.keyword .divWord
  else l

/-- Spells the signs of a text of arithmetic. -/
def spellAll (st : Setting) (s : Text) : Text :=
  Setting.respell "%" (st.kw .modWord) (if st.isPython then st.pythonArithmetic s else s)

theorem isWord_keyword (d : Dialect) {k : Keyword} (hk : k ∈ [Keyword.divWord, .modWord])
    (conv : Convention) : IsWord (d.style.keyword k) ∧ d.style.keyword k ∉ reserved conv := by
  have hall : ∀ k ∈ [Keyword.divWord, .modWord], IsWord (d.style.keyword k) ∧
      d.style.keyword k ∉ reserved conv := by
    cases d <;> cases conv <;> decide
  exact hall k hk

section

variable {st : Setting} {d : Dialect} (hst : st.style = d.style)

include hst

theorem Plain.respell_keyword {s : Text} (h : Plain (reserved st.convention) s) {op : String}
    (hop : IsSign op.toList) {k : Keyword} (hk : k ∈ [Keyword.divWord, .modWord]) :
    Plain (reserved st.convention) (Setting.respell op (st.kw k) s) := by
  obtain ⟨hword, hreserved⟩ := isWord_keyword d hk st.convention
  rw [Setting.kw, hst]
  refine h.respell hop (lexemes_word_append hword) (fun c hc => ?_) hreserved
  have hc := hword.2 c hc
  refine ⟨isForeign_of_isWordChar hc, ?_⟩
  rintro rfl
  exact absurd hc (by decide)

private theorem lexemes_respell_keyword {op : String} (hop : IsSign op.toList) {k : Keyword}
    (hk : k ∈ [Keyword.divWord, .modWord]) (s : Text) :
    lexemes (Setting.respell op (st.kw k) s) =
      (lexemes s).map fun l => if l = op.toList then st.kw k else l := by
  rw [Setting.kw, hst]
  exact lexemes_respell hop _ (lexemes_word_append (isWord_keyword d hk st.convention).1) [] s

variable {s : Text} (h : Plain (reserved st.convention) s)

include h

omit hst in
private theorem Plain.power : Plain (reserved st.convention) (Setting.respell "**" "^" s) := by
  refine h.respell isSign_power lexemes_caret (List.forall_mem_singleton.mpr (by decide)) ?_
  cases st.convention <;> decide

private theorem Plain.pythonArithmetic : Plain (reserved st.convention) (st.pythonArithmetic s) :=
  h.power.respell_keyword hst isSign_quotient (by decide)

private theorem Plain.spellAll : Plain (reserved st.convention) (spellAll st s) := by
  unfold Arithmetic.spellAll
  split
  · exact (Plain.pythonArithmetic hst h).respell_keyword hst isSign_remainder (by decide)
  · exact h.respell_keyword hst isSign_remainder (by decide)

omit h in
/-- Each word and sign is spelled by itself. -/
theorem lexemes_spellAll (s : Text) : lexemes (spellAll st s) =
    (lexemes s).map (spell st.style st.convention) := by
  unfold Arithmetic.spellAll
  rw [lexemes_respell_keyword hst isSign_remainder (by decide)]
  split
  · next hpython =>
    have hpower (s : Text) : lexemes (Setting.respell "**" "^" s) =
        (lexemes s).map fun l => if l = "**".toList then "^".toList else l :=
      lexemes_respell isSign_power _ lexemes_caret [] s
    rw [Setting.pythonArithmetic, lexemes_respell_keyword hst isSign_quotient (by decide), hpower,
      List.map_map, List.map_map]
    refine List.map_congr_left fun l _ => ?_
    have hdiv : st.kw .divWord ≠ "%".toList := by
      rw [Setting.kw, hst]
      cases d <;> decide
    have hconv : st.convention = .indentation := by simpa [Setting.isPython] using hpython
    simp only [Function.comp_apply, spell, hconv, true_and]
    by_cases hpower : l = "**".toList
    · subst hpower
      rfl
    · rw [if_neg hpower, if_neg hpower]
      by_cases hquotient : l = "//".toList
      · subst hquotient
        rw [if_pos rfl, if_neg hdiv]
        rfl
      · rw [if_neg hquotient, if_neg hquotient]
        rfl
  · next hpython =>
    have hconv : st.convention ≠ .indentation := by simpa [Setting.isPython] using hpython
    refine List.map_congr_left fun l _ => ?_
    simp only [spell, hconv, false_and, if_false]
    rfl

/-- Of all that is respelled, only the signs are there. -/
theorem respellCode_eq (hs : lexemes s ≠ []) : st.respellCode s = spellAll st s := by
  have hempty : (trim s).isEmpty = false := by
    cases ht : trim s with
    | nil => exact absurd (by rw [← lexemes_trim, ht, lexemes_nil]) hs
    | cons c t => rfl
  have hspelled := Plain.spellAll hst h
  have hnew : "new".toList ∈ reserved st.convention := by cases st.convention <;> decide
  rw [Setting.respellCode, hempty, if_neg Bool.false_ne_true]
  cases hpython : st.isPython with
  | true =>
    have hconv : st.convention = .indentation := by simpa [Setting.isPython] using hpython
    have hall : spellAll st s = Setting.respell "%" (st.kw .modWord) (st.pythonArithmetic s) := by
      rw [Arithmetic.spellAll, if_pos hpython]
    rw [if_pos rfl, Plain.comparisons_eq (hall ▸ hspelled), ← hall,
      hspelled.pythonLogic_eq (by simp [hconv]), hspelled.stringCalls_eq, hspelled.newObject_eq hnew,
      routineCalls_of_noCall hspelled.calls]
  | false =>
    have hconv : st.convention = .braces := by
      cases hc : st.convention with
      | indentation => simp [Setting.isPython, hc] at hpython
      | braces => rfl
    have hall : spellAll st s = Setting.respell "%" (st.kw .modWord) s := by
      rw [Arithmetic.spellAll, if_neg (by simp [hpython])]
    rw [if_neg Bool.false_ne_true, h.javaArithmetic_eq, Plain.comparisons_eq (hall ▸ hspelled), ← hall,
      hspelled.javaLogic_eq (by simp [hconv]), hspelled.stringCalls_eq, hspelled.lengthField_eq,
      hspelled.newObject_eq hnew, routineCalls_of_noCall hspelled.calls]

/-- An expression of arithmetic has its signs spelled. -/
theorem expr_eq (hs : lexemes s ≠ [])
    (hstrings : ∀ p, st.symbols.notes.isString p = true → ∃ l ∈ lexemes p, l ∉ lexemes s) :
    st.expr s = spellAll st (trim s) := by
  have ht := h.trim
  rw [expr_eq_respellCode (fun c hc => ⟨ht.isQuote_of_mem c hc, ?_⟩) (fun w hw hinfix => ?_) hstrings,
    respellCode_eq hst ht (by simpa using hs)]
  · rintro rfl
    exact absurd (ht.chars _ hc) (by decide)
  · exact not_conversion_of_noCall ht.calls w hw hinfix

end

end Arithmetic

end Pseudocode
