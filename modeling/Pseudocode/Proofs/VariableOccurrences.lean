import Pseudocode.Rule.Indented.Assignment
import Pseudocode.Proofs.QuotedText

/-! # Variables in an expression

A variable occurs in an expression as a whole word, outside string literals and not as an attribute. Renaming
replaces each occurrence of a variable and nothing else; that an expression reads a variable means that it
occurs there. -/

namespace Pseudocode.Text

/-- A text stands as a variable between two others. -/
structure OccursAt (before x after : Text) : Prop where
  ne_nil : x ≠ []
  word : ∀ c ∈ x, isNameChar c = true
  code : Mode.code.after before = .code
  start : before.getLast?.any isNameChar = false
  no_dot : before.getLast? ≠ some '.'
  stop : after.head?.any isNameChar = false

/-- A variable occurs in a text that comes after another one. -/
def OccursFrom (before x s : Text) : Prop := ∃ a b, s = a ++ (x ++ b) ∧ OccursAt (before ++ a) x b

/-- A variable occurs in an expression. -/
def Occurs (x e : Text) : Prop := OccursFrom [] x e

/-- The second text is the first one with each occurrence of `x` replaced by `y`. What comes before is read
already. -/
inductive Renamed (x y : Text) : Text → Text → Text → Prop
  | nil (before : Text) : Renamed x y before [] []
  | swap {before s t : Text} (h : OccursAt before x s) (ht : Renamed x y (before ++ x) s t) :
      Renamed x y before (x ++ s) (y ++ t)
  | keep {before s t : Text} {c : Char} (h : ∀ r, c :: s = x ++ r → ¬ OccursAt before x r)
      (ht : Renamed x y (before ++ [c]) s t) : Renamed x y before (c :: s) (c :: t)

theorem isQuote_of_isNameChar {c : Char} (h : isNameChar c = true) : isQuote c = false := by
  cases hc : isQuote c with
  | false => rfl
  | true =>
    rcases (by simpa [isQuote] using hc : c = '"' ∨ c = '\'') with rfl | rfl
    · exact absurd h (by decide)
    · exact absurd h (by decide)

/-- What comes after code is a quote. -/
theorem any_head?_restText {rest : List (Literal × Text)} (h : SoundRest rest) :
    (restText rest).head?.any isNameChar = false := by
  cases rest with
  | nil => rfl
  | cons l rest =>
    refine Bool.eq_false_iff.mpr fun hname => ?_
    simpa [isQuote_of_isNameChar hname] using h.1.quote

/-- A word ends in a character of a word, whatever comes before it. -/
theorem any_getLast?_append {u w : Text} (hne : w ≠ []) (hw : ∀ c ∈ w, isNameChar c = true) :
    (u ++ w).getLast?.any isNameChar = true := by
  rw [List.getLast?_append_of_ne_nil u hne, List.getLast?_eq_some_getLast hne]
  exact hw _ (List.getLast_mem hne)

/-- After a closed literal a word may begin. -/
theorem Literal.Sound.after_closed {u : Text} {l : Literal} (hl : l.Sound) (hcode : Mode.code.after u = .code)
    (hclosed : l.closed = true) :
    Mode.code.after (u ++ l.text) = .code ∧ (u ++ l.text).getLast?.any isNameChar = false ∧
      ((none : Option Char) = some '.' ↔ (u ++ l.text).getLast? = some '.') := by
  have hlast : (u ++ l.text).getLast? = some l.quote := by
    rw [Literal.text, if_pos hclosed, ← List.cons_append, ← List.append_assoc, List.getLast?_concat]
  have hword : isNameChar l.quote = false :=
    Bool.eq_false_iff.mpr fun h => by simpa [isQuote_of_isNameChar h] using hl.quote
  have hdot : l.quote ≠ '.' := fun h => absurd (h ▸ hl.quote) (by decide)
  rw [hlast, Mode.after_append, hcode, hl.after_text hclosed]
  exact ⟨rfl, hword, by simp [hdot]⟩

/-! ### Occurrences -/

namespace OccursAt

variable {u u' x s : Text}

/-- An occurrence begins with a character of a word. -/
theorem exists_head (h : OccursAt u x s) : ∃ c w, x = c :: w ∧ isNameChar c = true := by
  obtain ⟨c, w, rfl⟩ := List.exists_cons_of_ne_nil h.ne_nil
  exact ⟨c, w, rfl, h.word c (by simp)⟩

theorem last (h : OccursAt u x s) : (u ++ x).getLast?.any isNameChar = true :=
  any_getLast?_append h.ne_nil h.word

end OccursAt

theorem occursFrom_nil {u x : Text} (hx : x ≠ []) : ¬ OccursFrom u x [] := by
  rintro ⟨a, b, heq, -⟩
  simp [hx] at heq

/-- A variable occurs at the beginning of a text or after its first character. -/
theorem occursFrom_cons {u x s : Text} {c : Char} :
    OccursFrom u x (c :: s) ↔ (∃ r, c :: s = x ++ r ∧ OccursAt u x r) ∨ OccursFrom (u ++ [c]) x s := by
  constructor
  · rintro ⟨a, b, heq, hat⟩
    cases a with
    | nil => exact .inl ⟨b, heq, by simpa using hat⟩
    | cons d a =>
      obtain ⟨rfl, rfl⟩ := List.cons.inj heq
      exact .inr ⟨a, b, rfl, by simpa using hat⟩
  · rintro (⟨r, heq, hat⟩ | ⟨a, b, rfl, hat⟩)
    · exact ⟨[], r, heq, by simpa using hat⟩
    · exact ⟨c :: a, b, rfl, by simpa using hat⟩

/-! ### Renaming as a relation -/

namespace Renamed

variable {x y u s t s' t' : Text}

theorem keeps_of_roles (hs : ∀ a ∈ rolesFrom (Mode.code.after u) s, a.2 ≠ .code)
    (h : Renamed x y (u ++ s) t t') : Renamed x y u (s ++ t) (s ++ t') := by
  induction s generalizing u with
  | nil => simpa using h
  | cons c s ih =>
    obtain ⟨hc, hs⟩ := List.forall_mem_cons.mp hs
    refine .keep (fun r heq hat => ?_) (ih (by simpa using hs) (by simpa using h))
    obtain ⟨d, w, rfl, hd⟩ := hat.exists_head
    obtain ⟨rfl, -⟩ := List.cons.inj heq
    rw [hat.code] at hc
    simp [Mode.role, isQuote_of_isNameChar hd] at hc

theorem keeps_of_begun (hu : u.getLast?.any isNameChar = true) {w : Text} (hw : ∀ c ∈ w, isNameChar c = true)
    (h : Renamed x y (u ++ w) t t') : Renamed x y u (w ++ t) (w ++ t') := by
  induction w generalizing u with
  | nil => simpa using h
  | cons c w ih =>
    obtain ⟨hc, hw⟩ := List.forall_mem_cons.mp hw
    refine .keep (fun r _ hat => ?_) (ih (by simpa using hc) hw (by simpa using h))
    simp [hat.start] at hu

theorem exists_of_begun (h : Renamed x y u s (s' ++ t')) (hu : u.getLast?.any isNameChar = true)
    (hs' : ∀ c ∈ s', isNameChar c = true) : ∃ t, s = s' ++ t ∧ Renamed x y (u ++ s') t t' := by
  induction s' generalizing u s with
  | nil => exact ⟨s, rfl, by simpa using h⟩
  | cons c s' ih =>
    obtain ⟨hc, hs'⟩ := List.forall_mem_cons.mp hs'
    generalize hr : c :: s' ++ t' = r at h
    cases h with
    | nil => cases hr
    | swap hat => simp [hat.start] at hu
    | keep _ ht =>
      obtain ⟨rfl, rfl⟩ := List.cons.inj hr
      obtain ⟨t, rfl, ht'⟩ := ih ht (by simpa using hc) hs'
      exact ⟨t, rfl, by simpa using ht'⟩

theorem head_eq_of_begun (h : Renamed x y u s s') (hu : u.getLast?.any isNameChar = true) :
    s'.head? = s.head? := by
  cases h with
  | nil => rfl
  | swap hat => simp [hat.start] at hu
  | keep => rfl

theorem eq_of_not_occurs (h : Renamed x y u s s') (hx : ¬ OccursFrom u x s) : s' = s := by
  induction h with
  | nil => rfl
  | @swap u s _ hat => exact absurd ⟨[], s, rfl, by simpa using hat⟩ hx
  | keep _ _ ih => rw [ih fun h => hx (occursFrom_cons.mpr (.inr h))]

theorem ne_of_occurs (h : Renamed x y u s s') (hy : y.head?.any isNameChar = false) (hne : y ≠ [])
    (hx : OccursFrom u x s) : s' ≠ s := by
  induction h with
  | nil =>
    obtain ⟨a, b, heq, hat⟩ := hx
    exact absurd ⟨a, b, heq, hat⟩ (occursFrom_nil hat.ne_nil)
  | swap hat =>
    obtain ⟨c, w, rfl, hc⟩ := hat.exists_head
    obtain ⟨d, v, rfl⟩ := List.exists_cons_of_ne_nil hne
    intro heq
    obtain ⟨rfl, -⟩ := List.cons.inj heq
    simp [hc] at hy
  | keep hnot _ ih =>
    rcases occursFrom_cons.mp hx with ⟨r, heq, hat⟩ | hx
    · exact absurd hat (hnot r heq)
    · intro heq
      exact ih hx (List.cons.inj heq).2

/-- Two texts that end alike: what comes after them is read in the same way. -/
structure Alike (u u' : Text) : Prop where
  mode : Mode.code.after u' = Mode.code.after u
  last : u'.getLast?.any isNameChar = u.getLast?.any isNameChar
  dot : u'.getLast? = some '.' ↔ u.getLast? = some '.'

private theorem Alike.occursAt {z r : Text} (h : Alike u u') (hat : OccursAt u' z r) : OccursAt u z r where
  ne_nil := hat.ne_nil
  word := hat.word
  code := h.mode ▸ hat.code
  start := h.last ▸ hat.start
  no_dot := fun hdot => hat.no_dot (h.dot.mpr hdot)
  stop := hat.stop

private theorem Alike.push (h : Alike u u') (c : Char) : Alike (u ++ [c]) (u' ++ [c]) where
  mode := by simp [h.mode]
  last := by simp
  dot := by simp

private theorem alike_of_words (h : Alike u u') {w w' : Text} (hw : w ≠ []) (hw' : w' ≠ [])
    (hword : ∀ c ∈ w, isNameChar c = true) (hword' : ∀ c ∈ w', isNameChar c = true)
    (hcode : Mode.code.after u = .code) : Alike (u ++ w) (u' ++ w') := by
  have hdot {v z : Text} (hne : z ≠ []) (hz : ∀ c ∈ z, isNameChar c = true) : (v ++ z).getLast? ≠ some '.' := by
    intro heq
    have hany := any_getLast?_append (u := v) hne hz
    rw [heq] at hany
    exact absurd hany (by decide)
  refine ⟨?_, ?_, fun heq => absurd heq (hdot hw' hword'), fun heq => absurd heq (hdot hw hword)⟩
  · rw [Mode.after_append, Mode.after_append, h.mode, hcode,
      after_of_no_quote fun c hc => isQuote_of_isNameChar (hword c hc),
      after_of_no_quote fun c hc => isQuote_of_isNameChar (hword' c hc)]
  · rw [any_getLast?_append hw hword, any_getLast?_append hw' hword']

theorem occurs (h : Renamed x y u s s') (hu : Alike u u') (hy : y ≠ []) (hword : ∀ c ∈ y, isNameChar c = true)
    {z : Text} (hz : OccursFrom u' z s') : z = y ∨ z ≠ x ∧ OccursFrom u z s := by
  induction h generalizing u' with
  | nil =>
    obtain ⟨a, b, heq, hat⟩ := hz
    exact absurd ⟨a, b, heq, hat⟩ (occursFrom_nil hat.ne_nil)
  | @swap u s t hat ht ih =>
    obtain ⟨a, b, heq, hzat⟩ := hz
    have hstop : t.head?.any isNameChar = false := by rw [ht.head_eq_of_begun hat.last, hat.stop]
    -- the word that is put in ends where the old one did, so an occurrence is all of it or comes later
    rcases List.append_eq_append_iff.mp heq with ⟨r, rfl, hr⟩ | ⟨r, rfl, -⟩
    · have hbetween := alike_of_words hu hat.ne_nil hy hat.word hword hat.code
      rcases ih hbetween ⟨r, b, hr, by simpa using hzat⟩ with hzy | ⟨hne, a', b', rfl, hat'⟩
      · exact .inl hzy
      · exact .inr ⟨hne, x ++ a', b', by simp, by simpa using hat'⟩
    · cases a with
      | nil =>
        obtain ⟨rfl, -⟩ := eq_of_runs hword hzat.word hstop hzat.stop (by simpa using heq)
        exact .inl rfl
      | cons d a =>
        have hlast := any_getLast?_append (u := u') (w := d :: a) (by simp)
          fun c hc => hword c (List.mem_append_left _ hc)
        rw [hzat.start] at hlast
        cases hlast
  | @keep u s t c hnot ht ih =>
    rcases occursFrom_cons.mp hz with ⟨r, heq, hat⟩ | hz
    · obtain ⟨d, w, rfl, hd⟩ := hat.exists_head
      obtain ⟨rfl, rfl⟩ := List.cons.inj heq
      obtain ⟨r', rfl, htail⟩ := ht.exists_of_begun (by simpa using hd) fun e he => hat.word e (by simp [he])
      have hlast : (u ++ [c] ++ w).getLast?.any isNameChar = true := by
        simpa using any_getLast?_append (u := u) hat.ne_nil hat.word
      have hat' : OccursAt u (c :: w) r' :=
        { hu.occursAt hat with stop := by rw [← htail.head_eq_of_begun hlast]; exact hat.stop }
      refine .inr ⟨fun heq => hnot r' ?_ (heq ▸ hat'), [], r', rfl, by simpa using hat'⟩
      rw [← heq]
      rfl
    · rcases ih (hu.push c) hz with hzy | ⟨hne, hz⟩
      · exact .inl hzy
      · exact .inr ⟨hne, occursFrom_cons.mpr (.inr hz)⟩

end Renamed

end Pseudocode.Text

namespace Pseudocode.Indented

open Text

/-! ### Renaming as it is done -/

variable {x : Text} (hx : x ≠ [] ∧ ∀ c ∈ x, isNameChar c = true)

include hx

private theorem renamed_renamedWord {u w s t y : Text} {before : Option Char} (hcode : Mode.code.after u = .code)
    (hstart : u.getLast?.any isNameChar = false) (hdot : before = some '.' ↔ u.getLast? = some '.')
    (hw : ∀ c ∈ w, isNameChar c = true) (hs : s.head?.any isNameChar = false)
    (h : Renamed x y (u ++ w) s t) : Renamed x y u (w ++ s) (renamedWord x y before w ++ t) := by
  by_cases hword : w = x ∧ before ≠ some '.'
  · obtain ⟨rfl, hbefore⟩ := hword
    have hat : OccursAt u w s := ⟨hx.1, hx.2, hcode, hstart, fun heq => hbefore (hdot.mpr heq), hs⟩
    simpa [renamedWord, hbefore] using Renamed.swap hat h
  · have hkept : renamedWord x y before w = w := by
      unfold renamedWord
      rw [if_neg (by simpa using hword)]
    rw [hkept]
    cases w with
    | nil => simpa using h
    | cons c w =>
      refine .keep (fun r heq hat => hword ?_) (.keeps_of_begun (by simpa using hw c (by simp)) ?_ (by simpa using h))
      · obtain ⟨hwx, -⟩ := eq_of_runs hw hat.word hs hat.stop heq
        exact ⟨hwx, fun heq => hat.no_dot (hdot.mp heq)⟩
      · exact (List.forall_mem_cons.mp hw).2

theorem renamed_renameFrom {u w s t t' y : Text} {before : Option Char} (hcode : Mode.code.after u = .code)
    (hstart : u.getLast?.any isNameChar = false) (hdot : before = some '.' ↔ u.getLast? = some '.')
    (hw : ∀ c ∈ w, isNameChar c = true) (hs : ∀ c ∈ s, isQuote c = false)
    (ht : t.head?.any isNameChar = false) (h : Renamed x y (u ++ (w ++ s)) t t') :
    Renamed x y u (w ++ (s ++ t)) (renameFrom x y before w s ++ t') := by
  induction s generalizing u w before with
  | nil => exact renamed_renamedWord hx hcode hstart hdot hw ht (by simpa using h)
  | cons c s ih =>
    obtain ⟨hc, hs⟩ := List.forall_mem_cons.mp hs
    cases hname : isNameChar c with
    | true =>
      rw [renameFrom, if_pos hname]
      have hword : ∀ d ∈ w ++ [c], isNameChar d = true :=
        List.forall_mem_append.mpr ⟨hw, List.forall_mem_singleton.mpr hname⟩
      simpa using ih hcode hstart hdot hword hs (by simpa using h)
    | false =>
      rw [renameFrom, if_neg (by simp [hname]), List.append_assoc]
      refine renamed_renamedWord hx hcode hstart hdot hw (by simpa using hname) (.keep (fun r heq hat => ?_) ?_)
      · obtain ⟨d, v, rfl, hd⟩ := hat.exists_head
        obtain ⟨rfl, -⟩ := List.cons.inj heq
        simp [hd] at hname
      · have hafter : Mode.code.after (u ++ w ++ [c]) = .code := by
          rw [Mode.after_append, Mode.after_append, hcode,
            after_of_no_quote fun d hd => isQuote_of_isNameChar (hw d hd), after_of_no_quote (by simpa using hc)]
        exact ih (w := []) hafter (by simpa using hname) (by simp) (List.forall_mem_nil _) hs (by simpa using h)

theorem renameFrom_nil (y : Text) : renameFrom x y none [] [] = [] := by
  rw [renameFrom, renamedWord, if_neg (by simp [hx.1.symm])]

private theorem renamed_rest {u y : Text} (hcode : Mode.code.after u = .code) {rest : List (Literal × Text)}
    (hrest : SoundRest rest) :
    Renamed x y u (restText rest) (rest.flatMap fun l => l.1.text ++ renameFrom x y none [] l.2) := by
  induction rest generalizing u with
  | nil => exact .nil u
  | cons l rest ih =>
    obtain ⟨hl, hquote, hunclosed, hrest⟩ := hrest
    rw [restText, List.flatMap_cons, List.flatMap_cons, List.append_assoc, List.append_assoc]
    refine .keeps_of_roles (by rw [hcode]; exact hl.role_ne_code) ?_
    cases hclosed : l.1.closed with
    | false =>
      obtain ⟨hempty, rfl⟩ := hunclosed hclosed
      rw [hempty, renameFrom_nil hx]
      exact .nil _
    | true =>
      obtain ⟨hafter, hstart, hdot⟩ := hl.after_closed hcode hclosed
      refine renamed_renameFrom hx (w := []) hafter hstart hdot (List.forall_mem_nil _) hquote
        (any_head?_restText hrest) (ih ?_ hrest)
      rw [List.nil_append, Mode.after_append, hafter, after_of_no_quote hquote]

theorem renamed_rename (y e : Text) : Renamed x y [] e (rename x y e) := by
  have hcode : Mode.code.after (segments e).lead = .code := after_of_no_quote (isQuote_lead e)
  have hdot : (none : Option Char) = some '.' ↔ ([] : Text).getLast? = some '.' := by simp
  have h := renamed_renameFrom hx (w := []) rfl rfl hdot (List.forall_mem_nil _)
    (isQuote_lead e) (any_head?_restText (soundRest_segments e))
    (renamed_rest hx (y := y) (by simpa using hcode) (soundRest_segments e))
  rw [List.nil_append, ← text_segments e] at h
  rw [rename, mapCode_eq]
  exact h

theorem rename_of_not_occurs {e : Text} (y : Text) (h : ¬ Occurs x e) : rename x y e = e :=
  (renamed_rename hx y e).eq_of_not_occurs h

theorem reads_iff_occurs {e : Text} : reads e x = true ↔ Occurs x e := by
  rw [reads, bne_iff_ne]
  constructor
  · intro hne
    by_contra hnot
    exact hne (rename_of_not_occurs hx _ hnot)
  · exact (renamed_rename hx _ e).ne_of_occurs (by decide) (by decide)

theorem occurs_of_rename {y e z : Text} (hy : y ≠ [] ∧ ∀ c ∈ y, isNameChar c = true)
    (h : Occurs z (rename x y e)) : z = y ∨ z ≠ x ∧ Occurs z e :=
  (renamed_rename hx y e).occurs ⟨rfl, rfl, .rfl⟩ hy.1 hy.2 h

end Pseudocode.Indented
