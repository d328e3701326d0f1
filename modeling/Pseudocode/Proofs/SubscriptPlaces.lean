import Pseudocode.Proofs.QuotedText
import Pseudocode.Proofs.RespelledDelimiters

/-! # Where subscripts stand

Subscripts are looked for in the whole text of an expression, its literals included. A literal is left alone if
no subscript of a name that matters begins in it, and none that begins before it ends in it. Then every subscript
of such a name has both its brackets in code. -/

namespace Pseudocode

open Text Pattern

namespace Text

/-- What is no delimiter is neither a quote nor a bracket. -/
theorem plain_of_not_mem {c : Char} (h : c ∉ delimiters) : isQuote c = false ∧ bracketWeight c = 0 := by
  have hne {d : Char} (hd : d ∈ delimiters) : c ≠ d := fun heq => h (heq ▸ hd)
  constructor
  · by_contra hq
    exact h (Setting.mem_delimiters_of_isQuote c (by simpa using hq))
  · have hopen : c ∉ ['(', '[', '{'] := by
      simp [hne (d := '(') (by decide), hne (d := '[') (by decide), hne (d := '{') (by decide)]
    have hclose : c ∉ [')', ']', '}'] := by
      simp [hne (d := ')') (by decide), hne (d := ']') (by decide), hne (d := '}') (by decide)]
    rw [bracketWeight, if_neg hopen, if_neg hclose]

theorem plain_of_isWordChar {c : Char} (h : isWordChar c = true) : isQuote c = false ∧ bracketWeight c = 0 := by
  have hnone : delimiters.all (fun x => !isWordChar x) = true := by decide
  refine plain_of_not_mem fun hm => ?_
  simpa [h] using List.all_eq_true.mp hnone c hm

/-- Square brackets, which delimit subscripts. -/
def isSquare (c : Char) : Bool := c == '[' || c == ']'

theorem isSquare_of_bracketWeight {c : Char} (hc : bracketWeight c = 0) : isSquare c = false := by
  have hopen : c ≠ '[' := fun heq => by simp [heq, bracketWeight] at hc
  have hclose : c ≠ ']' := fun heq => by simp [heq, bracketWeight] at hc
  simp [isSquare, hopen, hclose]

/-- The string literals of a text, in order. -/
def literals (s : Text) : List Literal := (segments s).rest.map Prod.fst

/-- The words that stand directly before the opening square brackets of a text, after what was read. -/
def subscriptedWords (seen : Text) : Text → List Text
  | [] => []
  | c :: s =>
    if c = '[' then (seen.takeWhile isWordChar).reverse :: subscriptedWords (c :: seen) s
    else subscriptedWords (c :: seen) s

/-- A literal without a part of a subscript of some names: none of them begins in it, and no subscript ends in it
that begins before it. -/
structure Literal.Unsubscripted (indexed : Text → Bool) (l : Literal) : Prop where
  begins : ∀ n ∈ subscriptedWords [] l.body, indexed n = false
  ends : ']' ∉ l.body.takeWhile (· != '[')

instance (indexed : Text → Bool) (l : Literal) : Decidable (l.Unsubscripted indexed) :=
  decidable_of_iff ((∀ n ∈ subscriptedWords [] l.body, indexed n = false) ∧ ']' ∉ l.body.takeWhile (· != '['))
    ⟨fun h => ⟨h.1, h.2⟩, fun h => ⟨h.1, h.2⟩⟩

/-- Every subscript of one of the names has both its brackets in code. -/
def SubscriptsInCode (indexed : Text → Bool) (s : Text) : Prop :=
  ∀ u w x v, s = u ++ (w ++ '[' :: (x ++ ']' :: v)) → u.reverse.head?.any isWordChar = false →
    (∀ c ∈ w, isWordChar c = true) → (∀ c ∈ x, isSquare c = false) → indexed w = true →
    Mode.code.after u = .code ∧ Mode.code.after x = .code

/-! ### Reading the bodies of literals -/

/-- Notes what was read of a literal, the last character first. A bracket is refused at which a subscript of one of
the names begins, or at which a subscript ends that began before the literal. -/
def noteBody (indexed : Text → Bool) (seen : Text) (x : Char × Role) : Option Text :=
  if x.2 = .code then some seen
  else if x.2 ≠ .body then some []
  else if x.1 = '[' ∧ indexed (seen.takeWhile isWordChar).reverse = true ∨ x.1 = ']' ∧ '[' ∉ seen then none
  else some (x.1 :: seen)

variable {indexed : Text → Bool} {seen s : Text} {m : Mode}

theorem skipsCode_noteBody : SkipsCode (noteBody indexed) := fun _ _ _ => rfl

theorem role_inside {c : Char} (hm : m.Sound) (hne : m ≠ .code) :
    m.role c = .closing ∧ m.next c = .code ∨ m.role c = .body ∧ m.next c ≠ .code := by
  cases m with
  | code => exact absurd rfl hne
  | literal q =>
    by_cases hc : c = q
    · subst hc
      have hback : c ≠ '\\' := by
        rintro rfl
        exact absurd (show isQuote _ = true from hm) (by decide)
      exact .inl ⟨if_pos rfl, by simp [Mode.next, hback]⟩
    · refine .inr ⟨if_neg hc, ?_⟩
      by_cases hback : c = '\\' <;> simp [Mode.next, hback, hc]
  | escaped q => exact .inr ⟨rfl, by simp [Mode.next]⟩

private theorem role_of_no_quote {c : Char} (hm : m.Sound) (hne : m ≠ .code) (hc : isQuote c = false) :
    m.role c = .body := by
  rcases role_inside (c := c) hm hne with ⟨_, hnext⟩ | ⟨hrole, _⟩
  · exact absurd hnext (after_ne_code hm hne (s := [c]) (by simpa using hc))
  · exact hrole

theorem read_noteBody_cases (h : read (noteBody indexed) .code [] s = some seen) :
    Mode.code.after s = .code ∧ seen = [] ∨
      Mode.code.after s ≠ .code ∧ ∃ u q, isQuote q = true ∧ s = u ++ q :: seen.reverse := by
  induction s using List.reverseRecOn generalizing seen with
  | nil => exact .inl ⟨rfl, (Option.some.inj h).symm⟩
  | append_singleton s c ih =>
    obtain ⟨seen', hs, hnote⟩ := read_append_eq_some.mp h
    rw [read_singleton] at hnote
    rw [Mode.after_append, Mode.after_cons, Mode.after_nil]
    rcases ih hs with ⟨hcode, rfl⟩ | ⟨hne, u, q, hq, hu⟩
    · rw [hcode] at hnote ⊢
      cases hc : isQuote c with
      | true =>
        have hrole : Mode.code.role c = .opening := by simp [Mode.role, hc]
        rw [hrole] at hnote
        obtain rfl := Option.some.inj hnote
        exact .inr ⟨by simp [Mode.next, hc], s, c, hc, rfl⟩
      | false =>
        rw [(code_of_no_quote hc).1] at hnote
        obtain rfl := Option.some.inj hnote
        exact .inl ⟨(code_of_no_quote hc).2, rfl⟩
    · rcases role_inside (c := c) (Mode.Sound.after (m := .code) trivial s) hne with
        ⟨hrole, hnext⟩ | ⟨hrole, hnext⟩
      · rw [hrole] at hnote
        obtain rfl := Option.some.inj hnote
        exact .inl ⟨hnext, rfl⟩
      · rw [hrole, noteBody, if_neg (by simp), if_neg (by simp)] at hnote
        split at hnote
        · cases hnote
        · obtain rfl := Option.some.inj hnote
          exact .inr ⟨hnext, u, q, hq, by rw [hu]; simp⟩

private theorem takeWhile_of_suffix {u w v : Text} {q : Char} (hu : u.reverse.head?.any isWordChar = false)
    (hw : ∀ c ∈ w, isWordChar c = true) (hq : isQuote q = true) (h : u ++ w = v ++ q :: seen.reverse) :
    (seen.takeWhile isWordChar).reverse = w := by
  have hstop (a b : Text) (hb : b.head?.any isWordChar = false) :
      (a ++ b).takeWhile isWordChar = a.takeWhile isWordChar := by
    rw [List.takeWhile_append]
    split
    · next hall =>
      have hnil : b.takeWhile isWordChar = [] := by
        cases b with
        | nil => rfl
        | cons d b => exact List.takeWhile_cons_of_neg (by simpa using hb)
      rw [hnil, List.append_nil, List.takeWhile_eq_self_iff.mpr]
      exact List.takeWhile_eq_self_iff.mp ( List.takeWhile_prefix _ |>.eq_of_length hall)
    · rfl
  have hquote : isWordChar q = false := by
    by_contra hword
    simp [(plain_of_isWordChar (by simpa using hword)).1] at hq
  have hreverse : w.reverse ++ u.reverse = seen ++ q :: v.reverse := by
    simpa using congrArg List.reverse h
  have hword := congrArg (List.takeWhile isWordChar) hreverse
  rw [hstop _ _ hu, hstop _ _ (by simpa using hquote)] at hword
  rw [← hword, List.takeWhile_eq_self_iff.mpr (by simpa using hw), List.reverse_reverse]

/-- What is read without refusal has its subscripts in code. -/
theorem subscriptsInCode_of_read (h : read (noteBody indexed) .code [] s = some seen) : SubscriptsInCode indexed s := by
  rintro u w x v rfl hu hw hx hindexed
  have hwords : ∀ c ∈ w, isQuote c = false ∧ bracketWeight c = 0 := fun c hc => plain_of_isWordChar (hw c hc)
  rw [← List.append_assoc] at h
  obtain ⟨seen₁, hread₁, h⟩ := read_append_eq_some.mp h
  obtain ⟨seen₂, hopen, h⟩ := read_cons_eq_some.mp h
  have hcode : Mode.code.after (u ++ w) = .code := by
    by_contra hne
    obtain ⟨-, v', q, hq, heq⟩ := (read_noteBody_cases hread₁).resolve_left fun h => hne h.1
    -- the word before the bracket would be indexed, and the bracket refused
    rw [role_of_no_quote (Mode.Sound.after (m := .code) trivial (u ++ w)) hne (by decide), noteBody,
      if_neg (by simp), if_neg (by simp), if_pos] at hopen
    · cases hopen
    · rw [takeWhile_of_suffix hu hw hq heq]
      exact .inl ⟨rfl, hindexed⟩
  have hbefore : Mode.code.after u = .code := by
    by_contra hne
    rw [Mode.after_append] at hcode
    exact after_ne_code (Mode.Sound.after (m := .code) trivial u) hne (fun c hc => (hwords c hc).1) hcode
  refine ⟨hbefore, ?_⟩
  obtain rfl : seen₁ = [] := ((read_noteBody_cases hread₁).resolve_right fun h => h.1 hcode).2
  rw [hcode, (code_of_no_quote (c := '[') (by decide)).1] at hopen
  obtain rfl := Option.some.inj hopen
  rw [hcode, (code_of_no_quote (c := '[') (by decide)).2] at h
  obtain ⟨seen₃, hread₃, h⟩ := read_append_eq_some.mp h
  obtain ⟨_, hclose, _⟩ := read_cons_eq_some.mp h
  by_contra hne
  obtain ⟨-, u', q, _, rfl⟩ := (read_noteBody_cases hread₃).resolve_left fun h => hne h.1
  -- the literal begins inside the subscript, so it has no bracket yet
  have hnone : '[' ∉ seen₃ := fun hmem => absurd (hx '[' (by simp [hmem])) (by decide)
  rw [role_of_no_quote (Mode.Sound.after (m := .code) trivial (u' ++ q :: seen₃.reverse)) hne (by decide), noteBody,
    if_neg (by simp), if_neg (by simp), if_pos (.inr ⟨rfl, hnone⟩)] at hclose
  cases hclose

private theorem read_body (hroles : ∀ x ∈ rolesFrom m s, x.2 = .body)
    (hbegins : ∀ n ∈ subscriptedWords seen s, indexed n = false)
    (hends : '[' ∈ seen ∨ ']' ∉ s.takeWhile (· != '[')) :
    read (noteBody indexed) m seen s = some (s.reverse ++ seen) := by
  induction s generalizing m seen with
  | nil => rfl
  | cons c s ih =>
    obtain ⟨hrole, hroles⟩ := List.forall_mem_cons.mp hroles
    dsimp only at hrole
    have hnote : noteBody indexed seen (c, m.role c) = some (c :: seen) := by
      rw [hrole, noteBody, if_neg (by simp), if_neg (by simp), if_neg]
      rintro (⟨rfl, hindexed⟩ | ⟨rfl, hnone⟩)
      · rw [subscriptedWords, if_pos rfl] at hbegins
        rw [hbegins _ List.mem_cons_self] at hindexed
        cases hindexed
      · simpa using hends.resolve_left hnone
    rw [read_cons, hnote, Option.bind_some, ih hroles, List.reverse_cons, List.append_assoc, List.singleton_append]
    · intro n hn
      refine hbegins n ?_
      rw [subscriptedWords]
      split
      · exact List.mem_cons_of_mem _ hn
      · exact hn
    · by_cases hc : c = '['
      · exact .inl (by simp [hc])
      · refine hends.imp (List.mem_cons_of_mem _) fun hnone hmem => hnone ?_
        rw [List.takeWhile_cons_of_pos (by simpa using hc)]
        exact List.mem_cons_of_mem _ hmem

private theorem Literal.Unsubscripted.read {l : Literal} (h : l.Unsubscripted indexed) (hl : l.Sound) :
    ∃ seen, Text.read (noteBody indexed) .code [] l.text = some seen ∧ (l.closed = true → seen = []) := by
  have hbody := read_body hl.body h.begins (.inr h.ends)
  rw [List.append_nil] at hbody
  have hopen : noteBody indexed [] (l.quote, Mode.code.role l.quote) = some [] := by
    rw [hl.open_quote.1]
    rfl
  rw [Literal.text, read_cons, hopen, Option.bind_some, hl.open_quote.2, read_append, hbody, Option.bind_some]
  cases hclosed : l.closed with
  | false => exact ⟨_, rfl, by simp⟩
  | true =>
    refine ⟨[], ?_, fun _ => rfl⟩
    rw [hl.closed hclosed, if_pos rfl, read_cons, hl.close_quote.1]
    rfl

theorem exists_read_of_unsubscripted (h : ∀ l ∈ literals s, l.Unsubscripted indexed) :
    ∃ seen, read (noteBody indexed) .code [] s = some seen := by
  have hcode {t : Text} (ht : ∀ c ∈ t, isQuote c = false) : read (noteBody indexed) .code [] t = some [] := by
    rw [read, rolesFrom_of_no_quote ht]
    clear ht
    induction t with
    | nil => rfl
    | cons c t ih => exact ih
  have hrest (rest : List (Literal × Text)) (hrest : SoundRest rest)
      (h : ∀ l ∈ rest.map Prod.fst, l.Unsubscripted indexed) :
      ∃ seen, read (noteBody indexed) .code [] (restText rest) = some seen := by
    induction rest with
    | nil => exact ⟨[], rfl⟩
    | cons y rest ih =>
      obtain ⟨hy, hquote, hunclosed, hsound⟩ := hrest
      obtain ⟨hl, h⟩ := List.forall_mem_cons.mp h
      obtain ⟨seen, hread, hseen⟩ := hl.read hy
      rw [restText, List.flatMap_cons, List.append_assoc, read_append, hread, Option.bind_some]
      cases hclosed : y.1.closed with
      | true =>
        rw [hseen hclosed, hy.after_text hclosed, read_append, hcode hquote, Option.bind_some,
          after_of_no_quote hquote]
        exact ih hsound h
      | false =>
        obtain ⟨hempty, rfl⟩ := hunclosed hclosed
        rw [hempty]
        exact ⟨seen, rfl⟩
  rw [text_segments s, read_append, hcode (isQuote_lead s), Option.bind_some, after_of_no_quote (isQuote_lead s)]
  exact hrest _ (soundRest_segments s) h

end Text

/-- Whether subscripts of a name are rewritten. -/
def Setting.indexes (st : Setting) (n : Text) : Bool :=
  st.style.substrings && st.symbols.notes.isString n || st.style.records && st.symbols.survey.records.has n

end Pseudocode
