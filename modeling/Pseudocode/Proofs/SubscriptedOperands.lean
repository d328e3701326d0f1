import Pseudocode.Proofs.BracketNesting
import Pseudocode.Proofs.JoinedOperands

/-! # Subscripts in the operands of a sum

Subscripts are rewritten in the whole text of a sum, its literals included. An operand with nested brackets is
rewritten as if it stood alone. A literal stays if no name whose subscripts are rewritten stands before a square
bracket in it, even where a subscript seems to begin in it and to end in another operand. -/

namespace Pseudocode

open Text Pattern

/-- A text as a literal in double quotes. -/
abbrev Text.quoted (s : Text) : Text := Literal.text ⟨'"', s, true⟩

theorem mem_subscriptedWords {seen a w b : Text} (hw : ∀ c ∈ w, isWordChar c = true)
    (ha : (a.reverse ++ seen).head?.any isWordChar = false) :
    w ∈ subscriptedWords seen (a ++ (w ++ '[' :: b)) := by
  have hpast (x s : Text) (seen : Text) (h : w ∈ subscriptedWords (x.reverse ++ seen) s) :
      w ∈ subscriptedWords seen (x ++ s) := by
    induction x generalizing seen with
    | nil => exact h
    | cons c x ih =>
      have hnext := ih (c :: seen) (by simpa using h)
      rw [List.cons_append, subscriptedWords]
      split
      · exact List.mem_cons_of_mem _ hnext
      · exact hnext
  refine hpast a _ seen (hpast w _ _ ?_)
  have hrun : (w.reverse ++ (a.reverse ++ seen)).takeWhile isWordChar = w.reverse := by
    rw [List.takeWhile_append_of_pos (by simpa using hw)]
    cases hseen : a.reverse ++ seen with
    | nil => simp
    | cons d t =>
      rw [hseen] at ha
      rw [List.takeWhile_cons_of_neg (by simpa using ha), List.append_nil]
  rw [subscriptedWords, if_pos rfl, hrun, List.reverse_reverse]
  exact List.mem_cons_self

/-- Every match is a subscript of the name in the first group. -/
def Subscripts (p : Pattern) : Prop :=
  ∀ seen t rest g, Way p seen t rest g → ∃ w x, t = w ++ '[' :: (x ++ [']']) ∧
    Match.group ⟨seen, t, g⟩ 1 = w ∧ w ≠ [] ∧ (∀ c ∈ w, isWordChar c = true) ∧
    seen.head?.any isWordChar = false ∧ ∀ c ∈ x, isSquare c = false

section

variable {p : Pattern}

theorem subscripts_subscript : Subscripts Setting.subscript := by
  intro seen t rest g hway
  obtain ⟨w, x, rfl, hname, -, hw, hx⟩ := Setting.reads_subscript (m := ⟨seen, t, g⟩) hway.reads
  obtain ⟨hne, hfree⟩ := Setting.free_of_way (by decide) (by decide) hw hway
  exact ⟨w, x, rfl, hname, hne, hw, hfree, hx⟩

theorem subscripts_recordAccess : Subscripts Setting.recordAccess := by
  intro seen t rest g hway
  obtain ⟨w, x, _, rfl, hname, -, hw, -, hx⟩ := Setting.reads_recordAccess (m := ⟨seen, t, g⟩) hway.reads
  obtain ⟨hne, hfree⟩ := Setting.free_of_way (by decide) (by decide) hw hway
  exact ⟨w, x, rfl, hname, hne, hw, hfree, fun c hc => isSquare_of_bracketWeight (hx c hc)⟩

private theorem Subscripts.not_inside (hp : Subscripts p) {seen u v rest : Text} {g : Groups}
    (h : Way p seen (u ++ v) rest g) (hu : u ≠ []) (hv : v ≠ []) {t b : Text} {g' : Groups}
    (hb : v ++ rest = t ++ b) : ¬ Way p (u.reverse ++ seen) t b g' := by
  intro h'
  obtain ⟨w, x, ht, -, -, hw, -, hx⟩ := hp _ _ _ _ h
  obtain ⟨w', x', rfl, -, -, hw', hfree, -⟩ := hp _ _ _ _ h'
  have hword : ¬ ∀ c ∈ u, isWordChar c = true := by
    intro hall
    obtain ⟨c, hc⟩ := Option.ne_none_iff_exists'.mp (mt List.getLast?_eq_none_iff.mp hu)
    simp [hc, hall c (List.mem_of_getLast? hc)] at hfree
  have hsquare {c : Char} (hc : isWordChar c = true) : (!isSquare c) = true := by
    simp [isSquare_of_bracketWeight (plain_of_isWordChar hc).2]
  rcases List.append_eq_append_iff.mp ht with ⟨r, hr, -⟩ | ⟨r, hr, hrest⟩
  · exact hword fun c hc => hw c (by rw [hr]; exact List.mem_append_left _ hc)
  cases r with
  | nil => exact hword fun c hc => hw c (by simpa [hr] using hc)
  | cons e r =>
    cases v using List.reverseRecOn with
    | nil => exact hv rfl
    | append_singleton y e' =>
      have htail : x ++ [']'] = r ++ y ++ [e'] := by simpa using (List.cons.inj hrest).2
      obtain ⟨rfl, hlast⟩ := List.append_inj' htail rfl
      obtain rfl : ']' = e' := by simpa using hlast
      have hy : ∀ c ∈ y, (!isSquare c) = true := fun c hc => by simp [hx c (List.mem_append_right _ hc)]
      rw [List.append_assoc, List.append_assoc, List.cons_append] at hb
      obtain ⟨-, hne, -⟩ := eq_of_runs_cons hy (fun c hc => hsquare (hw' c hc)) (by decide) (by decide) hb
      exact absurd hne (by decide)

private theorem Subscripts.rewrites (hp : Subscripts p) {f : Match → Text} {before x rest : Text}
    (hx : ∀ u v t b g, x = u ++ v → v ++ rest = t ++ b → Way p (u.reverse ++ before) t b g →
      v ≠ [] → f ⟨u.reverse ++ before, t, g⟩ = t) : Rewrites p f before x x rest := by
  unfold Rewrites
  induction x generalizing before with
  | nil => rfl
  | cons c x ih =>
    have hnext : Rewrites p f (c :: before) x x rest := ih fun u v t b g huv hb hway hv => by
      simpa using hx (c :: u) v t b g (by rw [huv]; rfl) hb (by simpa using hway) hv
    have hstep : p.replaceFrom f 0 before (c :: (x ++ rest)) = c :: p.replaceFrom f 0 (c :: before) (x ++ rest) := by
      rcases replaceFrom_cases p f before c (x ++ rest) with
        ⟨m, b, _, hb, hne, hseen, hway, hreplace⟩ | ⟨_, hkeep⟩
      · obtain ⟨d, t, ht⟩ := List.exists_cons_of_ne_nil hne
        have hkept : f m = m.text := by
          rw [← hx [] (c :: x) m.text b m.groups rfl hb hway (List.cons_ne_nil _ _), ← hseen]
          rfl
        rw [ht] at hb hway
        obtain ⟨rfl, hrest⟩ : c = d ∧ x ++ rest = t ++ b := List.cons.inj hb
        -- nothing begins inside the subscript, so it can be passed character by character
        have hpassed : Rewrites p f (c :: before) t t b := by
          refine Rewrites.of_no_match fun u v huv hv t' b' g' hb' hway' => ?_
          subst huv
          exact absurd (by simpa using hway') (hp.not_inside (u := c :: u) hway (List.cons_ne_nil _ _) hv hb')
        rw [hreplace, hkept, ht, hrest, show p.replaceFrom f 0 (c :: before) (t ++ b) = _ from hpassed]
        simp
      · exact hkeep
    rw [List.cons_append, hstep, show p.replaceFrom f 0 (c :: before) (x ++ rest) = _ from hnext]
    simp

theorem Subscripts.rewrites_literal (hp : Subscripts p) {f : Match → Text} {l before rest : Text}
    (hf : ∀ m : Match, m.group 1 ∈ subscriptedWords [] l → f m = m.text) :
    Rewrites p f before (quoted l) (quoted l) rest := by
  refine hp.rewrites fun u v t b g huv hb hway hv => hf ⟨u.reverse ++ before, t, g⟩ ?_
  obtain ⟨w, x, rfl, hname, hne, hw, hfree, -⟩ := hp _ _ _ _ hway
  rw [hname]
  have hquote : '"' ∉ w := fun hmem => absurd (hw _ hmem) (by decide)
  cases u with
  | nil =>
    obtain ⟨c, w, rfl⟩ := List.exists_cons_of_ne_nil hne
    obtain rfl : '"' = c := by
      rw [List.nil_append] at huv
      rw [← huv] at hb
      exact (List.cons.inj hb).1
    exact absurd List.mem_cons_self hquote
  | cons q a =>
    cases v using List.reverseRecOn with
    | nil => exact absurd rfl hv
    | append_singleton v q' =>
      obtain ⟨rfl, htail⟩ : '"' = q ∧ l ++ ['"'] = a ++ v ++ [q'] := by
        simpa [Literal.text] using huv
      obtain ⟨rfl, hlast⟩ := List.append_inj' htail rfl
      obtain rfl : '"' = q' := by simpa using hlast
      have hsplit : v ++ '"' :: rest = (w ++ ['[']) ++ (x ++ ']' :: b) := by simpa using hb
      obtain ⟨y, rfl, -⟩ := exists_of_prefix hsplit (by rintro d ⟨⟩; simpa using hquote)
      have hfree' : (a.reverse ++ []).head?.any isWordChar = false := by
        cases ha : a.reverse with
        | nil => rfl
        | cons d a' => simpa [ha] using hfree
      simpa using mem_subscriptedWords hw hfree' (b := y)

end

/-- A square bracket of a nested text is followed by another one. -/
theorem exists_square {a b : Text} (h : Nested (a ++ '[' :: b)) (hquotes : ∀ c ∈ a ++ '[' :: b, isQuote c = false) :
    ∃ c ∈ b, isSquare c = true := by
  by_contra h'
  have hnone : ∀ c ∈ b, isSquare c = false := by simpa using h'
  have hread := nested_iff.mp h
  rw [read_append_eq_some] at hread
  obtain ⟨due, -, hread⟩ := hread
  rw [after_of_no_quote fun c hc => hquotes c (List.mem_append_left _ hc), read_cons] at hread
  obtain ⟨ω, -, hdue, -⟩ := exists_read_above (ω := []) hnone List.not_mem_nil hread
  simp at hdue

theorem matchesInside_subscript {t before after : Text} (hquotes : ∀ c ∈ t, isQuote c = false) (ht : Nested t)
    (hbefore : before.head?.any isWordChar = false) (hafter : Beside '+' after) :
    MatchesInside Setting.subscript t before after := by
  have hhead : ∀ d ∈ after.head?, d = ' ' := by
    rcases hafter with rfl | ⟨s, rfl⟩
    · simp
    · rintro d ⟨⟩
      rfl
  have hword : after.head?.any isWordChar = false := hafter.head
  intro c hc _
  have hclose : Agree t before [] after (·.inside before) ((Pattern.text "]").matchThen (ending c))
      ((Pattern.text "]").matchThen (ending (c.inside before after))) := by
    refine Agree.matchThen rfl ⟨fun g c' _ => ending_inside c c' g, fun x y hxy hx => by simp [hx] at hxy⟩ ?_
      hbefore hword
    intro d hd
    rw [hhead d hd]
    decide
  let subscript' : Pattern := "[" ++ (.group 2 (most1 (noneOf "[]")) ++ "]")
  have hopen : Agree t before [] after (·.inside before) (subscript'.matchThen (ending c))
      (subscript'.matchThen (ending (c.inside before after))) := by
    refine ⟨fun g c' hc' => ?_, fun x y hxy hx => by simp [hx] at hxy⟩
    obtain ⟨seen, rest⟩ := c'
    by_cases hbracket : rest.head? = some '['
    · obtain ⟨r, rfl⟩ : ∃ r, rest = '[' :: r := List.head?_eq_some_iff.mp hbracket
      have htext : seen.reverse ++ '[' :: r = t := hc'
      rw [← htext] at ht hquotes
      obtain ⟨d, hd, hsquare⟩ := exists_square ht hquotes
      have hnone : noneOf "[]" d = false := by
        rcases (Bool.or_eq_true _ _).mp hsquare with h | h <;> rw [beq_iff_eq.mp h] <;> decide
      exact matchThen_most1_inside hclose.same (c := ⟨'[' :: seen, r⟩) (by simpa [Cursor.text] using hc')
        ⟨d, hd, hnone⟩ g
    · have hoff {β : Type} (k : Groups → Cursor → Option β) (seen s : Text) (hs : s.head? ≠ some '[') :
          subscript'.matchThen k g ⟨seen, s⟩ = none := by
        cases s with
        | nil => rfl
        | cons e s =>
          have hne : ¬ '[' = e := fun heq => hs (by rw [heq]; rfl)
          change ((after? "[".toList (e :: s)).bind _) = none
          simp [after?, hne]
      have hnext : (rest ++ after).head? ≠ some '[' := by
        cases rest with
        | nil => exact fun h => absurd (hhead _ h) (by decide)
        | cons => exact hbracket
      exact (hoff _ _ _ hnext).trans (by rw [hoff _ _ _ hbracket]; rfl)
  refine (hopen.matchThen (p := .wordEdge ++ .group 1 name) (by decide) ?_ hbefore hword).same [] c hc
  intro d hd
  rw [hhead d hd]
  decide

theorem not_recordAccess {u v before after t b : Text} {g : Groups} (hquotes : ∀ c ∈ u ++ v, isQuote c = false)
    (hnested : Nested (u ++ v)) (hafter : Beside '+' after) (hb : v ++ after = t ++ b) :
    ¬ Way Setting.recordAccess before t b g := by
  intro hway
  obtain ⟨w, x, rfl, -, -, hw, -, hx⟩ := subscripts_recordAccess _ _ _ _ hway
  obtain ⟨c, hc, hquote⟩ := Setting.exists_quote_of_recordAccess hway.reads
  have hsplit : v ++ after = (w ++ ['[']) ++ (x ++ ']' :: b) := by simpa using hb
  have hspace : ∀ d ∈ after.head?, d ∉ w ++ ['['] := by
    rcases hafter with rfl | ⟨s, rfl⟩
    · simp
    · rintro d ⟨⟩
      have hword : ' ' ∉ w := fun hmem => absurd (hw _ hmem) (by decide)
      simpa using hword
  obtain ⟨y, rfl, hy⟩ := exists_of_prefix hsplit hspace
  rw [List.append_assoc, List.singleton_append, ← List.append_assoc] at hnested hquotes
  obtain ⟨e, he, hsquare⟩ := exists_square hnested hquotes
  have hinside : c ∈ x → c ∈ y := by
    intro hc
    rcases List.append_eq_append_iff.mp hy with ⟨r, rfl, -⟩ | ⟨r, rfl, -⟩
    · exact List.mem_append_left _ hc
    · exact absurd hsquare (by simp [hx e (List.mem_append_left _ he)])
  have hmem : c ∈ u ++ w ++ '[' :: y ∨ c = ']' := by
    rcases List.mem_append.mp hc with hc | hc
    · simp [hc]
    · rcases (by simpa using hc : c = '[' ∨ c ∈ x ∨ c = ']') with rfl | hc | rfl
      · simp
      · simp [hinside hc]
      · simp
  rcases hmem with hmem | rfl
  · simp [hquotes c hmem] at hquote
  · exact absurd hquote (by decide)

/-! ### Sums -/

namespace Setting

/-- An operand of a sum: a literal in which no subscript is rewritten, or nested code without quotes. -/
inductive Summand (st : Setting) : Text → Prop
  | literal {l : Text} (h : ∀ n ∈ subscriptedWords [] l, st.indexes n = false) :
      Summand st (quoted l)
  | code {t : Text} (hquotes : ∀ c ∈ t, isQuote c = false) (hnested : Nested t) : Summand st t

variable {st : Setting}

section

variable {p : Pattern} {f : Match → Text} (hp : Subscripts p)
  (hf : ∀ m : Match, st.indexes (m.group 1) = false → f m = m.text)

include hp hf

theorem replace_literal {l : Text} (h : ∀ n ∈ subscriptedWords [] l, st.indexes n = false) :
    p.replace f (quoted l) = quoted l := by
  have hkept : Rewrites p f [] (quoted l) (quoted l) [] :=
    hp.rewrites_literal fun m hm => hf m (h _ hm)
  simpa [Rewrites, replace] using hkept

/-- Subscripts are replaced operand by operand if they are in nested code. -/
theorem replace_sum (hspace : p.canBegin ' ' = false) (hsign : p.canBegin '+' = false)
    (hcode : ∀ {t before after : Text}, (∀ c ∈ t, isQuote c = false) → Nested t → Beside '+' before →
      Beside '+' after → Rewrites p f before t (p.replace f t) after)
    {ts : List Text} (hts : ∀ t ∈ ts, st.Summand t) :
    p.replace f (join (joint '+') ts) = join (joint '+') (ts.map (p.replace f)) := by
  have hapart : Apart '+' st.Summand p f := by
    refine ⟨fun ht hbefore hafter => ?_, fun _ _ => rewrites_joint hspace hsign⟩
    cases ht with
    | literal h =>
      rw [replace_literal hp hf h]
      exact hp.rewrites_literal fun m hm => hf m (h _ hm)
    | code hquotes hnested => exact hcode hquotes hnested hbefore hafter
  exact hapart.replace_join fun t ht => .inr (hts t ht)

omit hp in
private theorem recordAccess_sum {ts : List Text} (hts : ∀ t ∈ ts, st.Summand t) :
    recordAccess.replace f (join (joint '+') ts) = join (joint '+') ts := by
  have hcode {t before after : Text} (hquotes : ∀ c ∈ t, isQuote c = false) (hnested : Nested t)
      (hafter : Beside '+' after) : Rewrites recordAccess f before t t after := by
    refine Rewrites.of_no_match fun u v huv hv t' b g hb hway => ?_
    subst huv
    exact absurd hway (not_recordAccess hquotes hnested hafter hb)
  have hsame {t : Text} (hquotes : ∀ c ∈ t, isQuote c = false) (hnested : Nested t) :
      recordAccess.replace f t = t := by
    have halone : Rewrites recordAccess f [] t t [] := hcode hquotes hnested (.inl rfl)
    simpa [Rewrites, replace] using halone
  have hall : ∀ t ∈ ts, recordAccess.replace f t = t := by
    intro t ht
    cases hts t ht with
    | literal h => exact replace_literal subscripts_recordAccess hf h
    | code hquotes hnested => exact hsame hquotes hnested
  rw [replace_sum subscripts_recordAccess hf (by decide) (by decide) (fun hquotes hnested _ hafter => ?_) hts,
    List.map_congr_left hall, List.map_id']
  rw [hsame hquotes hnested]
  exact hcode hquotes hnested hafter

end

theorem isString_eq_false {n : Text} (hstyle : st.style.substrings = true) (h : st.indexes n = false) :
    st.symbols.notes.isString n = false := by
  simp only [indexes, hstyle, Bool.true_and, Bool.or_eq_false_iff] at h
  exact h.1

private theorem has_eq_false {n : Text} (hstyle : st.style.records = true) (h : st.indexes n = false) :
    st.symbols.survey.records.has n = false := by
  simp only [indexes, hstyle, Bool.true_and, Bool.or_eq_false_iff] at h
  exact h.2

theorem stringIndex_literal {l : Text} (h : ∀ n ∈ subscriptedWords [] l, st.indexes n = false) :
    st.stringIndex (quoted l) = quoted l := by
  unfold stringIndex
  split
  · next hstyle =>
    exact replace_literal subscripts_subscript (fun m hm => by simp [isString_eq_false hstyle hm]) h
  · rfl

/-- The subscripts of a sum are rewritten operand by operand. -/
theorem stringIndex_sum {ts : List Text} (hts : ∀ t ∈ ts, st.Summand t) :
    st.stringIndex (join (joint '+') ts) = join (joint '+') (ts.map st.stringIndex) := by
  unfold stringIndex
  split
  · next hstyle =>
    refine replace_sum subscripts_subscript (fun m hm => by simp [isString_eq_false hstyle hm]) (by decide)
      (by decide) (fun hquotes hnested hbefore hafter => ?_) hts
    exact (matchesInside_subscript hquotes hnested hbefore.head hafter).rewrites fun _ _ _ => rfl
  · simp

/-- No operand of a sum has a subscript of a record. -/
theorem fieldAccess_sum {ts : List Text} (hts : ∀ t ∈ ts, st.Summand t) :
    st.fieldAccess (join (joint '+') ts) = join (joint '+') ts := by
  unfold fieldAccess
  split
  · next hstyle =>
    have hrecords : st.style.records = true := (Bool.and_eq_true_iff.mp hstyle).1
    exact recordAccess_sum (fun m hm => by simp [has_eq_false hrecords hm]) hts
  · rfl

/-! ### Operands without a sum -/

/-- The depth of brackets after one more character. Quotes are refused, and a plus outside brackets. -/
def operandDepthAfter (n : Int) (c : Char) : Option Int :=
  if isQuote c || c == '+' && n == 0 then none else some (n + bracketWeight c)

/-- The depth of brackets after a text that is no sum. -/
def depth (n : Int) (t : Text) : Option Int := t.foldlM operandDepthAfter n

theorem depth_cons (n : Int) (c : Char) (t : Text) : depth n (c :: t) = (operandDepthAfter n c).bind (depth · t) := rfl

theorem depth_append (n : Int) (s t : Text) : depth n (s ++ t) = (depth n s).bind (depth · t) :=
  List.foldlM_append

theorem isQuote_of_depth {t : Text} {n n' : Int} (h : depth n t = some n') : ∀ c ∈ t, isQuote c = false := by
  induction t generalizing n with
  | nil => exact List.forall_mem_nil _
  | cons c t ih =>
    obtain ⟨m, hm, ht⟩ := Option.bind_eq_some_iff.mp h
    refine List.forall_mem_cons.mpr ⟨?_, ih ht⟩
    unfold operandDepthAfter at hm
    split at hm
    · cases hm
    · next hc => simp_all

theorem depth_of_plain {t : Text} (ht : ∀ c ∈ t, isQuote c = false ∧ bracketWeight c = 0) (hplus : '+' ∉ t)
    (n : Int) : depth n t = some n := by
  induction t with
  | nil => rfl
  | cons c t ih =>
    obtain ⟨hc, ht⟩ := List.forall_mem_cons.mp ht
    rw [List.mem_cons, not_or] at hplus
    have hstep : operandDepthAfter n c = some n := by simp [operandDepthAfter, hc.1, hc.2, Ne.symm hplus.1]
    rw [depth_cons, hstep]
    exact ih ht hplus.2

private theorem depth_trim (n : Int) (t : Text) : depth n (trim t) = depth n t := by
  obtain ⟨b₁, b₂, ht, hb₁, hb₂⟩ := exists_trim t
  have hblanks {b : Text} (hb : ∀ c ∈ b, isBlank c = true) (m : Int) : depth m b = some m := by
    refine depth_of_plain (fun c hc => ?_) (fun hmem => absurd (hb _ hmem) (by decide)) m
    exact ⟨isQuote_of_isBlank (hb c hc), bracketWeight_of_isBlank (hb c hc)⟩
  conv_rhs => rw [ht]
  rw [depth_append, hblanks hb₁, Option.bind_some, depth_append]
  simp only [hblanks hb₂, Option.bind_fun_some]

private theorem depth_call {d : Dialect} (hst : st.style = d.style) {w : Text} (hw : ∀ c ∈ w, isWordChar c = true)
    (x : Text) (n : Int) :
    depth n (st.kw .substringWord ++ "(" ++ w ++ ", " ++ trim x ++ ", 1)") = depth n (w ++ '[' :: (x ++ [']'])) := by
  have hword (m : Int) : depth m w = some m :=
    depth_of_plain (fun c hc => plain_of_isWordChar (hw c hc)) (fun hmem => absurd (hw _ hmem) (by decide)) m
  have hkw : depth n (st.kw .substringWord) = some n := by
    refine depth_of_plain (plain_kw hst _) ?_ n
    rw [kw, hst]
    cases d <;> decide
  have hround : depth n "(" = some (n + 1) := by simp [depth, operandDepthAfter, isQuote, bracketWeight]
  have hsquare : operandDepthAfter n '[' = some (n + 1) := by simp [operandDepthAfter, isQuote, bracketWeight]
  have hcomma (m : Int) : depth m ", " = some m := depth_of_plain (plain_of_all (by decide)) (by decide) m
  have hend (m : Int) : depth m ", 1)" = depth m [']'] := by simp [depth, operandDepthAfter, isQuote, bracketWeight]
  rw [depth_append, depth_append, depth_append, depth_append, depth_append, hkw, Option.bind_some, hround,
    Option.bind_some, hword, Option.bind_some, hcomma, Option.bind_some, depth_trim, depth_append, hword,
    Option.bind_some, depth_cons, hsquare, Option.bind_some, depth_append]
  simp only [hend]

theorem depth_stringIndex {d : Dialect} (hst : st.style = d.style) {t : Text} {n n' : Int}
    (h : depth n t = some n') : depth n (st.stringIndex t) = some n' := by
  unfold stringIndex
  split
  · refine replace_induction (R := fun _ t u => ∀ n, depth n t = some n' → depth n u = some n')
      (fun _ _ h => h) (fun a c t u ih n h => ?_) (fun a t b g u _ hway ih n h => ?_) n h
    · obtain ⟨m, hm, ht⟩ := Option.bind_eq_some_iff.mp h
      exact Option.bind_eq_some_iff.mpr ⟨m, hm, ih m ht⟩
    · rw [depth_append] at h ⊢
      obtain ⟨m, hm, hb⟩ := Option.bind_eq_some_iff.mp h
      refine Option.bind_eq_some_iff.mpr ⟨m, ?_, ih m hb⟩
      split
      · obtain ⟨w, x, rfl, hname, hinner, hw, -⟩ := reads_subscript (m := ⟨a.reverse, t, g⟩) hway.reads
        rw [hname, hinner, depth_call hst hw, hm]
      · exact hm
  · exact h

private theorem edged_replace {p : Pattern} {f : Match → Text} {q : Char → Bool}
    (hblank : ∀ c, isBlank c = true → q c = true) (hsign : ∀ op ∈ spacedOperators, ∀ c ∈ op.toList, q c = true)
    (hhead : ∀ m rest, Way p m.seen m.text rest m.groups → ∃ c, (f m).head? = some c ∧ q c = false)
    (hlast : ∀ m rest, Way p m.seen m.text rest m.groups → ∃ c, (f m).getLast? = some c ∧ q c = false)
    {t : Text} (ht : Edged t) : Edged (p.replace f t) where
  ne_nil := by
    obtain ⟨c, t, rfl⟩ := List.exists_cons_of_ne_nil ht.ne_nil
    rcases replaceFrom_cases p f [] c t with ⟨m, r, _, _, _, hseen, hway, hreplace⟩ | ⟨_, hkeep⟩
    · obtain ⟨d, hd, -⟩ := hhead m r (hseen ▸ hway)
      intro hnil
      rw [replace, hreplace, List.append_eq_nil_iff] at hnil
      simp [hnil.1] at hd
    · rw [replace, hkeep]
      exact List.cons_ne_nil _ _
  head c hc := by
    by_contra hne
    have hall : ∀ d ∈ [c], q d = true := by simpa using hblank c (by simpa using hne)
    obtain ⟨s, hs⟩ := List.head?_eq_some_iff.mp hc
    obtain ⟨r, rfl⟩ := prefix_of_replaceFrom hhead hall ⟨s, hs.symm⟩
    exact hne (ht.head c rfl)
  last c hc := by
    by_contra hne
    have hall : ∀ d ∈ [c], q d = true := by simpa using hblank c (by simpa using hne)
    obtain ⟨s, hs⟩ := List.getLast?_eq_some_iff.mp hc
    obtain ⟨r, rfl⟩ := suffix_of_replace hlast hall ⟨s, hs.symm⟩
    exact hne (ht.last c (by simp))
  starts op hop h := ht.starts op hop (prefix_of_replaceFrom hhead (hsign op hop) h)
  ends op hop h := ht.ends op hop (suffix_of_replace hlast (hsign op hop) h)

/-- Rewriting subscripts keeps both ends of an operand: a subscript begins with a word and ends with a bracket, and
so does what comes in its place. -/
theorem edged_stringIndex {d : Dialect} (hst : st.style = d.style) {t : Text} (ht : Edged t) :
    Edged (st.stringIndex t) := by
  let inside (c : Char) : Bool := isWordChar c || c == ')' || c == ']'
  have hsign : spacedOperators.all (fun op => op.toList.all fun c => !inside c) = true := by decide
  obtain ⟨c, k, hkw, hword⟩ : ∃ c k, st.kw .substringWord = c :: k ∧ isWordChar c = true := by
    rw [kw, hst]
    cases d <;> exact ⟨_, _, rfl, by decide⟩
  unfold stringIndex
  split
  · refine edged_replace (q := fun c => !inside c) (fun c hc => ?_)
      (fun op hop => List.all_eq_true.mp (List.all_eq_true.mp hsign op hop)) (fun m rest hway => ?_)
      (fun m rest hway => ?_) ht
    · simp [eq_false_of_isBlank (p := inside) (by decide +kernel) hc]
    · split
      · exact ⟨c, by simp [hkw], by simp [inside, hword]⟩
      · obtain ⟨w, x, htext, -, hne, hw, -⟩ := subscripts_subscript _ _ _ _ hway
        obtain ⟨e, w, rfl⟩ := List.exists_cons_of_ne_nil hne
        exact ⟨e, by rw [htext]; rfl, by simp [inside, hw e List.mem_cons_self]⟩
    · split
      · exact ⟨')', List.getLast?_append_of_ne_nil _ (by decide), rfl⟩
      · obtain ⟨w, x, htext, -⟩ := subscripts_subscript _ _ _ _ hway
        exact ⟨']', List.getLast?_eq_some_iff.mpr ⟨w ++ '[' :: x, by simp [htext]⟩, rfl⟩
  · exact ht

end Setting

end Pseudocode
