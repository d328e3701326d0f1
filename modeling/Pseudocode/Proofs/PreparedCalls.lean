import Pseudocode.Proofs.ExpressionCalls
import Pseudocode.Proofs.SubscriptsAndSums

/-! # Calls in prepared expressions

Before its code is respelled, an expression has its subscripts of strings made calls and its sums made
concatenations. No call is cut by this: it lies inside a subscript, inside an operand, or apart from them. So in an
expression without quotes the calls of its source come out with the name of the header. -/

namespace Pseudocode

open Text Pattern

/-- What may stand before a call, closing brackets aside. -/
def mayLead (dotted : Bool) (c : Char) : Bool := mayPrecede dotted c && c != ')' && c != ']'

namespace Calls

variable {q : Char → Bool} {n s t : Text} {k : Nat}

/-- Calls lie before a character that is no part of them, or after it. -/
theorem exists_split {c : Char} (hc : c ∉ n ++ ['(']) (h : Calls (EndsIn q) n k (s ++ c :: t)) :
    ∃ i j, k = i + j ∧ Calls (EndsIn q) n i s ∧ ∀ y, q c = false ∨ EndsIn q y → Calls (EndsIn q) n j (y ++ t) := by
  generalize hu : s ++ c :: t = u at h
  induction h generalizing s with
  | rest u => exact ⟨0, 0, rfl, .rest _, fun y _ => .rest _⟩
  | @call before after k hb hk ih =>
    have hcall : (before ++ (n ++ ['('])) ++ after = s ++ c :: t := by simpa using hu.symm
    rcases before_or_overlaps hcall with ⟨s', rfl⟩ | ⟨r, hr, hne, hrest⟩
    · obtain ⟨i, j, rfl, hi, hj⟩ := ih (s := s') (by simpa using hcall.symm)
      refine ⟨i + 1, j, by omega, ?_, hj⟩
      rw [List.append_assoc, List.append_assoc, List.singleton_append]
      exact .call hb hi
    · obtain ⟨c', r, rfl⟩ := List.exists_cons_of_ne_nil hne
      obtain ⟨hhead, rfl⟩ : c' = c ∧ r ++ after = t := List.cons.inj hrest
      subst hhead
      rcases before_or_overlaps hr with ⟨s', rfl⟩ | ⟨e, rfl, hne', he⟩
      · have hname : n ++ ['('] = s' ++ c' :: r := by simpa using hr
        exact absurd (by simp [hname]) hc
      · obtain ⟨e, d, rfl⟩ := List.exists_cons_of_ne_nil hne'
        obtain ⟨hhead, rfl⟩ : e = c' ∧ d ++ (n ++ ['(']) = r := List.cons.inj he
        subst hhead
        refine ⟨0, k + 1, by omega, .rest _, fun y hy => ?_⟩
        have htext : y ++ (d ++ (n ++ ['(']) ++ after) = (y ++ d) ++ (n ++ '(' :: after) := by simp
        rw [htext]
        refine .call (EndsIn.append (EndsIn.right (s := s ++ [e]) (by simpa using hb)) fun hd => ?_) hk
        rw [hd] at hb
        refine hy.resolve_left fun hq => ?_
        simp [endsIn_append_singleton.mp hb] at hq

/-- Text without a parenthesis has no part in the calls before it. -/
theorem of_append (ht : '(' ∉ t) (h : Calls (EndsIn q) n k (s ++ t)) : Calls (EndsIn q) n k s := by
  generalize hu : s ++ t = u at h
  induction h generalizing s with
  | rest u => exact .rest s
  | @call before after k hb hk ih =>
    have hcall : (before ++ (n ++ ['('])) ++ after = s ++ t := by simpa using hu.symm
    rcases before_or_overlaps hcall with ⟨s', rfl⟩ | ⟨r, hr, hne, rfl⟩
    · rw [List.append_assoc, List.append_assoc, List.singleton_append]
      exact .call hb (ih (s := s') (by simpa using hcall.symm))
    · -- the parenthesis of the call would be in the text
      obtain ⟨r, e, rfl⟩ := List.eq_nil_or_concat r |>.resolve_left hne
      have hlast : (before ++ n) ++ ['('] = (s ++ r) ++ [e] := by simpa using hr
      obtain ⟨_, hparen⟩ := List.append_inj' hlast rfl
      obtain rfl : '(' = e := by simpa using hparen
      simp at ht

private theorem of_cons {c : Char}
    (hc : c ∉ n ++ ['(']) (h : Calls (EndsIn q) n k (c :: s)) : Calls (EndsIn q) n k s := by
  obtain ⟨i, j, rfl, hi, hj⟩ := exists_split (s := []) hc h
  obtain rfl := hi.eq_zero
  rw [Nat.zero_add]
  exact hj [] (.inr (endsIn_nil q))

theorem join {g : Text → Text} (hg : ∀ k s, Calls (EndsIn q) n k s → Calls (EndsIn q) n k (g s)) {sep : Char}
    (hsep : sep ∉ n ++ ['(']) {joint : Text} (hne : joint ≠ []) (hjoint : EndsIn q joint) (p : Text) (ps : List Text)
    (h : Calls (EndsIn q) n k (p ++ ps.flatMap (sep :: ·))) :
    Calls (EndsIn q) n k (Text.join joint ((p :: ps).map g)) := by
  induction ps generalizing p k with
  | nil =>
    rw [List.map_singleton, Text.join, List.intercalate_singleton]
    exact hg k p (by simpa using h)
  | cons p' ps ih =>
    rw [List.flatMap_cons, List.cons_append] at h
    obtain ⟨i, j, rfl, hi, hj⟩ := exists_split hsep h
    rw [List.map_cons, List.map_cons, join_of_two, ← List.map_cons]
    refine (hg i p hi).append fun b => ?_
    rw [← List.append_assoc]
    exact (ih p' (hj [] (.inr (endsIn_nil q)))).prepend (hjoint.append fun hnil => absurd hnil hne)

variable (hn : ∀ c ∈ n, isWordChar c = true)

include hn

theorem not_mem_call {c : Char} (hc : isWordChar c = false) (hparen : c ≠ '(') : c ∉ n ++ ['('] := by
  intro hmem
  rcases List.mem_append.mp hmem with hmem | hmem
  · rw [hn c hmem] at hc
    cases hc
  · exact hparen (List.mem_singleton.mp hmem)

theorem trim (h : Calls (EndsIn q) n k s) : Calls (EndsIn q) n k (Text.trim s) := by
  obtain ⟨b₁, b₂, heq, hb₁, hb₂⟩ := exists_trim s
  have hparen {c : Char} (hc : isBlank c = true) : c ≠ '(' := by
    rintro rfl
    exact absurd hc (by decide +kernel)
  have hlead (b : Text) (hb : ∀ c ∈ b, isBlank c = true) {t : Text} (h : Calls (EndsIn q) n k (b ++ t)) :
      Calls (EndsIn q) n k t := by
    induction b with
    | nil => exact h
    | cons c b ih =>
      obtain ⟨hc, hb⟩ := List.forall_mem_cons.mp hb
      exact ih hb (of_cons (not_mem_call hn (isWordChar_of_isBlank hc) (hparen hc)) h)
  rw [heq] at h
  exact of_append (fun hmem => hparen (hb₂ _ hmem) rfl) (hlead b₁ hb₁ h)

theorem dropConversion (hstr : n ≠ "str".toList) (hq : ∀ c, q c = true → isWordChar c = false)
    (h : Calls (EndsIn q) n k s) : Calls (EndsIn q) n k (Setting.dropConversion s) := by
  unfold Setting.dropConversion
  split
  · next x hx =>
    split
    · rw [Setting.eq_append_of_between? hx] at h
      refine of_append (t := ")") (by decide) ?_
      generalize hu : "str(".toList ++ (x ++ ")".toList) = u at h
      cases h with
      | rest => exact .rest _
      | @call before after k hb hk =>
        by_cases hparen : '(' ∈ before
        · obtain ⟨b₁, b₂, rfl, hb₁⟩ := List.eq_append_cons_of_mem hparen
          obtain ⟨_, htail⟩ := eq_of_paren (a := "str".toList) (s := x ++ ")".toList) (by decide) hb₁
            (t := b₂ ++ (n ++ '(' :: after)) (by simpa using hu)
          rw [htail]
          exact .call (EndsIn.right (s := b₁ ++ ['(']) (by simpa using hb)) hk
        · -- the name of the routine would be that of the conversion
          have hwords : ∀ c ∈ "str".toList, isWordChar c = true := List.all_eq_true.mp (by decide)
          obtain ⟨hname, _⟩ := eq_of_paren (a := before ++ n) (b := "str".toList)
            (by simp [hparen, paren_not_mem_word hn]) (by decide) (by simpa using hu.symm)
          exact absurd (eq_last_word hn hwords (endsIn_nil _) (hb.mono fun c hc => by simp [hq c hc]) (a := []) hname).2
            hstr
    · exact h
  · exact h

end Calls

namespace Setting

variable {st : Setting} {n e : Text} {k : Nat}

section

variable {s : Text} (hn : ∀ c ∈ n, isWordChar c = true) {dotted : Bool}

include hn

theorem calls_stringIndex (h : Calls (EndsIn (mayLead dotted)) n k s) :
    Calls (EndsIn (mayLead dotted)) n k (st.stringIndex s) := by
  unfold stringIndex
  split
  · refine replace_induction (R := fun _ t u => ∀ b k, Calls (EndsIn (mayLead dotted)) n k (b ++ t) →
      Calls (EndsIn (mayLead dotted)) n k (b ++ u)) (fun _ _ _ h => h) (fun a c t u ih b k h => ?_)
      (fun a t v g u _ hway ih b k h => ?_) [] k h
    · simpa using ih (b ++ [c]) k (by simpa using h)
    · split
      · obtain ⟨w, x, rfl, hname, hinner, hw, -⟩ := reads_subscript (m := ⟨a.reverse, t, g⟩) hway.reads
        rw [hname, hinner]
        have hsplit : Calls (EndsIn (mayLead dotted)) n k ((b ++ w) ++ '[' :: (x ++ ']' :: v)) := by simpa using h
        obtain ⟨i, j, rfl, hi, hj⟩ := hsplit.exists_split (Calls.not_mem_call hn (by decide) (by decide))
        obtain ⟨i', j', rfl, hi', hj'⟩ :=
          (hj [] (.inr (endsIn_nil _))).exists_split (Calls.not_mem_call hn (by decide) (by decide))
        -- the calls before the subscript, inside it and after it
        have hcall : Calls (EndsIn (mayLead dotted)) n (i + (i' + j'))
            (b ++ (st.kw .substringWord ++ "(".toList ++ w ++ ", ".toList ++ (trim x ++ (", 1)".toList ++ v)))) := by
          refine (hi.of_append (paren_not_mem_word hw)).append fun y => ?_
          rw [← List.append_assoc]
          refine ((hi'.trim hn).append fun z => ?_).prepend ?_
          · rw [← List.append_assoc]
            exact hj' _ (.inl (by cases dotted <;> decide))
          · rw [← List.append_assoc]
            refine EndsIn.append ?_ (by simp)
            cases dotted <;> exact rfl
        have hnext := ih (b ++ (st.kw .substringWord ++ "(".toList ++ w ++ ", ".toList ++ trim x ++ ", 1)".toList))
          (i + (i' + j')) (by simpa only [List.append_assoc] using hcall)
        simpa only [List.append_assoc] using hnext
      · simpa using ih (b ++ t) k (by simpa using h)
  · exact h

theorem calls_concatenate (hstr : n ≠ "str".toList) (h : Calls (EndsIn (mayLead dotted)) n k s) :
    Calls (EndsIn (mayLead dotted)) n k (st.concatenate s) := by
  unfold concatenate
  dsimp only
  split
  · exact h
  · next hsum =>
    have hne : splitTopLevel '+' s ≠ [] := by
      intro hnil
      simp [hnil] at hsum
    rw [splitTopLevel_of_ne_nil hne, List.map_map]
    rw [splitFrom_eq '+' .code 0 s] at h
    refine Calls.join (fun k s hs => (hs.trim hn).dropConversion hn hstr ?_)
      (Calls.not_mem_call hn (by decide) (by decide)) (by simp) ?_ _ _ h
    · intro c hc
      simp only [mayLead, Bool.and_eq_true] at hc
      exact isWordChar_of_mayPrecede hc.1.1
    · refine endsIn_append_singleton.mpr ?_
      cases dotted <;> decide

end

section

variable {d : Dialect} (hst : st.style = d.style) {s : Text} (hs : ∀ c ∈ s, isQuote c = false)

include hst hs

theorem isQuote_stringIndex : ∀ c ∈ st.stringIndex s, isQuote c = false := by
  unfold stringIndex
  split
  · refine replace_induction (R := fun _ t u => (∀ c ∈ t, isQuote c = false) → ∀ c ∈ u, isQuote c = false)
      (fun _ h => h) (fun a c t u ih h => ?_) (fun a t v g u _ hway ih h => ?_) hs
    · obtain ⟨hc, ht⟩ := List.forall_mem_cons.mp h
      exact List.forall_mem_cons.mpr ⟨hc, ih ht⟩
    · obtain ⟨ht, hv⟩ := List.forall_mem_append.mp h
      refine List.forall_mem_append.mpr ⟨?_, ih hv⟩
      split
      · obtain ⟨w, x, rfl, hname, hinner, hw, -⟩ := reads_subscript (m := ⟨a.reverse, t, g⟩) hway.reads
        have hx : ∀ c ∈ trim x, isQuote c = false := fun c hc => ht c (by simp [(Arithmetic.isInfix_trim x).subset hc])
        rw [hname, hinner]
        have hword : ∀ c ∈ w, isQuote c = false := fun c hc => (plain_of_isWordChar (hw c hc)).1
        have hkw : ∀ c ∈ st.kw .substringWord, isQuote c = false := fun c hc => (plain_kw hst _ c hc).1
        simp only [List.forall_mem_append]
        exact ⟨⟨⟨⟨⟨hkw, no_quote_of_all (by decide)⟩, hword⟩, no_quote_of_all (by decide)⟩, hx⟩,
          no_quote_of_all (by decide)⟩
      · exact ht
  · exact hs

private theorem isQuote_concatenate : ∀ c ∈ st.concatenate s, isQuote c = false := by
  unfold concatenate
  dsimp only
  split
  · exact hs
  · refine isQuote_join ?_ fun t ht => ?_
    · rw [hst]
      cases d <;> exact no_quote_of_all (by decide)
    · obtain ⟨p, hp, rfl⟩ := List.mem_map.mp ht
      obtain ⟨a, q, b, rfl, rfl, _⟩ := exists_of_mem_splitTopLevel hp
      have hp : ∀ c ∈ trim q, isQuote c = false := fun c hc => hs c (by simp [(Arithmetic.isInfix_trim q).subset hc])
      unfold dropConversion
      split
      · next x hx =>
        split
        · rw [eq_append_of_between? hx] at hp
          exact fun c hc => hp c (by simp [hc])
        · exact hp
      · exact hp

end

private theorem prepared_of_no_quote (he : ∀ c ∈ e, isQuote c = false) :
    st.prepared e = st.concatenate (st.stringIndex (trim e)) := by
  have htrim : ∀ c ∈ trim e, isQuote c = false := fun c hc => he c ((Arithmetic.isInfix_trim e).subset hc)
  have hexpand : Interpolation.expand (trim e) = trim e := replace_of_needs (q := isQuote) (by decide) htrim
  have hfield : st.fieldAccess (trim e) = trim e := by
    unfold fieldAccess
    split
    · refine replace_of_no_match fun seen t rest g heq hway => ?_
      obtain ⟨c, hc, hquote⟩ := exists_quote_of_recordAccess hway.reads
      simp [htrim c (by rw [heq]; simp [hc])] at hquote
    · rfl
  rw [prepared, hexpand, ite_self, hfield]

private theorem callEdge_of_mayLead {conv : Convention} {b : Text} (h : EndsIn (mayLead (conv.mayDot n)) b) :
    conv.CallEdge n b where
  last := h.mono fun c hc => by
    simp only [mayLead, Bool.and_eq_true] at hc
    exact hc.1.1
  power _ v hv := by
    by_contra hfits
    obtain ⟨m, hm⟩ : ∃ m, power.whole? v = some m := Option.ne_none_iff_exists'.mp (by simpa [fits] using hfits)
    obtain ⟨x, hx, _⟩ := reads_power (reads_of_whole? hm)
    obtain ⟨u, rfl⟩ := hv
    have hlast : EndsIn (mayLead (conv.mayDot n)) v := h.right
    have hparen : v.getLast? = some ')' :=
      List.getLast?_eq_some_iff.mpr ⟨"Math".toList ++ '.' :: ("pow".toList ++ '(' :: x), by rw [hx]; rfl⟩
    simp [EndsIn, hparen, mayLead] at hlast

/-- All calls of a routine in an expression without quotes take the name of its header. -/
theorem calls_expr_of_no_quote (hn : Reads name n []) (hstyle : st.style = .cambridge)
    (hroutine : st.symbols.isRoutine n = true)
    (hclass : st.convention = .indentation → st.symbols.isClass n = false) (hown : n ∉ st.convention.ownWords)
    (hstr : n ≠ "str".toList) (he : ∀ c ∈ e, isQuote c = false)
    (h : Calls (EndsIn (mayLead (st.convention.mayDot n))) n k (trim e)) :
    Calls (EndsIn fun c => !isWordChar c) (Name.pascalCase n) k (st.expr e) := by
  obtain ⟨_, _, _, _, _, hw⟩ := reads_name hn
  have hst : st.style = Dialect.cambridge.style := hstyle
  have htrim : ∀ c ∈ trim e, isQuote c = false := fun c hc => he c ((Arithmetic.isInfix_trim e).subset hc)
  rw [expr_eq_mapCode, prepared_of_no_quote he,
    mapCode_of_no_quote (isQuote_concatenate hst (isQuote_stringIndex hst htrim))]
  refine calls_respellCode hn hstyle hroutine hclass hown (Calls.mono ?_ fun b => callEdge_of_mayLead)
  exact calls_concatenate hw hstr (calls_stringIndex hw h)

end Setting

end Pseudocode
