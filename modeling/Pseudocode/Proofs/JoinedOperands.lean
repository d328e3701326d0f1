import Pseudocode.Proofs.OperatorSpelling
import Pseudocode.Proofs.PatternContext
import Pseudocode.Proofs.QuotedText

/-! # Operands of a concatenation

The operands of a concatenation are joined by its sign with a space on each side. When code is respelled, each
operand is respelled as if it stood alone: no match reaches beyond the sign, and the spaces around it are not
taken by an operator unless an operand begins or ends with one. -/

namespace Pseudocode

open Text Pattern Arithmetic

/-- The sign of a concatenation with its spaces. -/
def joint (o : Char) : Text := [' ', o, ' ']

/-- The signs of the two dialects. -/
def IsJoin (o : Char) : Prop := o = '&' ∨ o = '+'

theorem IsJoin.isBlank {o : Char} (ho : IsJoin o) : isBlank o = false := by
  rcases ho with rfl | rfl <;> decide

/-- What stands beside an operand, nearest character first. -/
def Beside (o : Char) (s : Text) : Prop := s = [] ∨ ∃ t, s = ' ' :: o :: t

/-- The operands of a join are replaced one by one. -/
structure Apart (o : Char) (ok : Text → Prop) (p : Pattern) (f : Match → Text) : Prop where
  operand {t before after : Text} (ht : ok t) (hbefore : Beside o before) (hafter : Beside o after) :
    Rewrites p f before t (p.replace f t) after
  sign {t before after : Text} (ht : t = [] ∨ ok t) (hafter : Beside o after) :
    Rewrites p f before (joint o) (joint o) (t ++ after)

/-- A change of code that works on joined operands one by one. -/
structure Spreads (o : Char) (ok : Text → Prop) (g : Text → Text) : Prop where
  join {ts : List Text} (hts : ∀ t ∈ ts, t = [] ∨ ok t) :
    g (Text.join (joint o) ts) = Text.join (joint o) (ts.map g)
  keeps {t : Text} (ht : t = [] ∨ ok t) : g t = [] ∨ ok (g t)

section

variable {o : Char} {ok : Text → Prop} {p : Pattern} {f : Match → Text}

private theorem beside_join (t : Text) (ts : List Text) :
    ∃ after, join (joint o) (t :: ts) = t ++ after ∧ Beside o after := by
  cases ts with
  | nil => exact ⟨[], by simp [join, List.intercalate], .inl rfl⟩
  | cons t' ts => exact ⟨_, join_of_two .., .inr ⟨_, rfl⟩⟩

theorem Apart.replace_join (h : Apart o ok p f) {ts : List Text} (hts : ∀ t ∈ ts, t = [] ∨ ok t) :
    p.replace f (join (joint o) ts) = join (joint o) (ts.map (p.replace f)) := by
  have hoperand {t before after : Text} (ht : t = [] ∨ ok t) (hbefore : Beside o before)
      (hafter : Beside o after) : Rewrites p f before t (p.replace f t) after := by
    rcases ht with rfl | ht
    · rfl
    · exact h.operand ht hbefore hafter
  have hfrom (before : Text) (hbefore : Beside o before) :
      p.replaceFrom f 0 before (join (joint o) ts) = join (joint o) (ts.map (p.replace f)) := by
    induction ts generalizing before with
    | nil => exact replaceFrom_nil ..
    | cons t ts ih =>
      obtain ⟨ht, hts⟩ := List.forall_mem_cons.mp hts
      cases ts with
      | nil =>
        have hlast := hoperand ht hbefore (.inl rfl)
        simpa [Rewrites, join, List.intercalate] using hlast
      | cons t' ts =>
        obtain ⟨after, hafter, hbeside⟩ := beside_join (o := o) t' ts
        have hfirst : Rewrites p f before t (p.replace f t) (joint o ++ join (joint o) (t' :: ts)) :=
          hoperand ht hbefore (.inr ⟨_, rfl⟩)
        have hsign : Rewrites p f (t.reverse ++ before) (joint o) (joint o) (join (joint o) (t' :: ts)) := by
          rw [hafter]
          exact h.sign (List.forall_mem_cons.mp hts).1 hbeside
        have hrest := ih hts ((joint o).reverse ++ (t.reverse ++ before)) (.inr ⟨_, rfl⟩)
        rw [join_of_two, List.map_cons, List.map_cons, join_of_two, ← List.map_cons, ← hrest]
        exact hfirst.trans (congrArg _ hsign)
  exact hfrom [] (.inl rfl)

theorem Spreads.comp {g h : Text → Text} (hg : Spreads o ok g) (hh : Spreads o ok h) :
    Spreads o ok fun t => h (g t) where
  join {ts} hts := by
    rw [hg.join hts, hh.join (List.forall_mem_map.mpr fun t ht => hg.keeps (hts t ht)), List.map_map]
    rfl
  keeps ht := hh.keeps (hg.keeps ht)

/-- A change of operands whatever they are. -/
abbrev SpreadsAll (o : Char) (g : Text → Text) : Prop := Spreads o (fun _ => True) g

theorem Beside.head {s : Text} (h : Beside o s) : s.head?.any isWordChar = false := by
  rcases h with rfl | ⟨t, rfl⟩
  · rfl
  · exact (by decide : isWordChar ' ' = false)

/-- A pattern that begins with no character of the sign leaves it. -/
theorem rewrites_joint (hspace : p.canBegin ' ' = false) (hsign : p.canBegin o = false) {before rest : Text} :
    Rewrites p f before (joint o) (joint o) rest := by
  refine Rewrites.of_no_match fun u v huv hv t b g hb hway => ?_
  cases t with
  | nil => rfl
  | cons c t =>
    have hbegin := hway.reads.canBegin (c := c) rfl
    obtain ⟨d, v, rfl⟩ := List.exists_cons_of_ne_nil hv
    obtain ⟨rfl, -⟩ := List.cons.inj hb
    have hmem : d ∈ joint o := by simp [huv]
    rcases (by simpa [joint] using hmem : d = ' ' ∨ d = o ∨ d = ' ') with rfl | rfl | rfl
    · simp [hspace] at hbegin
    · simp [hsign] at hbegin
    · simp [hspace] at hbegin

end

/-! ### Operators -/

/-- An operand that neither begins nor ends with white space or an operator. -/
structure Edged (t : Text) : Prop where
  ne_nil : t ≠ []
  head : ∀ c ∈ t.head?, isBlank c = false
  last : ∀ c ∈ t.getLast?, isBlank c = false
  starts : ∀ op ∈ spacedOperators, ¬ op.toList <+: t
  ends : ∀ op ∈ spacedOperators, ¬ op.toList <:+ t

instance (t : Text) : Decidable (Edged t) :=
  decidable_of_iff (t ≠ [] ∧ t.head?.any isBlank = false ∧ t.getLast?.any isBlank = false ∧
    (∀ op ∈ spacedOperators, ¬ op.toList <+: t) ∧ ∀ op ∈ spacedOperators, ¬ op.toList <:+ t)
    ⟨fun h => ⟨h.1, by simpa [Option.any_eq_false] using h.2.1, by simpa [Option.any_eq_false] using h.2.2.1,
        h.2.2.2.1, h.2.2.2.2⟩,
      fun h => ⟨h.ne_nil, by simpa [Option.any_eq_false] using h.head, by simpa [Option.any_eq_false] using h.last,
        h.starts, h.ends⟩⟩

section

variable {op : String} {new : Text}

theorem isOperator_of_spaced (hop : op ∈ spacedOperators) : IsOperator op.toList :=
  isOperator_of_mem (List.mem_append_left _ hop)

theorem not_blank_of_spaced (hop : op ∈ spacedOperators) : ∀ c ∈ op.toList, (!isBlank c) = true :=
  fun c hc => by simp [((isOperator_of_spaced hop).2.1 c hc).2.1]

theorem not_prefix_of_head {w : Text} (hne : w ≠ []) {c : Char} (hc : w.head? ≠ some c) (s : Text) :
    ¬ w <+: c :: s := by
  obtain ⟨d, w, rfl⟩ := List.exists_cons_of_ne_nil hne
  intro h
  exact hc (congrArg some (List.cons_prefix_cons.mp h).1)

section

variable {p : Pattern} {f : Match → Text} {q : Char → Bool}

/-- What begins a text after a replacement was there before if no replacement begins with such a character. -/
theorem prefix_of_replaceFrom
    (hf : ∀ m rest, Way p m.seen m.text rest m.groups → ∃ c, (f m).head? = some c ∧ q c = false) {w : Text}
    (hw : ∀ c ∈ w, q c = true) {seen s : Text} (h : w <+: p.replaceFrom f 0 seen s) : w <+: s := by
  induction s generalizing w seen with
  | nil => simpa using h
  | cons c s ih =>
    cases w with
    | nil => exact List.nil_prefix
    | cons d w =>
      rcases replaceFrom_cases p f seen c s with ⟨m, r, _, _, _, hseen, hway, hreplace⟩ | ⟨_, hkeep⟩
      · obtain ⟨x, hx⟩ := h
        obtain ⟨e, he, hqe⟩ := hf m r (hseen ▸ hway)
        have hhead := congrArg List.head? (hx.trans hreplace)
        obtain rfl : d = e := by simpa [List.head?_append, he] using hhead
        simp [hw d List.mem_cons_self] at hqe
      · rw [hkeep, List.cons_prefix_cons] at h
        exact List.cons_prefix_cons.mpr ⟨h.1, ih (List.forall_mem_cons.mp hw).2 h.2⟩

/-- What ends a text after a replacement was there before if no replacement ends with such a character. -/
theorem suffix_of_replace
    (hf : ∀ m rest, Way p m.seen m.text rest m.groups → ∃ c, (f m).getLast? = some c ∧ q c = false) {w s : Text}
    (hw : ∀ c ∈ w, q c = true) (h : w <:+ p.replace f s) : w <:+ s := by
  have hall : (∀ w, (∀ c ∈ w, q c = true) → w <:+ p.replace f s → w <:+ s) ∧
      ((∀ c ∈ p.replace f s, q c = true) → p.replace f s = s) := by
    refine replace_induction (R := fun _ t v => (∀ w, (∀ c ∈ w, q c = true) → w <:+ v → w <:+ t) ∧
      ((∀ c ∈ v, q c = true) → v = t)) (fun _ => ⟨fun _ _ h => h, fun _ => rfl⟩) ?_ ?_
    · rintro - c t v ⟨hsuffix, hsame⟩
      have hkept : (∀ d ∈ c :: v, q d = true) → c :: v = c :: t :=
        fun hv => by rw [hsame (List.forall_mem_cons.mp hv).2]
      refine ⟨fun w hw hwv => ?_, hkept⟩
      rcases List.suffix_cons_iff.mp hwv with rfl | hwv
      · exact ⟨[], hkept hw⟩
      · exact (hsuffix w hw hwv).trans (List.suffix_cons c t)
    · rintro a t b g v - hway ⟨hsuffix, -⟩
      obtain ⟨e, hlast, he⟩ := hf ⟨a.reverse, t, g⟩ b hway
      generalize f ⟨a.reverse, t, g⟩ = y at hlast
      obtain ⟨y, rfl⟩ := List.getLast?_eq_some_iff.mp hlast
      have hnot {w : Text} (hw : ∀ c ∈ w, q c = true) : e ∉ w := fun h => by simp [hw e h] at he
      refine ⟨fun w hw hwv => ?_, fun hv => absurd (by simp) (hnot hv)⟩
      rcases List.suffix_or_suffix_of_suffix hwv (List.suffix_append (y ++ [e]) v) with hwv | ⟨x, rfl⟩
      · exact (hsuffix w hw hwv).trans (List.suffix_append t b)
      · obtain ⟨z, hz⟩ := hwv
        have hx : z ++ x = y ++ [e] := List.append_cancel_right (by rwa [List.append_assoc])
        cases x using List.reverseRecOn with
        | nil => exact (hsuffix v hw (List.suffix_refl v)).trans (List.suffix_append t b)
        | append_singleton x e' =>
          rw [← List.append_assoc] at hx
          obtain rfl : e' = e := by simpa using (List.append_inj' hx rfl).2
          exact absurd (by simp) (hnot hw)
  exact hall.1 w hw h

end

theorem matchesInside_sign (hop : IsOperator op.toList) {o : Char} (ho : isBlank o = false)
    (hhead : op.toList.head? ≠ some o) {t before after : Text} (ht : Edged t)
    (hend : ¬ op.toList <:+ t) (hbefore : Beside o before) (hafter : Beside o after) :
    MatchesInside (gap ++ (op : Pattern) ++ gap) t before after := by
  rcases hafter with rfl | ⟨s, rfl⟩
  · exact matchesInside_of_avoids rfl (by simp) hbefore.head rfl
  intro c hc _
  have hsign : Agree t before [' '] (o :: s) (·.inside before) ((op : Pattern).matchThen (gap.matchThen (ending c)))
      ((op : Pattern).matchThen (gap.matchThen (ending (c.inside before (' ' :: o :: s))))) := by
    refine ⟨fun g c' hc' => ?_, fun x y hxy hx g seen => ?_⟩
    · by_cases hop' : op.toList <+: c'.rest
      · obtain ⟨r, hr⟩ := hop'
        have hstop : ∃ e ∈ r, isBlank e = false := by
          cases hlast : r.getLast? with
          | none =>
            obtain rfl := List.getLast?_eq_none_iff.mp hlast
            exact absurd ⟨c'.seen.reverse, by rw [← hc', Cursor.text, ← hr, List.append_nil]⟩ hend
          | some e =>
            refine ⟨e, List.mem_of_getLast? hlast, ht.last e ?_⟩
            rw [← hc', Cursor.text, ← hr, List.getLast?_append, List.getLast?_append, hlast]
            rfl
        have htext : (op.toList.reverse ++ c'.seen).reverse ++ r = t := by
          rw [← hc', Cursor.text, ← hr]
          simp
        have hgap : matchMost isBlank (ending (c.inside before (' ' :: o :: s)) g)
            (op.toList.reverse ++ c'.seen ++ before) (r ++ (' ' :: o :: s)) =
              (matchMost isBlank (ending c g) (op.toList.reverse ++ c'.seen) r).map (·.inside before) :=
          matchMost_inside (fun c'' _ => ending_inside c c'' g) htext hstop
        simpa [matchThen, after?, Cursor.inside, gap, ← hr] using hgap
      · have hoff : ¬ op.toList <+: c'.rest ++ ' ' :: o :: s := fun h => hop' (prefix_of_prefix_space hop h)
        simp [matchThen, after?, Cursor.inside, hop', hoff]
    · obtain ⟨rfl, rfl⟩ : x = [' '] ∧ y = [] := by
        cases x with
        | nil => exact absurd rfl hx
        | cons d x =>
          obtain ⟨rfl, hrest⟩ := List.cons.inj hxy
          obtain ⟨rfl, rfl⟩ := List.append_eq_nil_iff.mp hrest.symm
          exact ⟨rfl, rfl⟩
      simp [matchThen, after?, not_prefix_of_head hop.1 hhead s]
  have hspace : ([' '] ++ o :: s).head?.any isWordChar = false := (by decide : isWordChar ' ' = false)
  exact (hsign.matchThen (p := gap) rfl (by simp [gap, avoids, ho]) hbefore.head hspace).same [] c hc

theorem rewrites_joint_sign (hop : IsOperator op.toList) {f : Match → Text} {o : Char} (ho : isBlank o = false)
    (hhead : op.toList.head? ≠ some o) {before rest : Text} (hrest : ¬ op.toList <+: rest.dropWhile isBlank) :
    Rewrites (gap ++ (op : Pattern) ++ gap) f before (joint o) (joint o) rest := by
  obtain ⟨d, op', hop'⟩ := List.exists_cons_of_ne_nil hop.1
  have hd : isBlank d = false := (hop.2.1 d (by simp [hop'])).2.1
  have hspace : isBlank ' ' = true := by decide
  have hoff := not_prefix_of_head hop.1 hhead
  have hahead : ∀ v, v <:+ joint o → v ≠ [] → ¬ op.toList <+: (v ++ rest).dropWhile isBlank := by
    intro v hv hne
    rcases (by simpa [joint, List.suffix_cons_iff, hne] using hv :
      v = [' ', o, ' '] ∨ v = [o, ' '] ∨ v = [' ']) with rfl | rfl | rfl
    · simpa [List.dropWhile_cons, hspace, ho] using hoff _
    · simpa [List.dropWhile_cons, ho] using hoff _
    · simpa [List.dropWhile_cons, hspace] using hrest
  refine Rewrites.of_no_match fun u v huv hv t b g hb hway => absurd ?_ (hahead v ⟨u, huv.symm⟩ hv)
  obtain ⟨b₁, b₂, rfl, hb₁, -⟩ := reads_sign hway.reads
  refine ⟨b₂ ++ b, ?_⟩
  rw [hb, List.append_assoc, List.dropWhile_append_of_pos hb₁, hop']
  simp [hd]

variable {t : Text}

theorem Edged.respell (ht : Edged t) (hop : op ∈ spacedOperators) (new : Text) :
    Edged (Setting.respell op new t) := by
  have hblank : (!isBlank ' ') = false := by decide
  have hlast : (" ".toList ++ new ++ " ".toList).getLast? = some ' ' := List.getLast?_concat
  have hends : (Setting.respell op new t).getLast? = t.getLast? := by
    refine replace_induction (R := fun _ t v => v.getLast? = t.getLast?) (fun _ => rfl) ?_ ?_
    · rintro - c t v h
      rw [List.getLast?_cons, List.getLast?_cons, h]
    · rintro a x b g v hsplit hway h
      obtain ⟨b₁, b₂, rfl, -, hb₂⟩ := reads_sign hway.reads
      by_cases hb : b = []
      · -- a match at the end of an operand would end with the operator itself
        subst hb
        refine absurd ?_ (ht.ends op hop)
        cases b₂ using List.reverseRecOn with
        | nil => exact ⟨a ++ b₁, by rw [hsplit]; simp⟩
        | append_singleton b₂ e =>
          have he := ht.last e (by rw [hsplit]; simp)
          rw [hb₂ e (by simp)] at he
          cases he
      · have hv : v ≠ [] := fun hnil => hb (List.getLast?_eq_none_iff.mp (by rw [← h, hnil]; rfl))
        rw [List.getLast?_append_of_ne_nil _ hv, List.getLast?_append_of_ne_nil _ hb, h]
  obtain ⟨c, t, rfl⟩ := List.exists_cons_of_ne_nil ht.ne_nil
  have hfirst : Setting.respell op new (c :: t) = c :: replaceFrom (gap ++ (op : Pattern) ++ gap)
      (fun _ => " ".toList ++ new ++ " ".toList) 0 [c] t := by
    refine replaceFrom_of_no_match fun m hm => ?_
    obtain ⟨r, hr, hway, -⟩ := way_of_at? hm
    obtain ⟨b₁, b₂, hm, hb₁, -⟩ := reads_sign hway.reads
    dsimp only at hr
    cases b₁ with
    | nil => exact absurd ⟨b₂ ++ r, by rw [hr, hm]; simp⟩ (ht.starts op hop)
    | cons d b₁ =>
      rw [hm] at hr
      obtain ⟨rfl, -⟩ := List.cons.inj hr
      have hc := ht.head c rfl
      rw [hb₁ c (by simp)] at hc
      cases hc
  refine ⟨by simp [hfirst], by rw [hfirst]; exact ht.head, hends ▸ ht.last, fun op' hop' h => ?_,
    fun op' hop' h => ?_⟩
  · exact ht.starts op' hop' (prefix_of_replaceFrom (fun _ _ _ => ⟨' ', rfl, hblank⟩) (not_blank_of_spaced hop') h)
  · exact ht.ends op' hop' (suffix_of_replace (fun _ _ _ => ⟨' ', hlast, hblank⟩) (not_blank_of_spaced hop') h)

private theorem apart_respell {o : Char} (ho : IsJoin o) (hop : op ∈ spacedOperators) (new : Text) :
    Apart o Edged (gap ++ (op : Pattern) ++ gap) (fun _ => " " ++ new ++ " ") := by
  have hsign := isOperator_of_spaced hop
  have hblank := ho.isBlank
  have hhead : op.toList.head? ≠ some o := by
    have hall : spacedOperators.all (fun op =>
        op.toList.head? != some '&' && op.toList.head? != some '+') = true := by decide
    have hboth : op.toList.head? ≠ some '&' ∧ op.toList.head? ≠ some '+' := by
      simpa using List.all_eq_true.mp hall op hop
    rcases ho with rfl | rfl
    · exact hboth.1
    · exact hboth.2
  refine ⟨fun ht hbefore hafter => ?_, fun ht hafter => rewrites_joint_sign hsign hblank hhead ?_⟩
  · exact (matchesInside_sign hsign hblank hhead ht (ht.ends op hop) hbefore hafter).rewrites fun _ _ _ => rfl
  · rcases ht with rfl | ht
    · rcases hafter with rfl | ⟨s, rfl⟩
      · simpa using hsign.1
      · have hspace : isBlank ' ' = true := by decide
        simpa [List.dropWhile_cons, hspace, hblank] using not_prefix_of_head hsign.1 hhead s
    · obtain ⟨c, t, rfl⟩ := List.exists_cons_of_ne_nil ht.ne_nil
      have hc := ht.head c rfl
      rw [List.cons_append, List.dropWhile_cons_of_neg (by simp [hc])]
      intro h
      refine ht.starts op hop ?_
      rcases hafter with rfl | ⟨s, rfl⟩
      · simpa using h
      · exact prefix_of_prefix_space hsign h

theorem spreads_respell {o : Char} (ho : IsJoin o) (hop : op ∈ spacedOperators) (new : Text) :
    Spreads o Edged (Setting.respell op new) := by
  refine ⟨(apart_respell ho hop new).replace_join, fun ht => ?_⟩
  rcases ht with rfl | ht
  · exact .inl rfl
  · exact .inr (ht.respell hop new)

end

/-! ### Words and calls -/

/-- Whether a pattern reads no space and begins with no sign of a join. -/
def staysInside (p : Pattern) : Bool :=
  p.isFlat && p.avoids ' ' && !p.canBegin ' ' && !p.canBegin '&' && !p.canBegin '+'

namespace Setting

/-- Python code respelled. -/
def pythonSpelling (st : Setting) (s : Text) : Text :=
  st.routineCalls (st.newObject (st.stringCalls (st.pythonLogic (st.comparisons (st.pythonArithmetic s)))))

theorem respellCode_eq_pythonSpelling {st : Setting} (hpython : st.isPython = true) {s : Text} {c : Char}
    (hc : c ∈ s) (hblank : isBlank c = false) : st.respellCode s = st.pythonSpelling s := by
  have hempty : (trim s).isEmpty = false := by
    obtain ⟨b₁, b₂, hsplit, hb₁, hb₂⟩ := exists_trim s
    cases htrim : trim s with
    | nil =>
      rw [hsplit, htrim] at hc
      rcases List.mem_append.mp hc with hc | hc
      · simp [hb₁ c hc] at hblank
      · simp [hb₂ c hc] at hblank
    | cons _ _ => rfl
  rw [respellCode, hempty, hpython]
  rfl

end Setting

section

variable {o : Char} (ho : IsJoin o)

include ho

theorem canBegin_of_isJoin {p : Pattern} (hand : p.canBegin '&' = false) (hplus : p.canBegin '+' = false) :
    p.canBegin o = false := by
  rcases ho with rfl | rfl
  · exact hand
  · exact hplus

theorem spreads_replace {p : Pattern} (hp : staysInside p = true) {f : Match → Text}
    (hf : ∀ m before, Beside o before → f (m.inside before) = f m) : SpreadsAll o (p.replace f) := by
  simp only [staysInside, Bool.and_eq_true, Bool.not_eq_true'] at hp
  obtain ⟨⟨⟨⟨hflat, havoids⟩, hspace⟩, hand⟩, hplus⟩ := hp
  have hapart : Apart o (fun _ => True) p f := by
    refine ⟨fun _ hbefore hafter => ?_, fun _ _ => rewrites_joint hspace (canBegin_of_isJoin ho hand hplus)⟩
    refine (matchesInside_of_avoids hflat ?_ hbefore.head hafter.head).rewrites fun m _ _ => hf m _ hbefore
    rcases hafter with rfl | ⟨t, rfl⟩
    · simp
    · simpa using havoids
  exact ⟨hapart.replace_join, fun _ => .inr trivial⟩

namespace Setting

variable (st : Setting)

theorem spreads_pythonLogic : SpreadsAll o st.pythonLogic := by
  have hword {w : String} (hw : staysInside (Pattern.word w) = true) (new : Text) :
      SpreadsAll o (respellWord w new) := spreads_replace ho hw fun _ _ _ => rfl
  have hlength : SpreadsAll o (Pattern.replace (.wordEdge ++ "len(") fun _ => st.kw .lengthWord ++ "(") :=
    spreads_replace ho (by decide) fun _ _ _ => rfl
  exact (((((hword (by decide) _).comp (hword (by decide) _)).comp (hword (by decide) _)).comp
    (hword (by decide) _)).comp (hword (by decide) _)).comp hlength

theorem spreads_stringCalls : SpreadsAll o st.stringCalls :=
  spreads_replace ho (by decide) fun _ _ _ => rfl

theorem spreads_newObject : SpreadsAll o st.newObject := by
  have hplain {q : Pattern} (hand : q.avoids '&' = true) (hplus : q.avoids '+' = true) : q.avoids o = true := by
    rcases ho with rfl | rfl
    · exact hand
    · exact hplus
  have hparen : (Pattern.text "(").canBegin o = false := canBegin_of_isJoin ho (by decide) (by decide)
  refine ⟨fun {ts} hts => ?_, fun _ => .inr trivial⟩
  unfold newObject
  split
  · refine Apart.replace_join ⟨fun _ hbefore hafter => ?_, fun _ _ => rewrites_joint (by decide) ?_⟩ hts
    · refine MatchesInside.rewrites ?_ fun _ _ _ => rfl
      rcases hafter with rfl | ⟨s, rfl⟩
      · exact matchesInside_of_avoids (by decide) (by simp) hbefore.head rfl
      · change MatchesInside _ _ _ ([' '] ++ o :: s)
        refine matchesInside_seq (by decide) (by decide) ?_ ?_ ?_ (by decide) hbefore.head (by rfl)
        · rintro d ⟨⟩
          exact hplain (by decide) (by decide)
        · rintro d ⟨⟩
          decide
        · intro x y hxy hx d hd
          obtain rfl : y = [] := by
            cases x with
            | nil => exact absurd rfl hx
            | cons e x => exact (List.append_eq_nil_iff.mp (List.cons.inj hxy).2.symm).2
          obtain rfl : o = d := by simpa using hd
          exact hparen
    · exact canBegin_of_isJoin ho (by decide) (by decide)
  · simp

omit ho in
private theorem follows_inside {tail before : Text} (hne : tail ≠ []) (hspace : ' ' ∉ tail) (hsign : o ∉ tail)
    (ho : isBlank o = false) (hbefore : Beside o before) (m : Match) :
    follows (m.inside before) tail = follows m tail := by
  rcases hbefore with rfl | ⟨s, rfl⟩
  · simp [follows, Match.inside]
  have hblank : isBlank ' ' = true := by decide
  rw [Bool.eq_iff_iff, follows, follows, List.isPrefixOf_iff_prefix, List.isPrefixOf_iff_prefix, Match.inside,
    List.dropWhile_append]
  split
  · next hempty =>
    rw [List.isEmpty_iff.mp hempty, List.dropWhile_cons_of_pos hblank, List.dropWhile_cons_of_neg (by simp [ho])]
    have hhead : tail.reverse.head? ≠ some o := fun h => hsign (List.mem_reverse.mp (List.mem_of_head? h))
    have hoff := not_prefix_of_head (by simpa using hne) hhead s
    exact ⟨fun h => absurd h hoff, fun h => by simp [hne] at h⟩
  · refine ⟨fun h => ?_, fun h => h.trans (List.prefix_append _ _)⟩
    obtain ⟨r, hr⟩ := h
    obtain ⟨y, hy, -⟩ := exists_of_prefix hr.symm (by rintro d ⟨⟩; simpa using hspace)
    exact ⟨y, hy.symm⟩

private theorem spreads_routineCalls {d : Dialect} (hst : st.style = d.style) : SpreadsAll o st.routineCalls := by
  refine ⟨fun {ts} hts => ?_, fun _ => .inr trivial⟩
  unfold routineCalls
  split
  · refine (spreads_replace ho (by decide) fun m before hbefore => ?_).join hts
    have hdot : o ∉ ".".toList := by rcases ho with rfl | rfl <;> decide
    have hnew : st.kw .newWord ≠ [] ∧ ' ' ∉ st.kw .newWord ∧ o ∉ st.kw .newWord := by
      rw [kw, hst]
      rcases ho with rfl | rfl <;> cases d <;> decide
    dsimp only
    rw [follows_inside (by decide) (by decide) hdot ho.isBlank hbefore,
      follows_inside hnew.1 hnew.2.1 hnew.2.2 ho.isBlank hbefore]
    rfl
  · simp

private theorem spreads_operators : Spreads o Edged fun t => st.comparisons (st.pythonArithmetic t) := by
  have hop (op : String) (hop : op ∈ spacedOperators) (new : Text) : Spreads o Edged (respell op new) :=
    spreads_respell ho hop new
  have harithmetic : Spreads o Edged st.pythonArithmetic :=
    (hop "**" (by decide) _).comp (hop "//" (by decide) _)
  exact ((((harithmetic.comp (hop "%" (by decide) _)).comp (hop "!=" (by decide) _)).comp
    (hop "==" (by decide) _)).comp (hop "<=" (by decide) _)).comp (hop ">=" (by decide) _)

private theorem pythonSpelling_join {d : Dialect} (hst : st.style = d.style) {ts : List Text}
    (hts : ∀ t ∈ ts, t = [] ∨ Edged t) :
    st.pythonSpelling (join (joint o) ts) = join (joint o) (ts.map st.pythonSpelling) := by
  have hlater := (((spreads_pythonLogic ho st).comp (spreads_stringCalls ho st)).comp
    (spreads_newObject ho st)).comp (spreads_routineCalls ho st hst)
  rw [pythonSpelling, (spreads_operators ho st).join hts, hlater.join fun _ _ => .inr trivial, List.map_map]
  rfl

theorem respellCode_join {d : Dialect} (hst : st.style = d.style) (hpython : st.isPython = true) {ts : List Text}
    (hts : ∀ t ∈ ts, t = [] ∨ Edged t) :
    st.respellCode (join (joint o) ts) = join (joint o) (ts.map st.respellCode) := by
  match ts with
  | [] => rfl
  | [t] => rw [List.map_singleton, join, List.intercalate_singleton, join, List.intercalate_singleton]
  | t :: t' :: ts =>
    have hjoin : o ∈ join (joint o) (t :: t' :: ts) := by
      rw [join_of_two]
      simp [joint]
    have hall : ∀ u ∈ t :: t' :: ts, st.respellCode u = st.pythonSpelling u := by
      intro u hu
      rcases hts u hu with rfl | hu
      · exact (pythonSpelling_join ho st hst (List.forall_mem_nil _)).symm
      · obtain ⟨c, u, rfl⟩ := List.exists_cons_of_ne_nil hu.ne_nil
        exact respellCode_eq_pythonSpelling hpython List.mem_cons_self (hu.head c rfl)
    rw [respellCode_eq_pythonSpelling hpython hjoin ho.isBlank, pythonSpelling_join ho st hst hts,
      List.map_congr_left hall]

end Setting

end

end Pseudocode
