import Pseudocode.Expr
import Pseudocode.Proofs.CodeSegments
import Pseudocode.Proofs.PatternReplacing

/-! # Calls in code

Code is respelled by one replacement after another. A replacement may move the calls of a routine and
change what stands around them, but as long as the name of the routine is none that the dialect spells in
a way of its own, no replacement joins a call with what stands before it or takes it apart. So as many
calls come out as went in, and the last replacement writes all of them in the same spelling. -/

namespace Pseudocode

open Text Pattern

/-- Some calls of a routine, one after another, with a condition on the text before each of them. -/
inductive Calls (edge : Text → Prop) (n : Text) : Nat → Text → Prop
  | rest (s : Text) : Calls edge n 0 s
  | call {before after : Text} {k : Nat} (h : edge before) (hk : Calls edge n k after) :
      Calls edge n (k + 1) (before ++ (n ++ '(' :: after))

/-- A text ends with a character of a class, or is empty. -/
def EndsIn (q : Char → Bool) (s : Text) : Prop := s.getLast?.all q = true

theorem endsIn_nil (q : Char → Bool) : EndsIn q [] := rfl

theorem endsIn_append_singleton {q : Char → Bool} {s : Text} {c : Char} :
    EndsIn q (s ++ [c]) ↔ q c = true := by
  simp [EndsIn]

theorem EndsIn.append {q : Char → Bool} {s t : Text} (ht : EndsIn q t) (hs : t = [] → EndsIn q s) :
    EndsIn q (s ++ t) := by
  cases t with
  | nil => simpa using hs rfl
  | cons c t => rwa [EndsIn, List.getLast?_append, Option.or_of_isSome (by simp)]

theorem EndsIn.right {q : Char → Bool} {s t : Text} (h : EndsIn q (s ++ t)) : EndsIn q t := by
  cases t with
  | nil => exact endsIn_nil q
  | cons c t => rwa [EndsIn, List.getLast?_append, Option.or_of_isSome (by simp)] at h

theorem EndsIn.mono {q q' : Char → Bool} {s : Text} (h : EndsIn q s)
    (hq : ∀ c, q c = true → q' c = true) : EndsIn q' s := by
  unfold EndsIn at h ⊢
  cases hlast : s.getLast? with
  | none => rfl
  | some c => exact hq c (by simpa [hlast] using h)

namespace Calls

variable {edge edge' : Text → Prop} {n : Text} {k : Nat} {s : Text}

theorem mono (h : Calls edge n k s) (hedge : ∀ b, edge b → edge' b) : Calls edge' n k s := by
  induction h with
  | rest s => exact .rest s
  | call hb _ ih => exact .call (hedge _ hb) ih

theorem of_isBlank (h : Calls edge n k s) (hn : Reads name n []) (hs : (trim s).isEmpty = true)
    {n' : Text} : Calls edge' n' k s := by
  cases h with
  | rest => exact .rest s
  | @call before after k _ _ =>
    obtain ⟨_, d, ds, rfl, hd, _⟩ := reads_name hn
    obtain ⟨b₁, b₂, heq, hb₁, hb₂⟩ := exists_trim (before ++ (d :: ds ++ '(' :: after))
    rw [List.isEmpty_iff.mp hs, List.nil_append] at heq
    have hmem : d ∈ b₁ ++ b₂ := by simp [← heq]
    have hblank : isBlank d = true := (List.mem_append.mp hmem).elim (hb₁ d) (hb₂ d)
    rw [isWordChar_of_isBlank hblank] at hd
    cases hd

end Calls

/-! ### Replacements that spare calls -/

/-- A replacement spares the calls of a routine that stand after characters of a class: a match lies
before the call or ends with its parenthesis, and none begins within the call. After the replacement the
routine has a name that may be another. The condition `P` is on what stands between a call and the one
before it. -/
structure Spares (p : Pattern) (f : Match → Text) (q : Char → Bool) (P : Text → Prop)
    (n n' : Text) : Prop where
  step {m : Match} {rest b post : Text} (hq : EndsIn q (m.seen.reverse ++ b)) (hP : P b)
    (hm : Way p m.seen m.text rest m.groups) (hne : m.text ≠ [])
    (heq : m.text ++ rest = b ++ (n ++ '(' :: post)) :
    (∃ b', b = m.text ++ b' ∧ (b' = [] → f m ≠ [] ∧ EndsIn q (f m))) ∨
      rest = post ∧ ∃ u, f m = u ++ (n' ++ ['(']) ∧ EndsIn q u ∧ (u = [] → b = [])
  inside {seen t rest u v post : Text} {g : Groups} (hn : n = u ++ v) (hu : u ≠ [])
    (hm : Way p (u.reverse ++ seen) t rest g) (heq : t ++ rest = v ++ '(' :: post) : t = []
  taken : n' = n ∨ ∀ seen post, EndsIn q seen.reverse →
    ∃ m, p.at? ⟨seen, n ++ '(' :: post⟩ = some m ∧ m.text ≠ []

namespace Spares

variable {p : Pattern} {f : Match → Text} {q : Char → Bool} {P : Text → Prop} {n n' : Text}

private theorem replaceFrom_inside (h : Spares p f q P n n') {u v : Text} (hn : n = u ++ v) (hu : u ≠ [])
    (seen post : Text) :
    p.replaceFrom f 0 (u.reverse ++ seen) (v ++ '(' :: post) =
      v ++ '(' :: p.replaceFrom f 0 ('(' :: (n.reverse ++ seen)) post := by
  induction v generalizing u with
  | nil =>
    obtain rfl : n = u := by simpa using hn
    refine replaceFrom_of_no_match fun m hm => ?_
    obtain ⟨rest, hrest, hway, _⟩ := way_of_at? hm
    exact h.inside hn hu hway hrest.symm
  | cons c v ih =>
    have htail := ih (u := u ++ [c]) (by simp [hn]) (by simp)
    rw [List.cons_append, replaceFrom_of_no_match]
    · rw [List.cons_append, ← htail]
      simp
    · intro m hm
      obtain ⟨rest, hrest, hway, _⟩ := way_of_at? hm
      exact h.inside hn hu hway hrest.symm

theorem replaceFrom_at (h : Spares p f q P n n') (hn : n ≠ []) {seen post : Text} (hq : EndsIn q seen.reverse)
    (hnone : ∀ m, p.at? ⟨seen, n ++ '(' :: post⟩ = some m → m.text = []) :
    n' = n ∧ p.replaceFrom f 0 seen (n ++ '(' :: post) =
      n ++ '(' :: p.replaceFrom f 0 ('(' :: (n.reverse ++ seen)) post := by
  rcases h.taken with hn' | htaken
  · obtain ⟨d, v, rfl⟩ := List.exists_cons_of_ne_nil hn
    refine ⟨hn', (replaceFrom_of_no_match hnone).trans ?_⟩
    exact congrArg (d :: ·) (h.replaceFrom_inside (u := [d]) rfl (by simp) seen post)
  · obtain ⟨m, hm, hne⟩ := htaken seen post hq
    exact absurd (hnone m hm) hne

private theorem exists_call (h : Spares p f q P n n') (hn : n ≠ [])
    (hP : ∀ u v, P (u ++ v) → P v) (seen b post : Text) (hq : EndsIn q (seen.reverse ++ b)) (hb : P b) :
    ∃ b₂ seen₂, p.replaceFrom f 0 seen (b ++ (n ++ '(' :: post)) =
        b₂ ++ (n' ++ '(' :: p.replaceFrom f 0 ('(' :: seen₂) post) ∧
      EndsIn q b₂ ∧ (b₂ = [] → b = []) := by
  obtain ⟨c, cs, hcs⟩ := List.exists_cons_of_ne_nil (List.append_ne_nil_of_right_ne_nil b
    (List.append_ne_nil_of_left_ne_nil hn ('(' :: post)))
  rw [hcs]
  rcases replaceFrom_cases p f seen c cs with ⟨m, rest, _, hrest, hne, hseen, hway, hreplace⟩ | ⟨hnone, hkeep⟩
  · rw [hreplace]
    rw [← hseen] at hway hq
    rcases h.step hq hb hway hne (hrest.symm.trans hcs.symm) with
      ⟨b', rfl, hlast⟩ | ⟨rfl, u, hu, hq', hb'⟩
    · -- the match lies before the call, and the rest of the text before it is shorter
      obtain rfl : rest = b' ++ (n ++ '(' :: post) := by
        have heq := hrest.symm.trans hcs.symm
        rwa [List.append_assoc, List.append_cancel_left_eq] at heq
      have hlt : b'.length < (m.text ++ b').length := by
        have := List.length_pos_of_ne_nil hne
        simp only [List.length_append]
        omega
      obtain ⟨b₂, seen₂, hcall, hq₂, hb₂⟩ := exists_call h hn hP (m.text.reverse ++ seen) b' post
        (by simpa [← hseen] using hq) (hP _ _ hb)
      refine ⟨f m ++ b₂, seen₂, by rw [hcall, List.append_assoc], ?_, ?_⟩
      · exact hq₂.append fun he => (hlast (hb₂ he)).2
      · intro he
        obtain ⟨hf, he₂⟩ := List.append_eq_nil_iff.mp he
        exact absurd hf (hlast (hb₂ he₂)).1
    · -- the match ends with the parenthesis of the call
      have hpos : m.text = b ++ (n ++ ['(']) := by
        have heq : m.text ++ rest = b ++ (n ++ ['(']) ++ rest := by simpa using hrest.symm.trans hcs.symm
        exact List.append_cancel_right heq
      refine ⟨u, n.reverse ++ (b.reverse ++ seen), ?_, hq', hb'⟩
      rw [hu, hpos]
      simp
  · cases b with
    | cons d b =>
      rw [hkeep]
      obtain ⟨rfl, rfl⟩ : d = c ∧ b ++ (n ++ '(' :: post) = cs := by simpa using hcs
      obtain ⟨b₂, seen₂, hcall, hq₂, hb₂⟩ := exists_call h hn hP (d :: seen) b post
        (by simpa using hq) (hP [d] b hb)
      refine ⟨d :: b₂, seen₂, by rw [hcall, List.cons_append], ?_, by simp⟩
      refine hq₂.append (s := [d]) fun he => ?_
      obtain rfl := hb₂ he
      exact hq.right
    | nil =>
      rw [List.nil_append] at hcs
      rw [← hcs] at hnone ⊢
      obtain ⟨rfl, hcall⟩ := h.replaceFrom_at hn (by simpa using hq) hnone
      exact ⟨[], n'.reverse ++ seen, hcall, endsIn_nil q, by simp⟩
termination_by b.length

/-- As many calls come out of a replacement that spares them as went in. -/
theorem calls_replaceFrom (h : Spares p f q P n n') (hn : n ≠ []) (hP : ∀ u v, P (u ++ v) → P v)
    (hparen : q '(' = true) {k : Nat} {s : Text} (hs : Calls (fun b => EndsIn q b ∧ P b) n k s)
    {seen : Text} (hq : EndsIn q seen.reverse) : Calls (EndsIn q) n' k (p.replaceFrom f 0 seen s) := by
  induction hs generalizing seen with
  | rest s => exact .rest _
  | @call before after k hbefore _ ih =>
    have hedge : EndsIn q (seen.reverse ++ before) := hbefore.1.append fun _ => hq
    obtain ⟨b₂, seen₂, hcall, hq₂, _⟩ := h.exists_call hn hP seen before after hedge hbefore.2
    rw [hcall]
    exact .call hq₂ (ih (by simpa [endsIn_append_singleton] using hparen))

end Spares

/-! ### Words and parentheses -/

theorem before_or_overlaps {t rest b x : Text} (h : t ++ rest = b ++ x) :
    (∃ b', b = t ++ b') ∨ ∃ c, t = b ++ c ∧ c ≠ [] ∧ c ++ rest = x := by
  rcases List.append_eq_append_iff.mp h with ⟨b', hb, _⟩ | ⟨c, ht, hx⟩
  · exact .inl ⟨b', hb⟩
  · by_cases hc : c = []
    · exact .inl ⟨[], by simp [ht, hc]⟩
    · exact .inr ⟨c, ht, hc, hx.symm⟩

theorem eq_nil_of_word {b : Text} (hb : EndsIn (fun c => !isWordChar c) b)
    (hw : ∀ c ∈ b, isWordChar c = true) : b = [] := by
  by_contra hne
  rw [EndsIn, List.getLast?_eq_some_getLast hne] at hb
  simp [hw _ (List.getLast_mem hne)] at hb

theorem endsIn_blanks (a : Text) {b : Text} (hne : b ≠ []) (hb : ∀ c ∈ b, isBlank c = true) :
    EndsIn (fun c => !isWordChar c) (a ++ b) := by
  refine EndsIn.append ?_ fun hnil => absurd hnil hne
  rw [EndsIn, List.getLast?_eq_some_getLast hne]
  simp [isWordChar_of_isBlank (hb _ (List.getLast_mem hne))]

/-- A text ends in one way only with a word. -/
theorem eq_last_word {a b n w : Text} (hn : ∀ c ∈ n, isWordChar c = true)
    (hw : ∀ c ∈ w, isWordChar c = true) (ha : EndsIn (fun c => !isWordChar c) a)
    (hb : EndsIn (fun c => !isWordChar c) b) (h : b ++ n = a ++ w) : b = a ∧ n = w := by
  have hhead {s : Text} (hs : EndsIn (fun c => !isWordChar c) s) :
      s.reverse.head?.any isWordChar = false := by
    rw [List.head?_reverse]
    unfold EndsIn at hs
    cases hlast : s.getLast? with
    | none => rfl
    | some c => simpa [hlast] using hs
  have hreverse := congrArg List.reverse h
  rw [List.reverse_append, List.reverse_append] at hreverse
  obtain ⟨hnw, hba⟩ := eq_of_runs (by simpa using hn) (by simpa using hw) (hhead hb) (hhead ha) hreverse
  exact ⟨List.reverse_inj.mp hba, List.reverse_inj.mp hnw⟩

/-- A text falls in one way only into the parts around its first parenthesis. -/
theorem eq_of_paren {a b s t : Text} (ha : '(' ∉ a) (hb : '(' ∉ b) (h : a ++ '(' :: s = b ++ '(' :: t) :
    a = b ∧ s = t := by
  have hne {s : Text} (hs : '(' ∉ s) : ∀ d ∈ s, (d != '(') = true := fun d hd => by
    rw [bne_iff_ne]
    rintro rfl
    exact hs hd
  obtain ⟨hab, _, hst⟩ := eq_of_runs_cons (p := (· != '(')) (hne ha) (hne hb) (by decide) (by decide) h
  exact ⟨hab, hst⟩

section

variable {n : Text} (hw : ∀ c ∈ n, isWordChar c = true)

include hw

theorem paren_not_mem_word : '(' ∉ n := fun h => absurd (hw _ h) (by decide)

theorem word_of_no_paren {c rest post : Text} (hc : '(' ∉ c) (h : c ++ rest = n ++ '(' :: post) :
    ∀ d ∈ c, isWordChar d = true := by
  rcases List.append_eq_append_iff.mp h with ⟨n', hn', _⟩ | ⟨d, rfl, hd⟩
  · exact fun d hd => hw d (by simp [hn', hd])
  · cases d with
    | nil => simpa using hw
    | cons e d =>
      obtain ⟨rfl, _⟩ := List.cons.inj hd
      simp at hc

theorem call_of_overlap {a x b c rest post : Text} (ha : '(' ∉ a) (hx : '(' ∉ x)
    (hend : EndsIn (fun c => !isWordChar c) x) (ht : a ++ '(' :: x = b ++ c) (hc : c ≠ [])
    (h : c ++ rest = n ++ '(' :: post) : b ++ n = a ∧ post = x ++ rest := by
  have hall : (b ++ n) ++ '(' :: post = a ++ '(' :: (x ++ rest) := by
    rw [List.append_assoc, ← h, ← List.append_assoc, ← ht]
    simp
  have hb : '(' ∉ b := by
    intro hb
    -- otherwise the rest of the text is part of the name, and ends with a word character
    obtain ⟨b₁, b₂, hsplit, hb₁⟩ := List.eq_append_cons_of_mem hb
    rw [hsplit, List.append_assoc, List.cons_append] at ht
    obtain ⟨_, rfl⟩ := eq_of_paren ha hb₁ ht
    have hword := word_of_no_paren hw (fun hc => hx (List.mem_append_right _ hc)) h
    exact hc (eq_nil_of_word hend.right hword)
  exact eq_of_paren (by simp [hb, paren_not_mem_word hw]) ha hall

end

/-! ### The replacements of a respelling -/

/-- The creation of an object. -/
def creation : Pattern :=
  .wordEdge ++ "new" ++ gap1 ++ .group 1 (.one Char.isUpper ++ .most isWordChar) ++ gap ++ "("

theorem reads_creation {s : Text} {m : Match} (h : Reads creation s m.groups) :
    ∃ b₁ w b₂, s = "new".toList ++ b₁ ++ w ++ b₂ ++ ['('] ∧ m.group 1 = w ∧
      (∀ c ∈ b₁, isBlank c = true) ∧ b₁ ≠ [] ∧ (∀ c ∈ w, isWordChar c = true) ∧
      (∀ c ∈ b₂, isBlank c = true) ∧ w ≠ [] := by
  obtain ⟨_, _, _, _, rfl, hg, h₁, hopen⟩ := reads_append.mp h
  obtain ⟨rfl, rfl⟩ := reads_text.mp hopen
  obtain ⟨_, b₂, _, _, rfl, rfl, h₂, hgap⟩ := reads_append.mp h₁
  obtain ⟨hb₂, rfl⟩ := reads_most.mp hgap
  obtain ⟨_, w, _, _, rfl, rfl, h₃, hgroup⟩ := reads_append.mp h₂
  obtain ⟨_, rfl, hw⟩ := reads_group.mp hgroup
  obtain ⟨_, b₁, _, _, rfl, rfl, h₄, hgap₁⟩ := reads_append.mp h₃
  obtain ⟨hne, hb₁, rfl⟩ := reads_most1.mp hgap₁
  obtain ⟨_, _, _, _, rfl, rfl, hedge, hnew⟩ := reads_append.mp h₄
  obtain ⟨rfl, rfl⟩ := reads_text.mp hnew
  cases hedge
  obtain ⟨_, _, _, _, rfl, rfl, hone, hmost⟩ := reads_append.mp hw
  obtain ⟨c, hc, rfl, rfl⟩ := reads_one.mp hone
  have hstart : isNameStart c = true := Bool.or_eq_true_iff.mpr (.inl (Bool.or_eq_true_iff.mpr (.inl hc)))
  exact ⟨b₁, _, b₂, rfl, by simp [Match.group, Match.group?, hg], hb₁, hne,
    List.forall_mem_cons.mpr ⟨isWordChar_of_isNameStart hstart, (reads_most.mp hmost).1⟩, hb₂, List.cons_ne_nil _ _⟩

/-- What may stand before a call: no word character, and a dot only if the call may be one of a method. -/
def mayPrecede (dotted : Bool) (c : Char) : Bool := !isWordChar c && (dotted || c != '.')

theorem isWordChar_of_mayPrecede {dotted : Bool} {c : Char} (h : mayPrecede dotted c = true) :
    isWordChar c = false := by
  simpa using (Bool.and_eq_true_iff.mp h).1

theorem EndsIn.not_word {dotted : Bool} {s : Text} (h : EndsIn (mayPrecede dotted) s) :
    EndsIn (fun c => !isWordChar c) s :=
  h.mono fun c hc => by simp [isWordChar_of_mayPrecede hc]

theorem endsIn_of_last {dotted : Bool} {s : Text} {c : Char} (h : s.getLast? = some c)
    (hc : c ∈ " ()".toList) : EndsIn (mayPrecede dotted) s := by
  rw [EndsIn, h]
  have hall : " ()".toList.all (mayPrecede dotted) = true := by cases dotted <;> decide
  exact List.all_eq_true.mp hall c hc

namespace Spares

variable {n : Text} (hw : ∀ c ∈ n, isWordChar c = true) {dotted : Bool} {P : Text → Prop}
  {p : Pattern} {f : Match → Text}

include hw

theorem inside_of_edge (hp : p.beginsAtEdge = true)
    (hbegin : ∀ c, p.canBegin c = true → isWordChar c = true) {seen t rest u v : Text}
    {g : Groups} (hn : n = u ++ v) (hu : u ≠ []) (hm : Way p (u.reverse ++ seen) t rest g) : t = [] := by
  cases t with
  | nil => rfl
  | cons c t =>
    have hhead := hbegin c (hm.reads.canBegin rfl)
    have hlast := hw (u.getLast hu) (by simp [hn, List.getLast_mem hu])
    have hedge := hm.isWordEdge hp
    simp [Pattern.isWordEdge, List.getLast?_eq_some_getLast hu, hlast, hhead] at hedge

/-- Operators are respelled without touching a name. -/
theorem of_signs (hne : n ≠ []) (hp : ∀ s g, Reads p s g → ∀ c ∈ s, isWordChar c = false ∧ c ≠ '(')
    (hf : ∀ m, (f m).getLast? = some ' ') : Spares p f (mayPrecede dotted) P n n where
  step {m rest b post} _ _ hm hne' heq := by
    rcases before_or_overlaps heq with ⟨b', hb⟩ | ⟨c, ht, hc, hcn⟩
    · refine .inl ⟨b', hb, fun _ => ⟨?_, endsIn_of_last (hf m) (by decide)⟩⟩
      intro hnil
      have hlast := hf m
      simp [hnil] at hlast
    · obtain ⟨d, c, rfl⟩ := List.exists_cons_of_ne_nil hc
      obtain ⟨e, n, rfl⟩ := List.exists_cons_of_ne_nil hne
      obtain ⟨rfl, _⟩ := List.cons.inj hcn
      have hword := hw d (by simp)
      rw [(hp _ _ hm.reads d (by simp [ht])).1] at hword
      cases hword
  inside {seen t rest u v post g} hn hu hm heq := by
    cases t with
    | nil => rfl
    | cons d t =>
      obtain ⟨hd, hparen⟩ := hp _ _ hm.reads d (by simp)
      cases v with
      | nil => exact absurd (List.cons.inj heq).1 hparen
      | cons e v =>
        obtain ⟨rfl, _⟩ := List.cons.inj heq
        rw [hw d (by simp [hn])] at hd
        cases hd
  taken := .inl rfl

theorem of_word {w : String} (hne' : w.toList ≠ []) (hw' : ∀ c ∈ w.toList, isWordChar c = true)
    (hnw : n ≠ w.toList) : Spares (word w) f (mayPrecede dotted) P n n where
  step {m rest b post} hq _ hm _ heq := by
    obtain ⟨_, _, _, _, ht, _, h₁, hafter⟩ := way_append.mp hm
    obtain ⟨_, _, _, _, rfl, _, hbefore, htext⟩ := way_append.mp h₁
    obtain ⟨rfl, _, _⟩ := way_wordEdge.mp hbefore
    obtain ⟨rfl, _, hedge⟩ := way_wordEdge.mp hafter
    obtain ⟨rfl, _⟩ := way_text.mp htext
    rw [List.nil_append, isWordEdge_after hne' hw'] at hedge
    rw [List.nil_append, List.append_nil] at ht
    rw [ht] at heq ⊢
    have hb := hq.right.not_word
    rcases before_or_overlaps heq with ⟨b', rfl⟩ | ⟨c, hbc, _⟩
    · refine .inl ⟨b', rfl, ?_⟩
      rintro rfl
      rw [List.append_nil] at hb
      exact absurd (eq_nil_of_word hb hw') hne'
    · -- the word begins with the name, and both end at an edge
      obtain rfl := eq_nil_of_word hb fun c hc => hw' c (by rw [hbc]; exact List.mem_append_left _ hc)
      obtain ⟨hwn, _⟩ := eq_of_runs hw' hw hedge rfl heq
      exact absurd hwn.symm hnw
  inside hn hu hm _ := by
    refine inside_of_edge hw rfl (fun c hc => ?_) hn hu hm
    have hhead : w.toList.head? = some c := by
      simpa [word, HAppend.hAppend, Append.append, canBegin, canBeEmpty] using hc
    exact hw' c (List.mem_of_head? hhead)
  taken := .inl rfl

theorem of_function {w : Text} (hw' : ∀ c ∈ w, isWordChar c = true) (hne' : w ≠ []) (hnw : n ≠ w)
    (hf : ∀ m, (f m).getLast? = some '(') :
    Spares (.wordEdge ++ .text (w ++ ['('])) f (mayPrecede dotted) P n n where
  step {m rest b post} hq _ hm _ heq := by
    obtain ⟨_, _, _, _, ht, _, hbefore, htext⟩ := way_append.mp hm
    obtain ⟨rfl, _, _⟩ := way_wordEdge.mp hbefore
    obtain ⟨rfl, _⟩ := way_text.mp htext
    rw [List.nil_append] at ht
    rcases before_or_overlaps heq with ⟨b', hb⟩ | ⟨c, hbc, hc, hcn⟩
    · refine .inl ⟨b', hb, fun _ => ⟨?_, endsIn_of_last (hf m) (by decide)⟩⟩
      exact fun hnil => by simpa [hnil] using hf m
    · rw [ht] at hbc
      obtain ⟨hbn, _⟩ := call_of_overlap hw (paren_not_mem_word hw') (by simp) (endsIn_nil _) hbc hc hcn
      exact absurd (eq_last_word hw hw' (endsIn_nil _) hq.right.not_word (a := []) hbn).2 hnw
  inside hn hu hm _ := by
    refine inside_of_edge hw rfl (fun c hc => ?_) hn hu hm
    have hhead : (w ++ ['(']).head? = some c := of_decide_eq_true hc
    obtain ⟨d, w, rfl⟩ := List.exists_cons_of_ne_nil hne'
    obtain rfl : d = c := by simpa using hhead
    exact hw' d (by simp)
  taken := .inl rfl

/-- A method that the dialect writes as a function of its own. -/
theorem of_method
    (hp : ∀ s g, Reads p s g → ∃ a w x, s = a ++ '.' :: (w ++ '(' :: x) ∧ '(' ∉ a ∧ '(' ∉ x ∧
      EndsIn (fun c => !isWordChar c) x ∧ (∀ c ∈ w, isWordChar c = true) ∧ (n = w → dotted = false))
    (hf : ∀ m, Reads p m.text m.groups → P m.text → f m ≠ [] ∧ EndsIn (mayPrecede dotted) (f m)) :
    Spares p f (mayPrecede dotted) P n n where
  step {m rest b post} hq hP hm _ heq := by
    rcases before_or_overlaps heq with ⟨b', hb⟩ | ⟨c, hbc, hc, hcn⟩
    · refine .inl ⟨b', hb, ?_⟩
      rintro rfl
      rw [List.append_nil] at hb
      exact hf m hm.reads (hb ▸ hP)
    · obtain ⟨a, w, x, ht, ha, hx, hend, hw', hnw⟩ := hp _ _ hm.reads
      have hparen : '(' ∉ a ++ ['.'] ++ w := by simp [ha, paren_not_mem_word hw']
      obtain ⟨hbn, _⟩ := call_of_overlap hw hparen hx hend (by rw [← hbc, ht]; simp) hc hcn
      obtain ⟨rfl, rfl⟩ := eq_last_word hw hw' (endsIn_append_singleton.mpr (by decide)) hq.right.not_word hbn
      have hdot := endsIn_append_singleton.mp hq.right
      rw [hnw rfl] at hdot
      cases hdot
  inside {seen t rest u v post g} hn hu hm heq := by
    obtain ⟨a, w, x, rfl, ha, _, _, hw', _⟩ := hp _ _ hm.reads
    have hv : ∀ c ∈ v, isWordChar c = true := fun c hc => hw c (by simp [hn, hc])
    have hparen : '(' ∉ a ++ '.' :: w := by simp [ha, paren_not_mem_word hw']
    obtain ⟨rfl, _⟩ := eq_of_paren (s := x ++ rest) hparen (paren_not_mem_word hv)
      (by rw [← heq]; simp)
    exact absurd (hv '.' (by simp)) (by decide)
  taken := .inl rfl

theorem of_receiver : Spares (.wordEdge ++ "this.") (fun _ => "self.") (mayPrecede dotted) P n n where
  step {m rest b post} hq _ hm _ heq := by
    obtain ⟨_, _, _, _, ht, _, hbefore, htext⟩ := way_append.mp hm
    obtain ⟨rfl, _, _⟩ := way_wordEdge.mp hbefore
    obtain ⟨rfl, _⟩ := way_text.mp htext
    rw [List.nil_append] at ht
    rw [ht] at heq ⊢
    rcases before_or_overlaps heq with ⟨b', rfl⟩ | ⟨c, hbc, hc, _⟩
    · refine .inl ⟨b', rfl, ?_⟩
      rintro rfl
      have hdot : mayPrecede dotted '.' = true := by simpa [EndsIn] using hq.right
      exact ⟨by decide, by simpa [EndsIn] using hdot⟩
    · -- the word before the dot would be the one before the parenthesis
      have hthis : ∀ c ∈ "this".toList, isWordChar c = true := List.all_eq_true.mp (by decide)
      obtain ⟨c, d, rfl⟩ := List.eq_nil_or_concat c |>.resolve_left hc
      have hbc : "this".toList ++ ['.'] = b ++ c ++ [d] := by simpa using hbc
      obtain ⟨hbc, _⟩ := List.append_inj' hbc rfl
      obtain rfl := eq_nil_of_word hq.right.not_word fun e he => hthis e (by rw [hbc]; simp [he])
      obtain ⟨_, hdot, _⟩ := eq_of_runs_cons (a := "this".toList) (c := '.') hthis hw (by decide) (by decide)
        heq
      cases hdot
  inside hn hu hm _ := by
    refine inside_of_edge hw rfl (fun c hc => ?_) hn hu hm
    obtain rfl : 't' = c := by simpa using of_decide_eq_true hc
    decide
  taken := .inl rfl

theorem of_length (hnw : n = "length".toList → dotted = false) (hf : ∀ m, (f m).getLast? = some ')') :
    Spares (.wordEdge ++ .group 1 Setting.shortDottedName ++ ".length" ++ .wordEdge) f
      (mayPrecede dotted) P n n where
  step {m rest b post} hq _ hm _ heq := by
    obtain ⟨_, _, _, _, ht, _, h₁, hafter⟩ := way_append.mp hm
    obtain ⟨a, _, _, _, rfl, _, h₂, htext⟩ := way_append.mp h₁
    obtain ⟨rfl, _, hedge⟩ := way_wordEdge.mp hafter
    obtain ⟨rfl, _⟩ := way_text.mp htext
    have hrest : rest.head?.any isWordChar = false := by
      simpa [Pattern.isWordEdge, show isWordChar 'h' = true by decide] using hedge
    have hparen : '(' ∉ m.text := hm.reads.avoids (by decide)
    rcases before_or_overlaps heq with ⟨b', hb⟩ | ⟨c, hbc, hc, hcn⟩
    · refine .inl ⟨b', hb, fun _ => ⟨?_, endsIn_of_last (hf m) (by decide)⟩⟩
      exact fun hnil => by simpa [hnil] using hf m
    · -- the match ends with the name
      have hword := word_of_no_paren hw (fun h => hparen (by simp [hbc, h])) hcn
      obtain ⟨rfl, _⟩ := eq_of_runs hword hw hrest rfl hcn
      have hlength : b ++ c = a ++ ['.'] ++ "length".toList := by
        rw [← hbc, ht]
        simp
      obtain ⟨rfl, rfl⟩ := eq_last_word hw (List.all_eq_true.mp (by decide))
        (endsIn_append_singleton.mpr (by decide)) hq.right.not_word hlength
      have hdot := endsIn_append_singleton.mp hq.right
      rw [hnw rfl] at hdot
      cases hdot
  inside hn hu hm _ := by
    refine inside_of_edge hw rfl (fun c hc => ?_) hn hu hm
    exact isWordChar_of_isNameStart (by simpa [HAppend.hAppend, Append.append, canBegin, canBeEmpty,
      Setting.shortDottedName] using hc)
  taken := .inl rfl

theorem of_creation (hne : n ≠ []) (hf : ∀ m, f m = "NEW ".toList ++ (m.group 1 ++ ['('])) :
    Spares creation f (mayPrecede dotted) P n n where
  step {m rest b post} hq _ hm _ heq := by
    obtain ⟨b₁, w, b₂, ht, hgroup, hb₁, hne₁, hw', hb₂, _⟩ := reads_creation hm.reads
    rw [hf, hgroup]
    rcases before_or_overlaps heq with ⟨b', hb⟩ | ⟨c, hbc, hc, hcn⟩
    · refine .inl ⟨b', hb, fun _ => ⟨by simp, endsIn_of_last (c := '(') ?_ (by decide)⟩⟩
      rw [← List.append_assoc, List.getLast?_concat]
    · have hparen : '(' ∉ "new".toList ++ b₁ ++ w ++ b₂ := by
        have hblank {s : Text} (hs : ∀ c ∈ s, isBlank c = true) : '(' ∉ s :=
          fun h => absurd (hs _ h) (by decide)
        simp [hblank hb₁, hblank hb₂, paren_not_mem_word hw']
      obtain ⟨hbn, hpost⟩ := call_of_overlap hw hparen (by simp) (endsIn_nil _) (by rw [← hbc, ht]) hc hcn
      have hb := hq.right.not_word
      -- the name stands right before the parenthesis
      obtain rfl : b₂ = [] := by
        by_contra hne₂
        exact hne (eq_last_word hw (by simp) (endsIn_blanks _ hne₂ hb₂) hb (hbn.trans (List.append_nil _).symm)).2
      rw [List.append_nil] at hbn
      obtain ⟨_, rfl⟩ := eq_last_word hw hw' (endsIn_blanks _ hne₁ hb₁) hb hbn
      exact .inr ⟨hpost.symm, _, rfl, endsIn_of_last (c := ' ') rfl (by decide), by simp⟩
  inside hn hu hm _ := by
    refine inside_of_edge hw rfl (fun c hc => ?_) hn hu hm
    obtain rfl : 'n' = c := by
      simpa [creation, HAppend.hAppend, Append.append, canBegin, canBeEmpty] using hc
    decide
  taken := .inl rfl

end Spares

/-- A call of a name. -/
def namedCall : Pattern := .wordEdge ++ .group 1 name ++ "("

theorem reads_namedCall {s : Text} {m : Match} (h : Reads namedCall s m.groups) :
    ∃ w, s = w ++ ['('] ∧ m.group 1 = w ∧ ∀ c ∈ w, isWordChar c = true := by
  obtain ⟨_, _, _, _, rfl, hg, h₁, hopen⟩ := reads_append.mp h
  obtain ⟨rfl, rfl⟩ := reads_text.mp hopen
  obtain ⟨_, w, _, _, rfl, rfl, hedge, hgroup⟩ := reads_append.mp h₁
  obtain ⟨_, rfl, hw⟩ := reads_group.mp hgroup
  obtain ⟨_, _, _, _, _, hw⟩ := reads_name hw
  cases hedge
  exact ⟨w, rfl, by simp [Match.group, Match.group?, hg], hw⟩

/-- The calls of a routine take the name that the replacement gives them. -/
theorem Spares.of_namedCall {n n' : Text} (hn : Reads name n []) {dotted : Bool} {P : Text → Prop}
    {f : Match → Text} (hf : ∀ m, m.group 1 = n → f m = n' ++ ['('])
    (hlast : ∀ m, m.text.getLast? = some '(' → (f m).getLast? = some '(') :
    Spares namedCall f (mayPrecede dotted) P n n' := by
  obtain ⟨_, d, ds, hd, _, hw⟩ := reads_name hn
  have hne : n ≠ [] := by simp [hd]
  refine ⟨?_, ?_, .inr ?_⟩
  · intro m rest b post hq _ hm _ heq
    obtain ⟨w, ht, hgroup, hw'⟩ := reads_namedCall hm.reads
    have hend := hlast m (by rw [ht, List.getLast?_concat])
    rcases before_or_overlaps heq with ⟨b', hb⟩ | ⟨c, hbc, hc, hcn⟩
    · refine .inl ⟨b', hb, fun _ => ⟨?_, endsIn_of_last hend (by decide)⟩⟩
      exact fun hnil => by simp [hnil] at hend
    · obtain ⟨hbn, hpost⟩ := call_of_overlap hw (paren_not_mem_word hw') (by simp) (endsIn_nil _)
        (by rw [← hbc, ht]) hc hcn
      obtain ⟨rfl, rfl⟩ := eq_last_word hw hw' (endsIn_nil _) hq.right.not_word (a := []) hbn
      exact .inr ⟨hpost.symm, [], by rw [hf m hgroup]; rfl, endsIn_nil _, fun _ => rfl⟩
  · intro seen t rest u v post g hn hu hm _
    refine inside_of_edge hw rfl (fun c hc => ?_) hn hu hm
    exact isWordChar_of_isNameStart
      (by simpa [namedCall, name, HAppend.hAppend, Append.append, canBegin, canBeEmpty] using hc)
  · intro seen post hq
    have hseen : seen.head?.any isWordChar = false := by
      have hlast := hq.not_word
      rw [EndsIn, List.getLast?_reverse] at hlast
      cases hs : seen.head? with
      | none => rfl
      | some c => simpa [hs] using hlast
    have hway : Way namedCall seen (n ++ ['(']) post [(1, n)] :=
      way_append.mpr ⟨n, ['('], [(1, n)], [], rfl, rfl,
        way_append.mpr ⟨[], n, [], [(1, n)], rfl, rfl,
          .wordEdge ((isWordEdge_before hne hw).mpr hseen), .group (hn.way rfl _ _)⟩, .text⟩
    obtain ⟨m, hm⟩ := exists_at? hway
    refine ⟨m, by simpa using hm, ?_⟩
    obtain ⟨rest, _, hway, _⟩ := way_of_at? hm
    obtain ⟨w, ht, _⟩ := reads_namedCall hway.reads
    simp [ht]

theorem reads_power {s : Text} {g : Groups} (h : Reads Setting.power s g) :
    ∃ x, s = "Math".toList ++ '.' :: ("pow".toList ++ '(' :: (x ++ [')'])) ∧ '(' ∉ x := by
  obtain ⟨_, _, _, _, rfl, rfl, h₁, hclose⟩ := reads_append.mp h
  obtain ⟨rfl, rfl⟩ := reads_text.mp hclose
  obtain ⟨_, x₁, _, _, rfl, rfl, h₂, hx₁⟩ := reads_append.mp h₁
  obtain ⟨_, x₂, _, _, rfl, rfl, h₃, hx₂⟩ := reads_append.mp h₂
  obtain ⟨_, x₃, _, _, rfl, rfl, h₄, hx₃⟩ := reads_append.mp h₃
  obtain ⟨_, x₄, _, _, rfl, rfl, h₅, hx₄⟩ := reads_append.mp h₄
  obtain ⟨_, x₅, _, _, rfl, rfl, h₆, hx₅⟩ := reads_append.mp h₅
  obtain ⟨_, x₆, _, _, rfl, rfl, h₇, hx₆⟩ := reads_append.mp h₆
  obtain ⟨_, x₇, _, _, rfl, rfl, hopen, hx₇⟩ := reads_append.mp h₇
  obtain ⟨rfl, rfl⟩ := reads_text.mp hopen
  refine ⟨x₇ ++ x₆ ++ x₅ ++ x₄ ++ x₃ ++ x₂ ++ x₁, by simp, ?_⟩
  simp only [List.mem_append, not_or]
  exact ⟨⟨⟨⟨⟨⟨hx₇.avoids (by decide), hx₆.avoids (by decide)⟩, hx₅.avoids (by decide)⟩,
    hx₄.avoids (by decide)⟩, hx₃.avoids (by decide)⟩, hx₂.avoids (by decide)⟩, hx₁.avoids (by decide)⟩

/-- Methods of strings that become functions. -/
def stringMethods : List Text := ["upper", "lower", "toUpperCase", "toLowerCase", "length"]

theorem reads_stringMethod {s : Text} {g : Groups} (h : Reads Setting.stringMethod s g) :
    ∃ a w, s = a ++ '.' :: (w ++ '(' :: [')']) ∧ '(' ∉ a ∧
      w ∈ stringMethods := by
  obtain ⟨_, _, _, _, rfl, rfl, h₁, hparens⟩ := reads_append.mp h
  obtain ⟨rfl, rfl⟩ := reads_text.mp hparens
  obtain ⟨_, w, _, _, rfl, rfl, h₂, hgroup⟩ := reads_append.mp h₁
  obtain ⟨_, rfl, hw⟩ := reads_group.mp hgroup
  obtain ⟨a, _, _, _, rfl, rfl, ha, hdot⟩ := reads_append.mp h₂
  obtain ⟨rfl, rfl⟩ := reads_text.mp hdot
  exact ⟨a, w, by simp, ha.avoids (by decide), (@mem_of_reads_oneOf _ _ stringMethods hw).1⟩

end Pseudocode
