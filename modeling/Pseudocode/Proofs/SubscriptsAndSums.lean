import Pseudocode.Proofs.SubscriptPlaces

/-! # Subscripts and sums

Subscripts of strings and records and sums with strings are rewritten in the whole text of an expression. What is
noted of the text stays the same if the subscripts that are rewritten stand in code, and if square brackets may as
well be round ones. -/

namespace Pseudocode

open Text Pattern

namespace Text

variable {α : Type} {note : α → Char × Role → Option α} {m : Mode} {a b : α}

/-- Square brackets may become round ones. -/
def RoundsSquares (note : α → Char × Role → Option α) : Prop :=
  ∀ a a₁ a₂ b x, (∀ c ∈ x, isSquare c = false) → note a ('[', .code) = some a₁ →
    read note .code a₁ x = some a₂ → note a₂ (']', .code) = some b →
    ∃ c₁ c₂, note a ('(', .code) = some c₁ ∧ read note .code c₁ x = some c₂ ∧ note c₂ (')', .code) = some b

theorem read_subscript (hnote : SkipsCode note) {w x : Text} (hw : ∀ c ∈ w, isWordChar c = true)
    (hx : Mode.code.after x = .code) (h : read note .code a (w ++ '[' :: (x ++ [']'])) = some b) :
    ∃ a₁ a₂, note a ('[', .code) = some a₁ ∧ read note .code a₁ x = some a₂ ∧ note a₂ (']', .code) = some b := by
  rw [read_skipped_append hnote fun c hc => plain_of_isWordChar (hw c hc), read_cons_code (by decide),
    Option.bind_eq_some_iff] at h
  obtain ⟨a₁, ha₁, h⟩ := h
  obtain ⟨a₂, ha₂, hclose⟩ := read_append_eq_some.mp h
  rw [hx, read_singleton] at hclose
  exact ⟨a₁, a₂, ha₁, ha₂, hclose⟩

theorem after_of_word {w : Text} (hw : ∀ c ∈ w, isWordChar c = true) : Mode.code.after w = .code :=
  after_of_no_quote fun c hc => (plain_of_isWordChar (hw c hc)).1

theorem after_subscript {w x : Text} (hw : ∀ c ∈ w, isWordChar c = true) (hx : Mode.code.after x = .code) :
    Mode.code.after (w ++ '[' :: (x ++ [']'])) = .code := by
  rw [Mode.after_append, after_of_word hw, Mode.after_cons,
    (code_of_no_quote (c := '[') (by decide)).2, Mode.after_append, hx, Mode.after_cons,
    (code_of_no_quote (c := ']') (by decide)).2, Mode.after_nil]

/-- A call is read as its parentheses and what is inside them. -/
theorem read_in_parens (hnote : SkipsCode note) {w y : Text}
    (hw : ∀ c ∈ w, isQuote c = false ∧ bracketWeight c = 0) {a₁ a₂ : α} (hopen : note a ('(', .code) = some a₁)
    (hread : read note .code a₁ y = some a₂) (hafter : Mode.code.after y = .code)
    (hclose : note a₂ (')', .code) = some b) :
    read note .code a (w ++ '(' :: (y ++ [')'])) = some b ∧
      Mode.code.after (w ++ '(' :: (y ++ [')'])) = .code := by
  have hright := code_of_no_quote (c := ')') (by decide)
  constructor
  · rw [read_skipped_append hnote hw, read_cons_code (by decide), hopen, Option.bind_some, read_append, hread,
      Option.bind_some, hafter, read_singleton, hright.1, hclose]
  · rw [Mode.after_append, after_of_no_quote fun c hc => (hw c hc).1, Mode.after_cons,
      (code_of_no_quote (c := '(') (by decide)).2, Mode.after_append, hafter, Mode.after_cons, hright.2, Mode.after_nil]

end Text

namespace Setting

variable {α : Type} {note : α → Char × Role → Option α} {a : α} {st : Setting} {d : Dialect}
  (hst : st.style = d.style)

/-- A subscript of a name. -/
theorem reads_subscript {s : Text} {m : Match} (h : Reads subscript s m.groups) :
    ∃ w x, s = w ++ '[' :: (x ++ [']']) ∧ m.group 1 = w ∧ m.group 2 = x ∧ (∀ c ∈ w, isWordChar c = true) ∧
      ∀ c ∈ x, isSquare c = false := by
  obtain ⟨_, _, _, _, rfl, hg, h₁, hclose⟩ := reads_append.mp h
  obtain ⟨rfl, rfl⟩ := reads_text.mp hclose
  obtain ⟨_, x, _, _, rfl, rfl, h₂, hgroup⟩ := reads_append.mp h₁
  obtain ⟨_, rfl, hx⟩ := reads_group.mp hgroup
  obtain ⟨_, _, _, _, rfl, rfl, h₃, hopen⟩ := reads_append.mp h₂
  obtain ⟨rfl, rfl⟩ := reads_text.mp hopen
  obtain ⟨_, w, _, _, rfl, rfl, hedge, hgroup'⟩ := reads_append.mp h₃
  obtain ⟨_, rfl, hw⟩ := reads_group.mp hgroup'
  cases hedge
  obtain ⟨rfl, _, _, _, _, hword⟩ := reads_name hw
  obtain ⟨_, hcls, rfl⟩ := reads_most1.mp hx
  refine ⟨w, x, by simp, by simp only [Match.group, Match.group?, hg]; rfl,
    by simp only [Match.group, Match.group?, hg]; rfl, hword, fun c hc => ?_⟩
  have hnone : c ≠ '[' ∧ c ≠ ']' := by simpa [noneOf] using hcls c hc
  simp [isSquare, hnone]

private theorem bracketWeight_of_isQuote {c : Char} (hc : isQuote c = true) : bracketWeight c = 0 := by
  rcases (Bool.or_eq_true _ _).mp hc with hc | hc
  · rw [beq_iff_eq.mp hc]
    decide
  · rw [beq_iff_eq.mp hc]
    decide

theorem reads_recordAccess {s : Text} {m : Match} (h : Reads recordAccess s m.groups) :
    ∃ w x n, s = w ++ '[' :: (x ++ [']']) ∧ m.group 1 = w ∧ m.group 2 = n ∧ (∀ c ∈ w, isWordChar c = true) ∧
      (∀ c ∈ n, isWordChar c = true) ∧ ∀ c ∈ x, bracketWeight c = 0 := by
  obtain ⟨_, _, _, _, rfl, hg, h₁, hclose⟩ := reads_append.mp h
  obtain ⟨rfl, rfl⟩ := reads_text.mp hclose
  obtain ⟨_, b₂, _, _, rfl, rfl, h₂, hgap₂⟩ := reads_append.mp h₁
  obtain ⟨hb₂, rfl⟩ := reads_most.mp hgap₂
  obtain ⟨_, _, _, _, rfl, rfl, h₃, hquote₂⟩ := reads_append.mp h₂
  obtain ⟨q₂, hq₂, rfl, rfl⟩ := reads_one.mp hquote₂
  obtain ⟨_, n, _, _, rfl, rfl, h₄, hgroup₂⟩ := reads_append.mp h₃
  obtain ⟨_, rfl, hn⟩ := reads_group.mp hgroup₂
  obtain ⟨_, _, _, _, rfl, rfl, h₅, hquote₁⟩ := reads_append.mp h₄
  obtain ⟨q₁, hq₁, rfl, rfl⟩ := reads_one.mp hquote₁
  obtain ⟨_, b₁, _, _, rfl, rfl, h₆, hgap₁⟩ := reads_append.mp h₅
  obtain ⟨hb₁, rfl⟩ := reads_most.mp hgap₁
  obtain ⟨_, _, _, _, rfl, rfl, h₇, hopen⟩ := reads_append.mp h₆
  obtain ⟨rfl, rfl⟩ := reads_text.mp hopen
  obtain ⟨_, w, _, _, rfl, rfl, hedge, hgroup₁⟩ := reads_append.mp h₇
  obtain ⟨_, rfl, hw⟩ := reads_group.mp hgroup₁
  cases hedge
  obtain ⟨rfl, _, _, _, _, hn⟩ := reads_name hn
  obtain ⟨rfl, _, _, _, _, hw⟩ := reads_name hw
  refine ⟨w, b₁ ++ q₁ :: (n ++ q₂ :: b₂), n, by simp, by simp only [Match.group, Match.group?, hg]; rfl,
    by simp only [Match.group, Match.group?, hg]; rfl, hw, hn, ?_⟩
  simp only [List.forall_mem_append, List.forall_mem_cons]
  exact ⟨fun c hc => bracketWeight_of_isBlank (hb₁ c hc), bracketWeight_of_isQuote hq₁,
    fun c hc => (plain_of_isWordChar (hn c hc)).2, bracketWeight_of_isQuote hq₂,
    fun c hc => bracketWeight_of_isBlank (hb₂ c hc)⟩

theorem exists_quote_of_recordAccess {t : Text} {g : Groups} (h : Reads recordAccess t g) :
    ∃ c ∈ t, isQuote c = true := by
  obtain ⟨_, _, _, _, rfl, _, h₁, _⟩ := reads_append.mp h
  obtain ⟨_, _, _, _, rfl, _, h₂, _⟩ := reads_append.mp h₁
  obtain ⟨_, _, _, _, rfl, _, _, hquote⟩ := reads_append.mp h₂
  obtain ⟨q, hq, rfl, _⟩ := reads_one.mp hquote
  exact ⟨q, by simp, hq⟩

/-- A way that begins at the edge of a word begins with it. -/
theorem free_of_way {p : Pattern} {seen w s rest : Text} {g : Groups} (hedge : p.beginsAtEdge = true)
    (hopen : p.canBegin '[' = false) (hw : ∀ c ∈ w, isWordChar c = true) (h : Way p seen (w ++ '[' :: s) rest g) :
    w ≠ [] ∧ seen.head?.any isWordChar = false := by
  have hne : w ≠ [] := by
    rintro rfl
    have hbegin := h.reads.canBegin (c := '[') rfl
    simp [hopen] at hbegin
  have hword := h.isWordEdge hedge
  rw [List.append_assoc] at hword
  exact ⟨hne, (isWordEdge_before hne hw).mp hword⟩

include hst in
theorem plain_kw (k : Keyword) : ∀ c ∈ st.kw k, isQuote c = false ∧ bracketWeight c = 0 := by
  have hall : delimiters.all (fun x => !(d.style.keyword k).contains x) = true := by
    cases d <;> cases k <;> decide
  rw [kw, hst]
  intro c hc
  refine plain_of_not_mem fun hm => ?_
  simpa [hc] using List.all_eq_true.mp hall c hm

theorem keeps_stringIndex_of {s : Text} (hs : SubscriptsInCode st.indexes s)
    (h : ∀ u w x c, read note .code a u = some c → Mode.code.after u = .code →
      u.reverse.head?.any isWordChar = false → w ≠ [] → (∀ c ∈ w, isWordChar c = true) →
      (∀ c ∈ x, isSquare c = false) → Mode.code.after x = .code → Keeps note .code c
        (w ++ '[' :: (x ++ [']'])) (st.kw .substringWord ++ "(" ++ w ++ ", " ++ trim x ++ ", 1)")) :
    Keeps note .code a s (st.stringIndex s) := by
  unfold stringIndex
  split
  · next hstyle =>
    refine keeps_replace fun u t v g c hsplit hway hc => ?_
    split
    · next hstring =>
      obtain ⟨w, x, rfl, hname, hinner, hw, hx⟩ := reads_subscript (m := ⟨u.reverse, t, g⟩) hway.reads
      obtain ⟨hne, hfree⟩ := free_of_way (by decide) (by decide) hw hway
      rw [hname] at hstring ⊢
      rw [hinner]
      obtain ⟨hmode, hclosed⟩ := hs u w x v (by simpa using hsplit) hfree hw hx (by simp [indexes, hstyle, hstring])
      rw [hmode]
      exact h u w x c hc hmode hfree hne hw hx hclosed
    · exact Keeps.refl _ _ _ _
  · exact Keeps.refl _ _ _ _

theorem keeps_fieldAccess_of {s : Text} (hs : SubscriptsInCode st.indexes s)
    (h : ∀ u w x n c, read note .code a u = some c → Mode.code.after u = .code →
      u.reverse.head?.any isWordChar = false → w ≠ [] → (∀ c ∈ w, isWordChar c = true) →
      (∀ c ∈ n, isWordChar c = true) → (∀ c ∈ x, bracketWeight c = 0) → Mode.code.after x = .code →
      Keeps note .code c (w ++ '[' :: (x ++ [']'])) (w ++ "." ++ n)) :
    Keeps note .code a s (st.fieldAccess s) := by
  unfold fieldAccess
  split
  · next hstyle =>
    refine keeps_replace fun u t v g c hsplit hway hc => ?_
    split
    · next hrecord =>
      obtain ⟨w, x, n, rfl, hname, hfield, hw, hn, hx⟩ := reads_recordAccess (m := ⟨u.reverse, t, g⟩) hway.reads
      obtain ⟨hne, hfree⟩ := free_of_way (by decide) (by decide) hw hway
      have hrecords : st.style.records = true := (Bool.and_eq_true_iff.mp hstyle).1
      rw [hname] at hrecord ⊢
      rw [hfield]
      obtain ⟨hmode, hclosed⟩ := hs u w x v (by simpa using hsplit) hfree hw
        (fun c hc => isSquare_of_bracketWeight (hx c hc)) (by simp [indexes, hrecords, hrecord])
      rw [hmode]
      exact h u w x n c hc hmode hfree hne hw hn hx hclosed
    · exact Keeps.refl _ _ _ _
  · exact Keeps.refl _ _ _ _

/-- The arguments of the call that a subscript becomes. -/
def subscriptArguments (w x : Text) : Text := w ++ ", " ++ (trim x ++ ", 1")

theorem read_subscriptArguments (hnote : SkipsCode note) {w x : Text} (hw : ∀ c ∈ w, isWordChar c = true)
    (hx : Mode.code.after x = .code) {b : α} (h : read note .code a x = some b) :
    read note .code a (subscriptArguments w x) = some b ∧ Mode.code.after (subscriptArguments w x) = .code := by
  obtain ⟨htrim, hafter⟩ := keeps_trim (.inl hx) hnote b h
  rw [hx] at hafter
  have hcomma : ∀ c ∈ w ++ ", ".toList, isQuote c = false ∧ bracketWeight c = 0 :=
    List.forall_mem_append.mpr ⟨fun c hc => plain_of_isWordChar (hw c hc), plain_of_all (by decide)⟩
  have hone := plain_of_all (s := ", 1") (by decide)
  rw [subscriptArguments, read_skipped_append hnote hcomma, read_append_skipped hnote hafter hone, Mode.after_append,
    after_of_no_quote fun c hc => (hcomma c hc).1, Mode.after_append, hafter,
    after_of_no_quote fun c hc => (hone c hc).1]
  exact ⟨htrim, rfl⟩

theorem call_eq_arguments (k w x : Text) : k ++ "(" ++ w ++ ", " ++ trim x ++ ", 1)" =
    k ++ '(' :: (subscriptArguments w x ++ [')']) := by
  simp [subscriptArguments]

include hst in
theorem keeps_stringIndex (hnote : SkipsCode note) (hround : RoundsSquares note) {s : Text}
    (hs : SubscriptsInCode st.indexes s) : Keeps note .code a s (st.stringIndex s) := by
  refine keeps_stringIndex_of hs fun u w x c _ _ _ _ hw hx hclosed b hb => ?_
  obtain ⟨a₁, a₂, hopen, hread, hclose⟩ := read_subscript hnote hw hclosed hb
  obtain ⟨c₁, c₂, hopen', hread', hclose'⟩ := hround c a₁ a₂ b x hx hopen hread hclose
  obtain ⟨harguments, hafter⟩ := read_subscriptArguments hnote hw hclosed hread'
  rw [call_eq_arguments, after_subscript hw hclosed]
  exact read_in_parens hnote (plain_kw hst .substringWord) hopen' harguments hafter hclose'

theorem keeps_fieldAccess (hnote : SkipsCode note) {s : Text} (hs : SubscriptsInCode st.indexes s)
    (hskip : ∀ u w x c b, read note .code a u = some c → Mode.code.after u = .code →
      (∀ c ∈ w, isWordChar c = true) → (∀ c ∈ x, bracketWeight c = 0) → Mode.code.after x = .code →
      read note .code c (w ++ '[' :: (x ++ [']'])) = some b → b = c) :
    Keeps note .code a s (st.fieldAccess s) := by
  refine keeps_fieldAccess_of hs fun u w x n c hc hmode _ _ hw hn hx hclosed b hb => ?_
  obtain rfl := hskip u w x c b hc hmode hw hx hclosed hb
  have hplain : ∀ c ∈ w ++ ".".toList ++ n, isQuote c = false ∧ bracketWeight c = 0 :=
    List.forall_mem_append.mpr ⟨List.forall_mem_append.mpr
      ⟨fun c hc => plain_of_isWordChar (hw c hc), plain_of_all (by decide)⟩, fun c hc => plain_of_isWordChar (hn c hc)⟩
  rw [after_subscript hw hclosed]
  exact ⟨read_of_skipped hnote hplain, after_of_no_quote fun c hc => (hplain c hc).1⟩

theorem subscriptsInCode_fieldAccess {s seen : Text} (h : read (noteBody st.indexes) .code [] s = some seen) :
    SubscriptsInCode st.indexes (st.fieldAccess s) := by
  refine subscriptsInCode_of_read ((keeps_fieldAccess skipsCode_noteBody (subscriptsInCode_of_read h)
    fun u w x c b hc hmode hw _ hclosed hb => ?_) _ h).1
  -- nothing is noted in code
  obtain rfl : c = [] := ((read_noteBody_cases hc).resolve_right fun h => h.1 hmode).2
  exact ((read_noteBody_cases hb).resolve_right fun h => h.1 (after_subscript hw hclosed)).2

/-- What stands between two texts at the ends of a third one. -/
theorem eq_append_of_between? {lead tail s x : Text} (h : between? lead tail s = some x) :
    s = lead ++ (x ++ tail) := by
  obtain ⟨t, ht, hx⟩ := Option.bind_eq_some_iff.mp h
  unfold after? at ht
  unfold before? at hx
  split at ht
  · next hlead =>
    obtain ⟨t', rfl⟩ := List.isPrefixOf_iff_prefix.mp hlead
    obtain rfl : t' = t := by simpa using ht
    split at hx
    · next htail =>
      obtain ⟨x', rfl⟩ := List.isSuffixOf_iff_suffix.mp htail
      obtain rfl : x' = x := by simpa using hx
      rfl
    · cases hx
  · cases ht

include hst in
theorem keeps_concatenate (hnote : SkipsCode note) {s : Text}
    (hs : Mode.code.after s = .code ∨ ∀ c ∈ s.getLast?, isBlank c = false)
    (hdrop : ∀ p ∈ splitTopLevel '+' s,
      (Mode.code.after p = .code ∨ Mode.code.after s ≠ .code ∧ p.getLast? = s.getLast?) →
      ∀ a, Keeps note .code a p (dropConversion p)) : Keeps note .code a s (st.concatenate s) := by
  unfold concatenate
  dsimp only
  split
  · exact Keeps.refl _ _ _ _
  · next hsum =>
    have hne : splitTopLevel '+' s ≠ [] := by
      intro hnil
      simp [hnil] at hsum
    have heq := splitFrom_eq '+' .code 0 s
    have hclosed : ∀ q ∈ ((splitFrom '+' .code 0 s).1 :: (splitFrom '+' .code 0 s).2).dropLast,
        Mode.code.after q = .code := fun q hq => after_of_mem_dropLast hq
    rw [splitTopLevel_of_ne_nil hne] at hdrop ⊢
    generalize splitFrom '+' .code 0 s = r at heq hclosed hdrop
    have hplus : isQuote '+' = false ∧ bracketWeight '+' = 0 := by decide
    have hjoint : ∀ c ∈ " ".toList ++ st.style.concat ++ " ".toList, isQuote c = false ∧ bracketWeight c = 0 := by
      rw [hst]
      refine plain_of_all ?_
      cases d <;> decide
    have hall : Keeps note .code a s
        (join (" ".toList ++ st.style.concat ++ " ".toList) ((r.1 :: r.2).map (dropConversion ∘ trim))) := by
      conv => enter [4]; rw [heq]
      refine keeps_join hnote hplus hjoint r.1 r.2 hclosed fun q hq a => ?_
      have hmem : trim q ∈ (r.1 :: r.2).map trim := List.mem_map_of_mem hq
      have hpiece := after_or_getLast?_of_mem hplus.1 hclosed hq
      rw [← heq] at hpiece
      rcases hpiece with hcode | ⟨hopen, hlast⟩
      · exact (keeps_trim (.inl hcode) hnote).trans
          (hdrop (trim q) hmem (.inl (by rw [after_trim (.inl hcode), hcode])) a)
      · have hend : ∀ c ∈ q.getLast?, isBlank c = false := hlast ▸ hs.resolve_left hopen
        exact (keeps_trim (.inr hend) hnote).trans
          (hdrop (trim q) hmem (.inr ⟨hopen, by rw [getLast?_trim hend, hlast]⟩) a)
    rw [List.map_map]
    exact hall

end Setting

end Pseudocode
