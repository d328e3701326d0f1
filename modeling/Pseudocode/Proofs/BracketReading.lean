import Pseudocode.Proofs.LiteralsKept

/-! # Reading brackets

The brackets outside literals are read with a stack of those that are still due. Interpolated strings and subscripts
are rewritten in the whole text of an expression, and what is due stays the same if the operands that an interpolated
string stands for are well bracketed, and if the subscripts stand in code. -/

namespace Pseudocode

open Text Pattern Interpolation

namespace Text

/-- The closing brackets that are due after one more character of code, innermost first. A closing bracket that
is not the next one due is refused. -/
def dueAfter (due : Text) (c : Char) : Option Text :=
  if c = '(' then some (')' :: due)
  else if c = '[' then some (']' :: due)
  else if c = '{' then some ('}' :: due)
  else if c ∈ [')', ']', '}'] then if due.head? = some c then some due.tail else none
  else some due

/-- The brackets outside literals are properly nested. -/
def Nested (s : Text) : Prop := (unquoted s).foldlM dueAfter [] = some []

instance (s : Text) : Decidable (Nested s) := inferInstanceAs (Decidable (_ = _))

/-- Brackets are nested and literals are closed. -/
structure WellBracketed (s : Text) : Prop where
  nested : Nested s
  closed : ∀ l ∈ literals s, l.closed = true

instance (s : Text) : Decidable (WellBracketed s) :=
  decidable_of_iff (Nested s ∧ ∀ l ∈ literals s, l.closed = true) ⟨fun h => ⟨h.1, h.2⟩, fun h => ⟨h.1, h.2⟩⟩

theorem dueAfter_of_plain {c : Char} (hc : bracketWeight c = 0) (due : Text) : dueAfter due c = some due := by
  have hopen : c ∉ ['(', '[', '{'] := fun h => by simp [bracketWeight, h] at hc
  have hclose : c ∉ [')', ']', '}'] := fun h => by simp [bracketWeight, hopen, h] at hc
  have hne : c ≠ '(' ∧ c ≠ '[' ∧ c ≠ '{' := by simpa using hopen
  simp only [dueAfter, hne, hclose, if_false]

/-- A character opens a pair, closes the innermost one, or is no bracket. -/
theorem dueAfter_cases {due due' : Text} {c : Char} (h : dueAfter due c = some due') :
    (∃ d, (∀ due, dueAfter due c = some (d :: due)) ∧ due' = d :: due ∧ (d = ']' → c = '[')) ∨
      (due = c :: due' ∧ ∀ due, dueAfter (c :: due) c = some due) ∨
      (due' = due ∧ ∀ due, dueAfter due c = some due) := by
  unfold dueAfter at h ⊢
  split at h
  · next hc =>
    obtain rfl := Option.some.inj h
    exact .inl ⟨')', fun _ => if_pos hc, rfl, by simp⟩
  split at h
  · next hc₁ hc =>
    obtain rfl := Option.some.inj h
    exact .inl ⟨']', fun _ => by rw [if_neg hc₁, if_pos hc], rfl, fun _ => hc⟩
  split at h
  · next hc₁ hc₂ hc =>
    obtain rfl := Option.some.inj h
    exact .inl ⟨'}', fun _ => by rw [if_neg hc₁, if_neg hc₂, if_pos hc], rfl, by simp⟩
  split at h
  · next hc₁ hc₂ hc₃ hc =>
    split at h
    · next hhead =>
      obtain rfl := Option.some.inj h
      refine .inr (.inl ⟨(List.cons_head?_tail hhead).symm, fun due => ?_⟩)
      rw [if_neg hc₁, if_neg hc₂, if_neg hc₃, if_pos hc]
      exact if_pos rfl
    · cases h
  · next hc₁ hc₂ hc₃ hc =>
    obtain rfl := Option.some.inj h
    exact .inr (.inr ⟨rfl, fun due => by rw [if_neg hc₁, if_neg hc₂, if_neg hc₃, if_neg hc]⟩)

theorem length_dueAfter {due due' : Text} {c : Char} (h : dueAfter due c = some due') :
    (due'.length : Int) = due.length + bracketWeight c := by
  unfold dueAfter at h
  split at h
  · next hc =>
    obtain rfl := Option.some.inj h
    simp [hc, bracketWeight]
  split at h
  · next hc =>
    obtain rfl := Option.some.inj h
    simp [hc, bracketWeight]
  split at h
  · next hc =>
    obtain rfl := Option.some.inj h
    simp [hc, bracketWeight]
  split at h
  · next hround hsquare hcurly hclose =>
    split at h
    · next hhead =>
      obtain rfl := Option.some.inj h
      obtain ⟨due, rfl⟩ := List.head?_eq_some_iff.mp hhead
      rw [bracketWeight, if_neg (by simp [hround, hsquare, hcurly]), if_pos hclose, List.tail_cons, List.length_cons]
      omega
    · cases h
  · next hround hsquare hcurly hclose =>
    obtain rfl := Option.some.inj h
    rw [bracketWeight, if_neg (by simp [hround, hsquare, hcurly]), if_neg hclose]
    simp

/-! ### Reading brackets -/

/-- Notes the brackets that are due. -/
def noteBracket (due : Text) (x : Char × Role) : Option Text :=
  if x.2 = .code then dueAfter due x.1 else some due

variable {m : Mode} {due due' : Text} {s : Text}

theorem skipsCode_noteBracket : SkipsCode noteBracket := fun due _ hc => dueAfter_of_plain hc due

theorem skipsLiterals_noteBracket : SkipsLiterals noteBracket := fun _ _ hx => if_neg hx

theorem read_noteBracket (m : Mode) (due s : Text) : read noteBracket m due s =
    (((rolesFrom m s).filter (·.2 = .code)).map (·.1)).foldlM dueAfter due := by
  induction s generalizing m due with
  | nil => rfl
  | cons c s ih =>
    rw [read_cons, rolesFrom]
    by_cases hrole : m.role c = .code
    · rw [List.filter_cons_of_pos (by simpa using hrole), List.map_cons, List.foldlM_cons, hrole]
      exact congrArg _ (funext fun b => ih (m.next c) b)
    · rw [List.filter_cons_of_neg (by simpa using hrole), skipsLiterals_noteBracket due _ hrole, Option.bind_some, ih]

theorem nested_iff : Nested s ↔ read noteBracket .code [] s = some [] := by
  rw [read_noteBracket]
  rfl

theorem noteBracket_append_due {x : Char × Role} (h : noteBracket due x = some due') (base : Text) :
    noteBracket (due ++ base) x = some (due' ++ base) := by
  unfold noteBracket at h ⊢
  split at h
  · next hcode =>
    rw [if_pos hcode]
    rcases dueAfter_cases h with ⟨d, hd, rfl, _⟩ | ⟨rfl, hpop⟩ | ⟨rfl, hskip⟩
    · exact hd _
    · exact hpop _
    · exact hskip _
  · next hcode =>
    obtain rfl := Option.some.inj h
    rw [if_neg hcode]

/-- What is due below plays no part. -/
theorem read_append_due (h : read noteBracket m due s = some due') (base : Text) :
    read noteBracket m (due ++ base) s = some (due' ++ base) := by
  induction s generalizing m due with
  | nil =>
    obtain rfl := Option.some.inj h
    rfl
  | cons c s ih =>
    obtain ⟨b, hb, hs⟩ := read_cons_eq_some.mp h
    exact read_cons_eq_some.mpr ⟨b ++ base, noteBracket_append_due hb base, ih hs⟩

theorem read_of_no_bracket (hs : ∀ c ∈ s, bracketWeight c = 0) :
    read noteBracket m due s = some due := by
  induction s generalizing m with
  | nil => rfl
  | cons c s ih =>
    obtain ⟨hc, hs⟩ := List.forall_mem_cons.mp hs
    have hnote : noteBracket due (c, m.role c) = some due := by simp [noteBracket, dueAfter_of_plain hc]
    rw [read_cons, hnote, Option.bind_some, ih hs]

theorem exists_read_above {a a₂ ω : Text} (hs : ∀ c ∈ s, isSquare c = false) (hω : ']' ∉ ω)
    (h : read noteBracket m (ω ++ ']' :: a) s = some a₂) :
    ∃ ω', ']' ∉ ω' ∧ a₂ = ω' ++ ']' :: a ∧
      ∀ base, read noteBracket m (ω ++ base) s = some (ω' ++ base) := by
  induction s generalizing m ω with
  | nil => exact ⟨ω, hω, (Option.some.inj h).symm, fun _ => rfl⟩
  | cons c s ih =>
    obtain ⟨hc, hs⟩ := List.forall_mem_cons.mp hs
    obtain ⟨b, hb, hread⟩ := read_cons_eq_some.mp h
    have hstep : ∃ ω', ']' ∉ ω' ∧ b = ω' ++ ']' :: a ∧
        ∀ base, noteBracket (ω ++ base) (c, m.role c) = some (ω' ++ base) := by
      unfold noteBracket at hb ⊢
      split at hb
      · next hcode =>
        simp only [if_pos hcode]
        rcases dueAfter_cases hb with ⟨d, hd, rfl, hsquare⟩ | ⟨hdue, hpop⟩ | ⟨rfl, hskip⟩
        · refine ⟨d :: ω, ?_, rfl, fun base => hd _⟩
          rintro (hmem | ⟨_, hmem⟩)
          · have hopen : c = '[' := hsquare rfl
            rw [hopen] at hc
            cases hc
          · exact hω hmem
        · cases ω with
          | nil =>
            obtain rfl : ']' = c := (List.cons.inj hdue).1
            cases hc
          | cons d ω =>
            obtain ⟨rfl, rfl⟩ := List.cons.inj hdue
            exact ⟨ω, fun hmem => hω (List.mem_cons_of_mem _ hmem), rfl, fun base => hpop _⟩
        · exact ⟨ω, hω, rfl, fun base => hskip _⟩
      · next hcode =>
        simp only [if_neg hcode]
        exact ⟨ω, hω, (Option.some.inj hb).symm, fun _ => rfl⟩
    obtain ⟨ω₁, hω₁, rfl, hnote⟩ := hstep
    obtain ⟨ω₂, hω₂, heq, hrest⟩ := ih hs hω₁ hread
    refine ⟨ω₂, hω₂, heq, fun base => ?_⟩
    rw [read_cons, hnote base, Option.bind_some, hrest base]

theorem read_between_squares {a a₂ b : Text} (hs : ∀ c ∈ s, isSquare c = false)
    (hread : read noteBracket .code (']' :: a) s = some a₂) (hclose : noteBracket a₂ (']', .code) = some b) :
    b = a ∧ ∀ base, read noteBracket .code base s = some base := by
  obtain ⟨ω, hω, rfl, habove⟩ := exists_read_above (ω := []) hs List.not_mem_nil hread
  cases ω with
  | nil => exact ⟨(Option.some.inj hclose).symm, habove⟩
  | cons d ω =>
    have hd : d ≠ ']' := fun heq => hω (heq ▸ List.mem_cons_self)
    have hrefused : dueAfter (d :: (ω ++ ']' :: a)) ']' = none := by simp [dueAfter, hd]
    rw [noteBracket, if_pos rfl, List.cons_append, hrefused] at hclose
    cases hclose

theorem roundsSquares_noteBracket : RoundsSquares noteBracket := by
  intro a a₁ a₂ b x hx hopen hread hclose
  obtain rfl : ']' :: a = a₁ := Option.some.inj hopen
  obtain ⟨rfl, hbetween⟩ := read_between_squares hx hread hclose
  exact ⟨')' :: b, ')' :: b, rfl, hbetween _, rfl⟩

/-- A well bracketed text can be read whatever is due. -/
theorem WellBracketed.read (h : WellBracketed s) (due : Text) :
    read noteBracket .code due s = some due :=
  read_append_due (nested_iff.mp h.nested) due

theorem WellBracketed.after (h : WellBracketed s) : Mode.code.after s = .code := after_of_closed h.closed

theorem WellBracketed.trim (h : WellBracketed s) : WellBracketed (trim s) where
  nested := by
    rw [nested_iff, read_trim (.inl h.after) skipsCode_noteBracket]
    exact h.read []
  closed := by
    have hsame := read_trim (.inl h.after) Setting.skipsCode_noteQuoted (a := [])
    rw [read_noteQuoted, read_noteQuoted, List.nil_append, List.nil_append] at hsame
    rw [literals_eq_of_quoted (Option.some.inj hsame)]
    exact h.closed

theorem read_join {ps : List Text} (hps : ∀ p ∈ ps, WellBracketed p) {joint : Text}
    (hjoint : ∀ c ∈ joint, isQuote c = false ∧ bracketWeight c = 0) (due : Text) :
    Text.read noteBracket .code due (join joint ps) = some due ∧ Mode.code.after (join joint ps) = .code := by
  induction ps with
  | nil => exact ⟨rfl, rfl⟩
  | cons p ps ih =>
    obtain ⟨hp, hps⟩ := List.forall_mem_cons.mp hps
    cases ps with
    | nil =>
      have hone : join joint [p] = p := List.intercalate_singleton
      rw [hone]
      exact ⟨hp.read due, hp.after⟩
    | cons q ps =>
      obtain ⟨hread, hafter⟩ := ih hps
      rw [join_of_two, Mode.after_append, hp.after, Mode.after_append, after_of_no_quote fun c hc => (hjoint c hc).1,
        read_append, hp.read, Option.bind_some, hp.after, read_skipped_append skipsCode_noteBracket hjoint]
      exact ⟨hread, hafter⟩

theorem read_eq_filter (hs : ∀ c ∈ s, isQuote c = false) :
    Text.read noteBracket .code due s = (s.filter (bracketWeight · != 0)).foldlM dueAfter due := by
  rw [read_noteBracket, rolesFrom_of_no_quote hs]
  have hall : ((s.map (·, Role.code)).filter (·.2 = .code)).map (·.1) = s := by
    rw [List.filter_eq_self.mpr (by simp), List.map_map]
    exact List.map_id s
  rw [hall]
  clear hs hall
  induction s generalizing due with
  | nil => rfl
  | cons c s ih =>
    by_cases hc : bracketWeight c = 0
    · rw [List.filter_cons_of_neg (by simp [hc]), List.foldlM_cons, dueAfter_of_plain hc due]
      exact ih
    · rw [List.filter_cons_of_pos (by simpa using hc), List.foldlM_cons, List.foldlM_cons]
      exact congrArg _ (funext fun b => ih)

end Text

/-! ### Interpolated strings -/

/-- An interpolated string of a text, the text before it and its body. -/
def Interpolates (s u t body : Text) : Prop :=
  ∃ q v, isQuote q = true ∧ q ∉ body ∧ t = 'f' :: q :: (body ++ [q]) ∧ s = u ++ (t ++ v) ∧
    ∀ c ∈ u.getLast?, isWordChar c = false

private theorem reads_enclosed {q t : Text} {cls : Char → Bool} {i : Nat} {g : Groups}
    (h : Reads (.text q ++ .group i (.most cls) ++ .text q) t g) :
    ∃ body, t = q ++ body ++ q ∧ (∀ c ∈ body, cls c = true) ∧ g = [(i, body)] := by
  obtain ⟨_, _, _, _, rfl, rfl, h, hclose⟩ := reads_append.mp h
  obtain ⟨_, body, _, _, rfl, rfl, hopen, hbody⟩ := reads_append.mp h
  obtain ⟨rfl, rfl⟩ := reads_text.mp hopen
  obtain ⟨rfl, rfl⟩ := reads_text.mp hclose
  obtain ⟨_, rfl, hmost⟩ := reads_group.mp hbody
  obtain ⟨hcls, rfl⟩ := reads_most.mp hmost
  exact ⟨body, rfl, hcls, rfl⟩

theorem interpolates_of_way {u t v : Text} {g : Groups} (h : Way interpolated u.reverse t v g) :
    ∃ body, Interpolates (u ++ (t ++ v)) u t body ∧
      (Match.group? ⟨u.reverse, t, g⟩ 1 <|> Match.group? ⟨u.reverse, t, g⟩ 2).getD [] = body := by
  obtain ⟨t₁, t₂, g₁, g₂, rfl, rfl, h₁, h₂⟩ := way_append.mp h
  obtain ⟨t₃, t₄, g₃, g₄, rfl, rfl, hedge, hf⟩ := way_append.mp h₁
  obtain ⟨rfl, rfl, hisEdge⟩ := way_wordEdge.mp hedge
  obtain ⟨rfl, rfl⟩ := way_text.mp hf
  have hlast : ∀ c ∈ u.getLast?, isWordChar c = false := by
    intro c hc
    have hseen : u.reverse.head?.any isWordChar = false := by
      have hf : isWordChar 'f' = true := by decide
      simpa [isWordEdge, hf] using hisEdge
    rw [List.head?_reverse, Option.mem_def.mp hc] at hseen
    exact hseen
  rcases reads_either.mp h₂.reads with h₂ | h₂
  · obtain ⟨body, rfl, hbody, rfl⟩ := reads_enclosed h₂
    refine ⟨body, ⟨'"', v, by decide, fun hmem => ?_, by simp, rfl, hlast⟩, rfl⟩
    exact absurd (hbody _ hmem) (by decide)
  · obtain ⟨body, rfl, hbody, rfl⟩ := reads_enclosed h₂
    refine ⟨body, ⟨'\'', v, by decide, fun hmem => ?_, by simp, rfl, hlast⟩, rfl⟩
    exact absurd (hbody _ hmem) (by decide)

private theorem Text.role_of_not_mem {q : Char} {m : Mode} (hm : m = .literal q ∨ m = .escaped q) {s : Text}
    (hs : q ∉ s) :
    (∀ x ∈ rolesFrom m s, x.2 = .body) ∧ (m.after s = .literal q ∨ m.after s = .escaped q) := by
  induction s generalizing m with
  | nil => exact ⟨List.forall_mem_nil _, hm⟩
  | cons c s ih =>
    obtain ⟨hc, hs⟩ : c ≠ q ∧ q ∉ s := by simpa [eq_comm] using hs
    have hstep : m.role c = .body ∧ (m.next c = .literal q ∨ m.next c = .escaped q) := by
      rcases hm with rfl | rfl
      · refine ⟨if_neg hc, ?_⟩
        by_cases hback : c = '\\' <;> simp [Mode.next, hback, hc]
      · exact ⟨rfl, .inl rfl⟩
    obtain ⟨hroles, hafter⟩ := ih hstep.2 hs
    exact ⟨List.forall_mem_cons.mpr ⟨hstep.1, hroles⟩, hafter⟩

private theorem Text.Literal.sound_of_not_mem {q : Char} {body : Text} (hq : isQuote q = true) (hbody : q ∉ body)
    (hafter : Mode.code.after (q :: (body ++ [q])) = .code) : Literal.Sound ⟨q, body, true⟩ := by
  obtain ⟨hroles, hmode⟩ := role_of_not_mem (.inl rfl) hbody
  have hopen : Mode.code.next q = .literal q := by simp [Mode.next, hq]
  rw [Mode.after_cons, hopen, Mode.after_append] at hafter
  refine ⟨hq, hroles, fun _ => hmode.resolve_right fun hescaped => ?_⟩
  rw [hescaped] at hafter
  cases hafter

/-- A piece of an interpolated string is well bracketed, a field without its conversion and format. -/
def Interpolation.Piece.IsWellBracketed : Piece → Prop
  | .literal s => WellBracketed ("\"" ++ s ++ "\"")
  | .field s => WellBracketed (s.takeWhile (noneOf "!:"))

instance : DecidablePred Piece.IsWellBracketed
  | .literal s => inferInstanceAs (Decidable (WellBracketed ("\"" ++ s ++ "\"")))
  | .field s => inferInstanceAs (Decidable (WellBracketed (s.takeWhile (noneOf "!:"))))

private theorem wellBracketed_of_mem_operands {body p : Text} (h : ∀ q ∈ piecesFrom false body, q.IsWellBracketed)
    (hp : p ∈ operands body) : WellBracketed p := by
  obtain ⟨q, hq, hoperand⟩ := List.mem_filterMap.mp hp
  have hwell := h q hq
  cases q with
  | literal s =>
    obtain rfl := Option.some.inj hoperand
    exact hwell
  | field s =>
    unfold Piece.operand? at hoperand
    dsimp only at hoperand
    split at hoperand
    · cases hoperand
    · obtain rfl := Option.some.inj hoperand
      exact WellBracketed.trim hwell

theorem keeps_expand {due s : Text}
    (hs : ∀ u t body, Interpolates s u t body →
      Mode.code.after u = .code ∧ Mode.code.after t = .code ∧ ∀ q ∈ piecesFrom false body, q.IsWellBracketed) :
    Keeps noteBracket .code due s (expand s) := by
  refine keeps_replace fun u t v g c hsplit hway _ => ?_
  obtain ⟨body, hbody, hgroup⟩ := interpolates_of_way hway
  rw [← hsplit] at hbody
  obtain ⟨hbefore, hclosed, hpieces⟩ := hs u t body hbody
  obtain ⟨q, _, hq, hquote, rfl, _, _⟩ := hbody
  have hread : read noteBracket .code c ('f' :: q :: (body ++ [q])) = some c := by
    rw [read_cons_code (by decide)]
    exact read_literal skipsLiterals_noteBracket (Literal.sound_of_not_mem hq hquote hclosed)
  intro b hb
  rw [hbefore, hread] at hb
  obtain rfl := Option.some.inj hb
  rw [hgroup, hbefore, hclosed]
  unfold concatenation
  split
  · exact ⟨rfl, rfl⟩
  · exact read_join (fun _ => wellBracketed_of_mem_operands hpieces) (plain_of_all (by decide)) c

/-! ### Expressions -/

namespace Setting

variable {due : Text} {st : Setting} {d : Dialect} (hst : st.style = d.style)

/-- Whether subscripts of names that are used as records are rewritten. -/
def IndexesRecords (st : Setting) : Prop :=
  st.style.records = true ∧ ∃ p, st.symbols.survey.records.has p = true

private theorem fieldAccess_of_not {s : Text} (h : ¬ st.IndexesRecords) : st.fieldAccess s = s := by
  unfold fieldAccess
  split
  · next hstyle =>
    have hrecords : st.style.records = true := (Bool.and_eq_true_iff.mp hstyle).1
    exact replace_of_text (fun m => if_neg fun hname => h ⟨hrecords, _, hname⟩) s
  · rfl

/-- The text of an expression with its subscripts rewritten. -/
def subscripted (st : Setting) (e : Text) : Text := st.stringIndex (st.fieldAccess (expand (trim e)))

/-- Subscripts stay in code, or are not rewritten at all. -/
theorem subscripts_cases {s : Text}
    (h : st.IndexesRecords ∨ st.IndexesStrings → ∀ l ∈ literals s, l.Unsubscripted st.indexes) :
    SubscriptsInCode st.indexes s ∧ SubscriptsInCode st.indexes (st.fieldAccess s) ∨
      st.stringIndex (st.fieldAccess s) = s := by
  by_cases hindexes : st.IndexesRecords ∨ st.IndexesStrings
  · obtain ⟨seen, hread⟩ := exists_read_of_unsubscripted (h hindexes)
    exact .inl ⟨subscriptsInCode_of_read hread, subscriptsInCode_fieldAccess hread⟩
  · obtain ⟨hrecords, hstrings⟩ := not_or.mp hindexes
    rw [fieldAccess_of_not hrecords, stringIndex_of_not hstrings]
    exact .inr rfl

/-- A subscript in code leaves what is due. -/
theorem eq_of_read_subscript {w x due' : Text} (hw : ∀ c ∈ w, isWordChar c = true) (hx : ∀ c ∈ x, isSquare c = false)
    (hclosed : Mode.code.after x = .code) (h : read noteBracket .code due (w ++ '[' :: (x ++ [']'])) = some due') :
    due' = due ∧ read noteBracket .code [] x = some [] := by
  obtain ⟨a₁, a₂, hopen, hread, hclose⟩ := read_subscript skipsCode_noteBracket hw hclosed h
  obtain rfl : ']' :: due = a₁ := Option.some.inj hopen
  obtain ⟨heq, hbetween⟩ := read_between_squares hx hread hclose
  exact ⟨heq, hbetween []⟩

include hst in
theorem keeps_subscripts {s : Text}
    (h : st.IndexesRecords ∨ st.IndexesStrings → ∀ l ∈ literals s, l.Unsubscripted st.indexes) :
    Keeps noteBracket .code due s (st.stringIndex (st.fieldAccess s)) := by
  rcases subscripts_cases h with ⟨hrecords, hstrings⟩ | hnone
  · refine (keeps_fieldAccess skipsCode_noteBracket hrecords fun u w x c b _ _ hw hx hclosed hb => ?_).trans
      (keeps_stringIndex hst skipsCode_noteBracket roundsSquares_noteBracket hstrings)
    exact (eq_of_read_subscript hw (fun c hc => isSquare_of_bracketWeight (hx c hc)) hclosed hb).1
  · rw [hnone]
    exact Keeps.refl _ _ _ _

theorem keeps_dropConversion_of_nested {p : Text}
    (hp : ∀ x ∈ between? "str(" ")" p, Nested x ∧ Mode.code.after x = .code) :
    Keeps noteBracket .code due p (dropConversion p) := by
  unfold dropConversion
  split
  · next x hx =>
    split
    · obtain ⟨hnested, hafter⟩ := hp x hx
      have hinner (due : Text) : read noteBracket .code due x = some due := read_append_due (nested_iff.mp hnested) due
      rw [eq_append_of_between? hx]
      intro b hb
      have hlead : ∀ c ∈ "str".toList, isQuote c = false ∧ bracketWeight c = 0 := plain_of_all (by decide)
      have hcall := read_in_parens skipsCode_noteBracket hlead (a := due) rfl (hinner (')' :: due)) hafter rfl
      have htext : "str(".toList ++ (x ++ ")".toList) = "str".toList ++ '(' :: (x ++ [')']) := rfl
      rw [htext, hcall.1] at hb
      obtain rfl := Option.some.inj hb
      rw [htext, hcall.2]
      exact ⟨hinner due, hafter⟩
    · exact Keeps.refl _ _ _ _
  · exact Keeps.refl _ _ _ _

include hst in
theorem keeps_respellCode (hpython : st.isPython = true) {u : Text} (hu : ∀ c ∈ u, isQuote c = false) :
    Keeps noteBracket .code due u (st.respellCode u) := by
  have hquotes := no_quote_respellCode hst hu
  have hbrackets : (st.respellCode u).filter (bracketWeight · != 0) = u.filter (bracketWeight · != 0) := by
    refine filter_respellCode hst (fun c hc => ?_) hpython u
    by_contra hmem
    simp [(plain_of_not_mem hmem).2] at hc
  intro b hb
  rw [read_eq_filter hu] at hb
  rw [read_eq_filter hquotes, hbrackets, after_of_no_quote hquotes, after_of_no_quote hu]
  exact ⟨hb, rfl⟩

end Setting

end Pseudocode
