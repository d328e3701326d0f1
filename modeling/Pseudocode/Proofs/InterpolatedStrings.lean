import Pseudocode.Proofs.SeparatedParts
import Pseudocode.Proofs.SubscriptedOperands

/-! # Interpolated strings become concatenations

An interpolated string is written with literal text and fields in turn. It is expanded to a sum, the sum is split
again, and its operands are joined by the sign of the dialect. Each operand is the text of one piece if no field
has a sum of its own, loses a conversion, or lets an operator or a bracket reach beyond it. -/

namespace Pseudocode

open Text Pattern Interpolation

theorem Text.trim_enclosed {c d : Char} (hc : isBlank c = false) (hd : isBlank d = false) (s : Text) :
    trim (c :: (s ++ [d])) = c :: (s ++ [d]) := by
  refine trim_of_ends ?_ ?_
  · rintro e ⟨⟩
    exact hc
  · rw [← List.cons_append, List.getLast?_concat]
    rintro e ⟨⟩
    exact hd

/-! ### Splitting a sum -/

namespace Setting

theorem splitFrom_of_depth {t : Text} {n n' : Int} (h : depth n t = some n') (s : Text) :
    splitFrom '+' .code n (t ++ s) = (t ++ (splitFrom '+' .code n' s).1, (splitFrom '+' .code n' s).2) := by
  induction t generalizing n with
  | nil =>
    obtain rfl := Option.some.inj h
    rfl
  | cons c t ih =>
    obtain ⟨m, hm, ht⟩ := Option.bind_eq_some_iff.mp h
    unfold operandDepthAfter at hm
    split at hm
    · cases hm
    · next hc =>
      obtain rfl := Option.some.inj hm
      simp only [Bool.or_eq_true, Bool.and_eq_true, not_or, not_and, Bool.not_eq_true] at hc
      have hcode := code_of_no_quote hc.1
      have hplus : (Mode.code.role c = .code && bracketWeight c == 0 && c == '+' && n == 0) = false := by
        cases hplus : c == '+' with
        | false => simp
        | true => simp [hc.2 hplus]
      rw [List.cons_append, splitFrom, hplus, Mode.weight, if_pos hcode.1, hcode.2, ih ht]
      rfl

theorem splitFrom_literal {l : Text} (hquote : '"' ∉ l) (hback : '\\' ∉ l) (n : Int) (s : Text) :
    splitFrom '+' .code n (quoted l ++ s) =
      (quoted l ++ (splitFrom '+' .code n s).1, (splitFrom '+' .code n s).2) := by
  have hsound : Literal.Sound ⟨'"', l, true⟩ := (Literal.Written.closed rfl (body_of_plain hquote hback)).sound
  have hmarks := hsound.marksFrom_text
  have hnone : outside ((quoted l).map (·, false)) = [] := by simp [outside]
  have hcovered (i : Nat) (hi : (marksFrom .code (quoted l))[i]? = some ('+', true)) :
      n + net true (outside ((marksFrom .code (quoted l)).take i)) ≠ 0 := by
    simp [hmarks] at hi
  have hscan := splitFrom_of_covered hcovered s
  rwa [hsound.after_text rfl, hmarks, hnone, net_nil, Int.add_zero] at hscan

theorem depth_of_splitFrom {t due due' : Text} (hquotes : ∀ c ∈ t, isQuote c = false)
    (hnested : t.foldlM dueAfter due = some due') (hsplit : (splitFrom '+' .code due.length t).2 = []) :
    depth due.length t = some (due'.length : Int) := by
  induction t generalizing due with
  | nil =>
    obtain rfl := Option.some.inj hnested
    rfl
  | cons c t ih =>
    obtain ⟨hc, hquotes⟩ := List.forall_mem_cons.mp hquotes
    obtain ⟨due₁, hdue, hnested⟩ := Option.bind_eq_some_iff.mp hnested
    have hcode := code_of_no_quote hc
    rw [splitFrom] at hsplit
    split at hsplit
    · cases hsplit
    · next hplus =>
      rw [Mode.weight, if_pos hcode.1, hcode.2, ← length_dueAfter hdue] at hsplit
      have hstep : operandDepthAfter due.length c = some (due₁.length : Int) := by
        rw [length_dueAfter hdue, operandDepthAfter, if_neg]
        intro h
        simp only [hc, Bool.false_or, Bool.and_eq_true, beq_iff_eq] at h
        obtain ⟨rfl, hdepth⟩ := h
        exact hplus (by simp [hcode.1, bracketWeight, hdepth])
      rw [depth_cons, hstep]
      exact ih hquotes hnested hsplit

/-- A text that is passed over where a sum is split. -/
def Undivided (t : Text) : Prop :=
  ∀ s, splitFrom '+' .code 0 (t ++ s) = (t ++ (splitFrom '+' .code 0 s).1, (splitFrom '+' .code 0 s).2)

private theorem exists_padded_join (o : Char) (t : Text) (ts : List Text) :
    ∃ padded, join (joint o) (t :: ts) = join [o] padded ∧ List.Forall₂ Padded (t :: ts) padded := by
  -- every operand but the first one has a space before it when the induction comes to it
  have hpadded (b : Text) (hb : ∀ c ∈ b, isBlank c = true) : ∃ q qs,
      b ++ join (joint o) (t :: ts) = join [o] (q :: qs) ∧ List.Forall₂ Padded (t :: ts) (q :: qs) := by
    induction ts generalizing t b with
    | nil => exact ⟨b ++ (t ++ []), [], by simp [join], .cons (.mk hb (List.forall_mem_nil _)) .nil⟩
    | cons t' ts ih =>
      have hspace : ∀ c ∈ [' '], isBlank c = true := List.forall_mem_singleton.mpr (by decide)
      obtain ⟨q, qs, hjoin, hrest⟩ := ih t' [' '] hspace
      refine ⟨b ++ (t ++ [' ']), q :: qs, ?_, .cons (.mk hb hspace) hrest⟩
      rw [join_of_two, join_of_two, ← hjoin]
      simp [joint]
  obtain ⟨q, qs, hjoin, hrest⟩ := hpadded [] (List.forall_mem_nil _)
  exact ⟨q :: qs, hjoin, hrest⟩

theorem splitTopLevel_sum {t : Text} {ts : List Text}
    (hts : ∀ t' ∈ t :: ts, Undivided t' ∧ trim t' = t' ∧ t' ≠ []) :
    splitTopLevel '+' (join (joint '+') (t :: ts)) = t :: ts := by
  obtain ⟨padded, hjoin, hpadded⟩ := exists_padded_join '+' t ts
  have hsome : t :: ts ≠ [[]] := fun h => (hts t List.mem_cons_self).2.2 (List.cons.inj h).1
  rw [hjoin]
  exact splitTopLevel_of_padded (by decide) (by decide) (by decide) (fun u hu => ⟨(hts u hu).1, (hts u hu).2.1⟩)
    hpadded (List.cons_ne_nil t ts) hsome

theorem concatenate_sum (st : Setting) {ts : List Text} (hts : ∀ t ∈ ts, Undivided t ∧ trim t = t ∧ t ≠ [])
    (hdrop : ∀ t ∈ ts, dropConversion t = t) (hstring : ∃ t ∈ ts, st.isStringOperand t = true) :
    st.concatenate (join (joint '+') ts) = join (" " ++ st.style.concat ++ " ") ts := by
  obtain ⟨u, hu, hstring⟩ := hstring
  cases ts with
  | nil => cases hu
  | cons t ts =>
    have hsplit := splitTopLevel_sum hts
    have hempty : (t :: ts).any List.isEmpty = false := by
      refine List.any_eq_false.mpr fun t ht => ?_
      simpa using (hts t ht).2.2
    unfold concatenate
    dsimp only
    rw [hsplit, hempty, List.any_eq_true.mpr ⟨u, hu, hstring⟩, List.map_congr_left hdrop, List.map_id']
    split
    · next hone =>
      have hlength : ts.length + 1 < 2 := by simpa using hone
      obtain rfl : ts = [] := List.eq_nil_of_length_eq_zero (by omega)
      rw [join, join, List.intercalate_singleton, List.intercalate_singleton]
    · rfl

end Setting

/-! ### Code between literals -/

theorem Text.mapCode_literal {l : Text} (hquote : '"' ∉ l) (hback : '\\' ∉ l) {u : Text}
    (hu : ∀ c ∈ u, isQuote c = false) (f : Text → Text) (s : Text) :
    mapCode true f (u ++ (quoted l ++ s)) = f u ++ (quoted l ++ mapCode true f s) := by
  have hcut : SegmentRun.cut .code (quoted l ++ s) =
      ⟨[], false, [], (⟨'"', l, true⟩, (SegmentRun.cut .code s).run) :: (SegmentRun.cut .code s).rest⟩ :=
    SegmentRun.cut_closed (Literal.Written.closed rfl (body_of_plain hquote hback)).sound rfl s
  rw [mapCode_eq, mapCode_eq, segments, segments, SegmentRun.cut_code hu, hcut]
  simp [mappedRest, Literal.requoted, Literal.doubleQuoted]

/-! ### Templates -/

namespace Interpolation

/-- A brace of literal text is written twice. -/
def doubled (s : Text) : Text := s.flatMap fun c => if c = '{' ∨ c = '}' then [c, c] else [c]

/-- Literal text, then each field with the literal text after it. -/
structure Template where
  lead : Text
  rest : List (Text × Text)

namespace Template

def body (t : Template) : Text := doubled t.lead ++ t.rest.flatMap fun x => '{' :: (x.1 ++ '}' :: doubled x.2)

/-- The template as an interpolated string. -/
def text (t : Template) : Text := 'f' :: quoted t.body

def pieces (t : Template) : List Piece :=
  .literal t.lead :: t.rest.flatMap fun x => [.field x.1, .literal x.2]

end Template

namespace Piece

/-- Literal text has no double quote and no backslash, and a field has no brace, format, conversion or quote. -/
def Plain : Piece → Prop
  | .literal s => '"' ∉ s ∧ '\\' ∉ s
  | .field s => ∀ c ∈ s, c ∉ ['{', '}', '!', ':', '"', '\'']

instance : DecidablePred Plain
  | .literal s => inferInstanceAs (Decidable ('"' ∉ s ∧ '\\' ∉ s))
  | .field s => List.decidableBAll _ s

/-- Whether a piece has no text but white space in a field. -/
def isBlank : Piece → Bool
  | .literal s => s.isEmpty
  | .field s => (trim s).isEmpty

/-- The operand of the sum. -/
def code : Piece → Text
  | .literal s => quoted s
  | .field s => trim s

end Piece

theorem piecesFrom_doubled (l r : Text) :
    piecesFrom false (doubled l ++ r) = l.foldr consLiteral (piecesFrom false r) := by
  induction l with
  | nil => rfl
  | cons c l ih =>
    rw [List.foldr_cons, ← ih, doubled, List.flatMap_cons, List.append_assoc, ← doubled]
    by_cases hopen : c = '{'
    · subst hopen
      rfl
    by_cases hclose : c = '}'
    · subst hclose
      rfl
    rw [if_neg (by simp [hopen, hclose])]
    simp [piecesFrom, hopen, hclose]

theorem piecesFrom_field {f : Text} (hf : '{' ∉ f ∧ '}' ∉ f) (r : Text) :
    piecesFrom false ('{' :: (f ++ '}' :: r)) = .field f :: piecesFrom false r := by
  have hstep (c : Char) (s : Text) : piecesFrom true (c :: s) =
      if c = '}' then .field [] :: piecesFrom false s else consField c (piecesFrom true s) := by
    conv_lhs => unfold piecesFrom
    rw [if_pos rfl]
  have hinside : piecesFrom true (f ++ '}' :: r) = .field f :: piecesFrom false r := by
    obtain ⟨-, hclose⟩ := hf
    induction f with
    | nil => exact hstep '}' r
    | cons c f ih =>
      obtain ⟨hc, hclose⟩ : c ≠ '}' ∧ '}' ∉ f := by simpa [eq_comm] using hclose
      rw [List.cons_append, hstep, if_neg hc, ih hclose]
      rfl
  rw [← hinside]
  cases f with
  | nil => rfl
  | cons c f =>
    have hc : c ≠ '{' := fun heq => hf.1 (heq ▸ List.mem_cons_self)
    simp [piecesFrom, hc]

/-- Literal text is put together in front of a field or the end. -/
theorem foldr_consLiteral (l : Text) {ps : List Piece} (hps : ∀ s ps', ps ≠ .literal s :: ps') :
    l.foldr consLiteral ps = if l = [] then ps else .literal l :: ps := by
  induction l with
  | nil => rfl
  | cons c l ih =>
    rw [List.foldr_cons, ih, if_neg (List.cons_ne_nil c l)]
    cases l with
    | nil =>
      rw [if_pos rfl, consLiteral]
      exact fun s ps' h => hps s ps' h
    | cons => rfl

theorem piecesFrom_body {t : Template} (ht : ∀ p ∈ t.pieces, p.Plain) :
    piecesFrom false t.body = t.pieces.filter (· ≠ .literal []) := by
  obtain ⟨l, rest⟩ := t
  let source (x : Text × Text) : Text := '{' :: (x.1 ++ '}' :: doubled x.2)
  let parts (x : Text × Text) : List Piece := [.field x.1, .literal x.2]
  have hliteral (l : Text) (rest : List (Text × Text))
      (hrest : piecesFrom false (rest.flatMap source) = (rest.flatMap parts).filter (· ≠ .literal [])) :
      piecesFrom false (doubled l ++ rest.flatMap source) =
        (.literal l :: rest.flatMap parts).filter (· ≠ .literal []) := by
    have hfirst : ∀ s ps, (rest.flatMap parts).filter (· ≠ .literal []) ≠ .literal s :: ps := by
      cases rest <;> simp [parts]
    rw [piecesFrom_doubled, hrest, foldr_consLiteral l hfirst, List.filter_cons]
    by_cases hl : l = [] <;> simp [hl]
  have hfields : ∀ x ∈ rest, '{' ∉ x.1 ∧ '}' ∉ x.1 := by
    intro x hx
    have hmem : Piece.field x.1 ∈ rest.flatMap parts := List.mem_flatMap.mpr ⟨x, hx, List.mem_cons_self⟩
    have hplain : (Piece.field x.1).Plain := ht _ (List.mem_cons_of_mem _ hmem)
    exact ⟨fun h => hplain _ h (by decide), fun h => hplain _ h (by decide)⟩
  refine hliteral l rest ?_
  clear ht
  induction rest with
  | nil => simp [piecesFrom]
  | cons x rest ih =>
    obtain ⟨hx, hfields⟩ := List.forall_mem_cons.mp hfields
    have hnext := hliteral x.2 rest (ih hfields)
    rw [List.flatMap_cons, List.cons_append, List.append_assoc, List.cons_append, piecesFrom_field hx, hnext]
    rfl

private theorem Piece.operand?_eq {p : Piece} (hp : p.Plain) (hne : p ≠ .literal []) :
    p.operand? = if p.isBlank then none else some p.code := by
  cases p with
  | literal s =>
    have hs : s.isEmpty = false := by simpa using hne
    simp [Piece.operand?, Piece.isBlank, Piece.code, hs, Literal.text]
  | field s =>
    have hwhole : s.takeWhile (noneOf "!:") = s := by
      refine List.takeWhile_eq_self_iff.mpr fun c hc => ?_
      have hc := hp c hc
      simp_all [noneOf]
    rw [Piece.operand?, hwhole, Piece.isBlank, Piece.code]
    cases trim s <;> rfl

private theorem filterMap_operand? {ps : List Piece} (hps : ∀ p ∈ ps, p.Plain) :
    (ps.filter (· ≠ .literal [])).filterMap Piece.operand? = (ps.filter (!·.isBlank)).map Piece.code := by
  induction ps with
  | nil => rfl
  | cons p ps ih =>
    obtain ⟨hp, hrest⟩ := List.forall_mem_cons.mp hps
    by_cases hne : p = .literal []
    · subst hne
      exact ih hrest
    · rw [List.filter_cons_of_pos (by simpa using hne), List.filterMap_cons, Piece.operand?_eq hp hne,
        List.filter_cons, ih hrest]
      cases p.isBlank <;> rfl

private theorem mem_doubled {c : Char} {s : Text} (h : c ∈ doubled s) : c ∈ s := by
  obtain ⟨d, hd, hc⟩ := List.mem_flatMap.mp h
  split at hc
  · obtain rfl : c = d := by simpa using hc
    exact hd
  · obtain rfl : c = d := by simpa using hc
    exact hd

private theorem quote_notMem_body {t : Template} (ht : ∀ p ∈ t.pieces, p.Plain) : '"' ∉ t.body := by
  intro h
  rcases List.mem_append.mp h with h | h
  · exact (ht (.literal t.lead) List.mem_cons_self).1 (mem_doubled h)
  obtain ⟨x, hx, h⟩ := List.mem_flatMap.mp h
  have hpiece (p : Piece) (hp : p ∈ [Piece.field x.1, .literal x.2]) : p.Plain :=
    ht p (List.mem_cons_of_mem _ (List.mem_flatMap.mpr ⟨x, hx, hp⟩))
  rcases (by simpa using h : '"' ∈ x.1 ∨ '"' ∈ doubled x.2) with h | h
  · exact hpiece (.field x.1) (by simp) _ h (by decide)
  · exact (hpiece (.literal x.2) (by simp)).1 (mem_doubled h)

private theorem expand_whole {body : Text} (hbody : '"' ∉ body) :
    expand ('f' :: quoted body) = concatenation body := by
  have hclass : ∀ c ∈ body, noneOf "\"" c = true := by
    intro c hc
    have hne : c ≠ '"' := fun heq => hbody (heq ▸ hc)
    simp [noneOf, hne]
  have hway : Way interpolated [] (([] ++ ['f']) ++ (['"'] ++ body ++ ['"'])) [] ([] ++ ([(1, body)] ++ []) ++ []) :=
    .seq (.seq (.wordEdge rfl) .text) (.left (.seq (.seq .text (.group (.most hclass))) .text))
  obtain ⟨m, hm⟩ := exists_at? hway
  have hseen : (([] ++ ['f']) ++ (['"'] ++ body ++ ['"'])) ++ [] = 'f' :: quoted body := by
    simp [Literal.text]
  rw [hseen] at hm
  obtain ⟨r, hr, hmatch, -⟩ := way_of_at? hm
  obtain ⟨body', ⟨q, _, hq, hbody', htext, -⟩, hgroup⟩ := interpolates_of_way (u := []) hmatch
  dsimp only at hr
  obtain ⟨rfl, htail⟩ : '"' = q ∧ body ++ '"' :: [] = body' ++ q :: r := by
    simpa [htext, Literal.text] using hr
  obtain ⟨rfl, rfl⟩ := eq_of_first hbody hbody' htail
  have hne : m.text ≠ [] := by simp [htext]
  rw [expand, replace, hr, replaceFrom_of_match (hr ▸ hm) rfl hne, replaceFrom_nil, List.append_nil]
  exact congrArg concatenation hgroup

theorem Template.trim_text (t : Template) : trim t.text = t.text :=
  trim_enclosed (c := 'f') (d := '"') (by decide) (by decide) ('"' :: t.body)

theorem expand_text {t : Template} (ht : ∀ p ∈ t.pieces, p.Plain) (hsome : ∃ p ∈ t.pieces, p.isBlank = false) :
    expand t.text = join (joint '+') ((t.pieces.filter (!·.isBlank)).map Piece.code) := by
  have hoperands : operands t.body = (t.pieces.filter (!·.isBlank)).map Piece.code := by
    rw [operands, piecesFrom_body ht, filterMap_operand? ht]
  have hne : (t.pieces.filter (!·.isBlank)).map Piece.code ≠ [] := by
    obtain ⟨p, hp, hblank⟩ := hsome
    exact List.ne_nil_of_mem (List.mem_map_of_mem (List.mem_filter.mpr ⟨hp, by simp [hblank]⟩))
  rw [Template.text, expand_whole (quote_notMem_body ht), concatenation, hoperands]
  split
  · next hnil => exact absurd hnil hne
  · rfl

end Interpolation

/-! ### Pieces and operands -/

namespace Setting

/-- A field that stays one operand: nested, no sum, with neither an operator at its ends nor a conversion that is
dropped from it. -/
structure OneOperand (st : Setting) (e : Text) : Prop where
  nested : Nested e
  undivided : splitTopLevel '+' e = [e]
  edged : Edged e
  unconverted : dropConversion (st.stringIndex e) = st.stringIndex e

instance (st : Setting) (e : Text) : Decidable (st.OneOperand e) :=
  decidable_of_iff (Nested e ∧ splitTopLevel '+' e = [e] ∧ Edged e ∧
    dropConversion (st.stringIndex e) = st.stringIndex e)
    ⟨fun h => ⟨h.1, h.2.1, h.2.2.1, h.2.2.2⟩, fun h => ⟨h.nested, h.undivided, h.edged, h.unconverted⟩⟩

/-- A piece that becomes one operand. No subscript in literal text may be rewritten. -/
def Separates (st : Setting) : Piece → Prop
  | .literal s => ∀ n ∈ subscriptedWords [] s, st.indexes n = false
  | .field s => st.OneOperand (trim s)

instance (st : Setting) : DecidablePred st.Separates
  | .literal s => List.decidableBAll _ (subscriptedWords [] s)
  | .field s => inferInstanceAs (Decidable (st.OneOperand (trim s)))

/-- The operand that a piece is expected to become: quoted text, or the spelling of the field on its own. -/
def operand (st : Setting) : Piece → Text
  | .literal s => quoted s
  | .field s => st.expr s

variable {st : Setting} {d : Dialect} (hst : st.style = d.style)

theorem isQuote_field {s : Text} (h : (Piece.field s).Plain) : ∀ c ∈ trim s, isQuote c = false := by
  intro c hc
  have hplain := h c ((Arithmetic.isInfix_trim s).subset hc)
  simp_all [isQuote]

theorem OneOperand.depth {e : Text} (h : st.OneOperand e) (hquotes : ∀ c ∈ e, isQuote c = false) :
    depth 0 e = some 0 := by
  have hnested : e.foldlM dueAfter [] = some [] := by
    have hall : unquoted e = e := by
      rw [unquoted, roles, rolesFrom_of_no_quote hquotes, List.filter_eq_self.mpr (by simp), List.map_map]
      exact List.map_id e
    exact hall ▸ h.nested
  refine depth_of_splitFrom hquotes hnested ?_
  have hpieces := splitTopLevel_of_ne_nil (h.undivided ▸ List.cons_ne_nil e [])
  rw [h.undivided] at hpieces
  simpa using (List.cons.inj hpieces).2.symm

theorem trim_quoted (s : Text) : trim (quoted s) = quoted s :=
  trim_enclosed (c := '"') (d := '"') (by decide) (by decide) s

theorem isStringOperand_literal (st : Setting) (s : Text) :
    st.isStringOperand (quoted s) = true := by
  have hliteral : DataType.isStringLiteral (quoted s) = true := by
    rw [DataType.isStringLiteral, trim_quoted]
    simp [Literal.text, between?, after?, before?]
  simp [isStringOperand, trim_quoted, hliteral]

/-- A piece after its subscripts are rewritten. -/
def indexed (st : Setting) (p : Piece) : Text := st.stringIndex p.code

include hst in
/-- The operand of a piece is passed over where the sum is split. -/
theorem indexed_spec {p : Piece} (hp : p.Plain) (h : st.Separates p) :
    Undivided (st.indexed p) ∧ trim (st.indexed p) = st.indexed p ∧ st.indexed p ≠ [] ∧
      dropConversion (st.indexed p) = st.indexed p := by
  cases p with
  | literal s =>
    have hdrop : dropConversion (quoted s) = quoted s := by
      simp [dropConversion, between?, after?, Literal.text]
    rw [indexed, Piece.code, stringIndex_literal h]
    exact ⟨splitFrom_literal hp.1 hp.2 0, trim_quoted s, List.cons_ne_nil _ _, hdrop⟩
  | field s =>
    have hedged := edged_stringIndex hst h.edged
    have hdepth := depth_stringIndex hst (h.depth (isQuote_field hp))
    exact ⟨splitFrom_of_depth hdepth, trim_of_ends hedged.head hedged.last, hedged.ne_nil, h.unconverted⟩

include hst in
private theorem expr_field {s : Text} (hp : (Piece.field s).Plain) (h : st.Separates (.field s))
    (hpython : st.isPython = true) : st.expr s = st.respellCode (st.stringIndex (trim s)) := by
  have hquotes := isQuote_field hp
  have hdepth := depth_stringIndex hst (h.depth hquotes)
  have hexpand : expand (trim s) = trim s := replace_of_needs (q := isQuote) (by decide) hquotes
  have hfield : st.fieldAccess (trim s) = trim s := by
    have hsum : st.fieldAccess (join (joint '+') [trim s]) = join (joint '+') [trim s] :=
      fieldAccess_sum (List.forall_mem_singleton.mpr (.code hquotes h.nested))
    rwa [join, List.intercalate_singleton] at hsum
  have hconcat : st.concatenate (st.stringIndex (trim s)) = st.stringIndex (trim s) := by
    obtain ⟨hundivided, htrim, hne, -⟩ := indexed_spec hst hp h
    have hsplit := splitTopLevel_sum (List.forall_mem_singleton.mpr ⟨hundivided, htrim, hne⟩)
    rw [join, List.intercalate_singleton, indexed, Piece.code] at hsplit
    simp [concatenate, hsplit]
  rw [expr, hpython, if_pos rfl, hexpand, hfield, hconcat, mapCode_of_no_quote (isQuote_of_depth hdepth)]

private theorem join_cut (o : Text) (ts : List Text) (x : Text) (rest : List Text) :
    join o (ts ++ x :: rest) = join o (ts ++ [[]]) ++ (x ++ join o ([] :: rest)) := by
  induction ts with
  | nil => cases rest <;> simp [join, List.intercalate]
  | cons t ts ih =>
    have hcons (u : Text) (us : List Text) (hus : us ≠ []) : join o (u :: us) = u ++ (o ++ join o us) := by
      obtain ⟨v, us, rfl⟩ := List.exists_cons_of_ne_nil hus
      exact join_of_two ..
    rw [List.cons_append, List.cons_append, hcons t _ (by simp), hcons t _ (by simp), ih]
    simp only [List.append_assoc]

include hst in
theorem mapCode_pieces {o : Char} (ho : IsJoin o) (hpython : st.isPython = true) {ps : List Piece}
    (hps : ∀ p ∈ ps, p.Plain ∧ st.Separates p) {ts : List Text} (hts : ∀ t ∈ ts, t = [] ∨ Edged t)
    (hquotes : ∀ t ∈ ts, ∀ c ∈ t, isQuote c = false) :
    mapCode true st.respellCode (join (joint o) (ts ++ ps.map st.indexed)) =
      join (joint o) (ts.map st.respellCode ++ ps.map st.operand) := by
  have hjoint : ∀ c ∈ joint o, isQuote c = false := by
    rcases ho with rfl | rfl <;> simp [joint, isQuote]
  induction ps generalizing ts with
  | nil =>
    rw [List.map_nil, List.append_nil, List.map_nil, List.append_nil,
      mapCode_of_no_quote (isQuote_join hjoint hquotes), respellCode_join ho st hst hpython hts]
  | cons p ps ih =>
    obtain ⟨⟨hp, hsep⟩, hrest⟩ := List.forall_mem_cons.mp hps
    cases p with
    | literal s =>
      -- an empty operand stands for the literal on both sides of it
      have hempty : ∀ t ∈ ts ++ [[]], t = [] ∨ Edged t :=
        List.forall_mem_append.mpr ⟨hts, List.forall_mem_singleton.mpr (.inl rfl)⟩
      have hcode : ∀ c ∈ join (joint o) (ts ++ [[]]), isQuote c = false :=
        isQuote_join hjoint (List.forall_mem_append.mpr ⟨hquotes, by simp⟩)
      have hnext : mapCode true st.respellCode (join (joint o) ([] :: ps.map st.indexed)) =
          join (joint o) ([] :: ps.map st.operand) := @ih hrest [[]] (by simp) (by simp)
      have hliteral : st.indexed (.literal s) = quoted s := stringIndex_literal hsep
      rw [List.map_cons, List.map_cons, join_cut (joint o) ts, hliteral, mapCode_literal hp.1 hp.2 hcode,
        respellCode_join ho st hst hpython hempty, List.map_append, join_cut (joint o) (ts.map st.respellCode)]
      rw [hnext]
      rfl
    | field s =>
      have hedged : Edged (st.indexed (.field s)) := edged_stringIndex hst hsep.edged
      have hfield := isQuote_of_depth (depth_stringIndex hst (hsep.depth (isQuote_field hp)))
      have hnext := @ih hrest (ts ++ [st.indexed (.field s)])
        (List.forall_mem_append.mpr ⟨hts, List.forall_mem_singleton.mpr (.inr hedged)⟩)
        (List.forall_mem_append.mpr ⟨hquotes, List.forall_mem_singleton.mpr hfield⟩)
      have hexpr : st.operand (.field s) = st.respellCode (st.indexed (.field s)) := expr_field hst hp hsep hpython
      simpa [hexpr] using hnext

private theorem exists_joint (d : Dialect) :
    ∃ o, IsJoin o ∧ " ".toList ++ d.style.concat ++ " ".toList = joint o := by
  cases d with
  | ib => exact ⟨'+', .inr rfl, rfl⟩
  | cambridge => exact ⟨'&', .inl rfl, rfl⟩

section

variable {ps : List Piece} (hps : ∀ p ∈ ps, p.Plain ∧ st.Separates p)

include hps

private theorem summand_code : ∀ u ∈ ps.map Piece.code, st.Summand u := by
  refine List.forall_mem_map.mpr fun p hp => ?_
  obtain ⟨hplain, hsep⟩ := hps p hp
  cases p with
  | literal s => exact .literal hsep
  | field s => exact .code (isQuote_field hplain) hsep.nested

include hst

private theorem concatenate_pieces {s : Text} (hs : .literal s ∈ ps) :
    st.concatenate (join (joint '+') (ps.map st.indexed)) =
      join (" " ++ d.style.concat ++ " ") (ps.map st.indexed) := by
  have hspec : ∀ u ∈ ps.map st.indexed, (Undivided u ∧ trim u = u ∧ u ≠ []) ∧ dropConversion u = u := by
    refine List.forall_mem_map.mpr fun p hp => ?_
    obtain ⟨hundivided, htrim, hne, hdrop⟩ := indexed_spec hst (hps p hp).1 (hps p hp).2
    exact ⟨⟨hundivided, htrim, hne⟩, hdrop⟩
  have hstring : ∃ u ∈ ps.map st.indexed, st.isStringOperand u = true := by
    refine ⟨_, List.mem_map_of_mem hs, ?_⟩
    rw [indexed, Piece.code, stringIndex_literal (hps _ hs).2]
    exact isStringOperand_literal st s
  rw [concatenate_sum st (fun u hu => (hspec u hu).1) (fun u hu => (hspec u hu).2) hstring, hst]

private theorem mapCode_sum (hpython : st.isPython = true) {s : Text} (hs : .literal s ∈ ps) :
    mapCode st.isPython st.respellCode (st.concatenate (st.stringIndex (st.fieldAccess
      (join (joint '+') (ps.map Piece.code))))) = join (" " ++ d.style.concat ++ " ") (ps.map st.operand) := by
  obtain ⟨o, ho, hjoint⟩ := exists_joint d
  have hindex : st.stringIndex (join (joint '+') (ps.map Piece.code)) = join (joint '+') (ps.map st.indexed) := by
    rw [stringIndex_sum (summand_code hps), List.map_map]
    rfl
  have hspelled := @mapCode_pieces st d hst o ho hpython ps hps [] (List.forall_mem_nil _) (List.forall_mem_nil _)
  rw [fieldAccess_sum (summand_code hps), hindex, concatenate_pieces hst hps hs, hpython, hjoint]
  exact hspelled

end

end Setting

/-- In every state and in both dialects, an interpolated string becomes the concatenation of its pieces: one operand
for each piece that is not blank, in order, the quoted text or the spelling of the field on its own. Every field has
to be one operand, and no subscript in literal text may be one that is rewritten. -/
theorem interpolated_strings_join {d : Dialect} {symbols : Symbols} {t : Template} :
    let st : Setting := ⟨d.style, .indentation, symbols⟩
    (∀ p ∈ t.pieces, p.Plain) → (∃ s, s ≠ [] ∧ .literal s ∈ t.pieces) →
    (∀ p ∈ t.pieces, p.isBlank = false → st.Separates p) →
    st.expr t.text = join (" " ++ d.style.concat ++ " ") ((t.pieces.filter (!·.isBlank)).map st.operand) := by
  intro st hplain ⟨s, hne, hs⟩ hseparates
  have hblank : (Piece.literal s).isBlank = false := by simpa [Piece.isBlank] using hne
  have hps : ∀ p ∈ t.pieces.filter (!·.isBlank), p.Plain ∧ st.Separates p := by
    intro p hp
    obtain ⟨hp, hb⟩ := List.mem_filter.mp hp
    exact ⟨hplain p hp, hseparates p hp (by simpa using hb)⟩
  have hmem : Piece.literal s ∈ t.pieces.filter (!·.isBlank) := List.mem_filter.mpr ⟨hs, by simp [hblank]⟩
  have hpython : st.isPython = true := rfl
  have hsum := Setting.mapCode_sum (d := d) rfl hps hpython hmem
  rw [← expand_text hplain ⟨_, hs, hblank⟩] at hsum
  rw [← hsum, Setting.expr, t.trim_text, hpython, if_pos rfl]

/-- Literal text with a subscript, braces and an apostrophe, a subscript of a string with a sum in it, a call with
an operator, and a field that is empty. -/
theorem interpolated_strings_join_fields :
    let symbols : Symbols := ⟨{}, { types := ⟨[("t", "STRING")]⟩ }⟩
    let st : Setting := ⟨.cambridge, .indentation, symbols⟩
    let t : Template := ⟨"xs[0] \x7b", [(" t[ i + 1 ] ", "\x7d it's "), ("len(xs) // 2", ""), ("", "")]⟩
    t.text = "f\"xs[0] \x7b\x7b\x7b t[ i + 1 ] \x7d\x7d\x7d it's \x7blen(xs) // 2\x7d\x7b\x7d\"".toList ∧
      (t.pieces.filter (!·.isBlank)).map st.operand =
        ["\"xs[0] \x7b\"".toList, "MID(t, i + 1, 1)".toList, "\"\x7d it's \"".toList, "LENGTH(xs) DIV 2".toList] ∧
      st.expr t.text = join " & " ((t.pieces.filter (!·.isBlank)).map st.operand) := by
  intro symbols st t
  refine ⟨by decide +kernel, by decide +kernel, ?_⟩
  exact interpolated_strings_join (d := .cambridge) (by decide +kernel)
    ⟨"xs[0] \x7b", by decide, by decide +kernel⟩ (by decide +kernel)

/-- The sum of a field is split with the sum of the pieces. -/
theorem field_sum_split :
    let st : Setting := ⟨.cambridge, .indentation, {}⟩
    let t : Template := ⟨"sum ", [("a + b", "")]⟩
    t.text = "f\"sum \x7ba + b\x7d\"".toList ∧ (∀ p ∈ t.pieces, p.Plain) ∧
      st.expr t.text = "\"sum \" & a & b".toList ∧
      join " & " ((t.pieces.filter (!·.isBlank)).map st.operand) = "\"sum \" & a + b".toList := by
  decide +kernel

end Pseudocode
