import Pseudocode.Proofs.ArithmeticSpelling

/-! # Formulas in several spellings

A formula is a tree over words, grouping, negation and connectives. It is written with one space on each side of
a connective. A pattern that is replaced step by step changes the spelling of a formula if it does so at each of
its words and signs, since no match reaches beyond them. -/

namespace Pseudocode

open Text Pattern Arithmetic

/-- The operators between two operands. -/
inductive Connective where
  | add
  | sub
  | mul
  | div
  | mod
  | eq
  | ne
  | le
  | ge
  | lt
  | gt
  | and
  | or
  | intDiv
  | pow
  deriving DecidableEq, Repr

/-- How connectives and the negation are written; the negation with the space after it, if there is one. -/
@[ext] structure Spelling where
  sign : Connective → Text
  negation : Text

inductive Formula where
  | word (w : Text)
  | group (t : Formula)
  | negation (t : Formula)
  | binary (o : Connective) (a b : Formula)
  deriving DecidableEq, Repr

namespace Formula

def text (sp : Spelling) : Formula → Text
  | word w => w
  | group t => '(' :: (t.text sp ++ [')'])
  | negation t => sp.negation ++ t.text sp
  | binary o a b => a.text sp ++ (' ' :: (sp.sign o ++ [' ']) ++ b.text sp)

/-- Names and numbers. -/
def words : Formula → List Text
  | word w => [w]
  | group t | negation t => t.words
  | binary _ a b => a.words ++ b.words

def connectives : Formula → List Connective
  | word _ => []
  | group t | negation t => t.connectives
  | binary o a b => a.connectives ++ o :: b.connectives

end Formula

/-! ### Replacing part by part -/

/-- Between what was read and the rest, a part of the text comes to be written in another way, and replacing goes
on after it. -/
def Rewrites (p : Pattern) (f : Match → Text) (seen x y rest : Text) : Prop :=
  p.replaceFrom f 0 seen (x ++ rest) = y ++ p.replaceFrom f 0 (x.reverse ++ seen) rest

namespace Rewrites

variable {p : Pattern} {f : Match → Text} {seen x x' y y' rest : Text}

theorem append (h : Rewrites p f seen x y (x' ++ rest)) (h' : Rewrites p f (x.reverse ++ seen) x' y' rest) :
    Rewrites p f seen (x ++ x') (y ++ y') rest := by
  unfold Rewrites at h h' ⊢
  rw [List.append_assoc, h, h', List.append_assoc, List.reverse_append, List.append_assoc]

theorem of_match {m : Match} (h : p.at? ⟨seen, x ++ rest⟩ = some m) (hx : m.text = x) (hne : x ≠ []) :
    Rewrites p f seen x (f m) rest :=
  replaceFrom_of_match h hx hne

/-- A part in which no match begins stays. -/
theorem of_no_match
    (h : ∀ u v, x = u ++ v → v ≠ [] → ∀ t b g, v ++ rest = t ++ b → Way p (u.reverse ++ seen) t b g → t = []) :
    Rewrites p f seen x x rest := by
  unfold Rewrites
  induction x generalizing seen with
  | nil => rfl
  | cons c x ih =>
    have hhead : p.replaceFrom f 0 seen (c :: (x ++ rest)) = c :: p.replaceFrom f 0 (c :: seen) (x ++ rest) := by
      refine replaceFrom_of_no_match fun m hm => ?_
      obtain ⟨b, hb, hway, _⟩ := way_of_at? hm
      exact h [] (c :: x) rfl (List.cons_ne_nil c x) m.text b m.groups hb hway
    rw [List.cons_append, hhead, ih fun u v hx hv t b g hb hway => ?_]
    · simp
    · exact h (c :: u) v (by rw [hx]; rfl) hv t b g hb (by simpa using hway)

end Rewrites

/-! ### What stands beside an operand -/

/-- No word ends here. -/
def Free (seen : Text) : Prop := seen.head?.any isWordChar = false

/-- An operand may end before this text. -/
def Closes (rest : Text) : Prop := ∀ c ∈ rest.head?, c = ' ' ∨ c = ')'

/-- An operand begins this text. -/
def Opens (rest : Text) : Prop :=
  ∃ c s, rest = c :: s ∧ (isWordChar c = true ∨ c = '(' ∨ c = '!' ∧ s.head? ≠ some '=')

theorem Closes.not_word {rest : Text} (h : Closes rest) : rest.head?.any isWordChar = false := by
  cases hc : rest.head? with
  | none => rfl
  | some c => rcases h c hc with rfl | rfl <;> decide

/-- A sign is one word, or has no characters of words, white space and parentheses. -/
def IsMark (x : Text) : Prop :=
  IsWord x ∨ x ≠ [] ∧ ∀ c ∈ x, isWordChar c = false ∧ isBlank c = false ∧ c ≠ '(' ∧ c ≠ ')'

/-- The negation is a word and a space, or a mark before its operand. -/
def IsNegation (x : Text) : Prop := x = ['!'] ∨ ∃ w, IsWord w ∧ x = w ++ [' ']

structure Spelling.Sound (sp : Spelling) : Prop where
  sign : ∀ o, IsMark (sp.sign o)
  negation : IsNegation sp.negation

theorem opens_word {w : Text} (hw : IsWord w) (rest : Text) : Opens (w ++ rest) := by
  obtain ⟨c, w', rfl⟩ := List.exists_cons_of_ne_nil hw.1
  exact ⟨c, w' ++ rest, rfl, .inl (hw.2 c List.mem_cons_self)⟩

theorem Opens.head_ne {rest : Text} (h : Opens rest) {d : Char} (hd : isWordChar d = false) (hparen : d ≠ '(')
    (hbang : d ≠ '!') : rest.head? ≠ some d := by
  obtain ⟨c, s, rfl, hc⟩ := h
  intro heq
  obtain rfl : c = d := Option.some.inj heq
  rcases hc with hc | hc | hc
  · rw [hd] at hc
    cases hc
  · exact hparen hc
  · exact hbang hc.1

theorem Opens.not_blank {rest : Text} (h : Opens rest) : ∀ c ∈ rest.head?, isBlank c = false := by
  intro c hc
  by_contra hblank
  have hblank : isBlank c = true := by simpa using hblank
  refine h.head_ne (isWordChar_of_isBlank hblank) ?_ ?_ hc <;> rintro rfl <;> exact absurd hblank (by decide)

theorem opens_negation {x rest : Text} (hx : IsNegation x) (hrest : Opens rest) : Opens (x ++ rest) := by
  rcases hx with rfl | ⟨w, hw, rfl⟩
  · exact ⟨'!', rest, rfl, .inr (.inr ⟨rfl, hrest.head_ne (by decide) (by decide) (by decide)⟩)⟩
  · rw [List.append_assoc]
    exact opens_word hw _

private theorem free_negation {x : Text} (hx : IsNegation x) (seen : Text) : Free (x.reverse ++ seen) := by
  rcases hx with rfl | ⟨w, _, rfl⟩
  · exact (by decide : isWordChar '!' = false)
  · rw [List.reverse_append]
    exact (by decide : isWordChar ' ' = false)

namespace Formula

variable {sp sp' : Spelling}

theorem opens_text (hsp : sp.Sound) {t : Formula} (ht : ∀ w ∈ t.words, IsWord w) (rest : Text) :
    Opens (t.text sp ++ rest) := by
  induction t generalizing rest with
  | word w => exact opens_word (ht w List.mem_cons_self) rest
  | group t ih => exact ⟨'(', _, rfl, .inr (.inl rfl)⟩
  | negation t ih =>
    rw [text, List.append_assoc]
    exact opens_negation hsp.negation (ih ht rest)
  | binary o a b iha ihb =>
    rw [text, List.append_assoc]
    exact iha (fun w hw => ht w (List.mem_append_left _ hw)) _

end Formula

/-- Replacing changes a spelling into another one at each word and sign by itself. -/
structure Respells (p : Pattern) (f : Match → Text) (kept : Text → Prop) (sp sp' : Spelling) : Prop where
  word {w seen rest : Text} (hw : IsWord w) (hkept : kept w) (hseen : Free seen) (hrest : Closes rest) :
    Rewrites p f seen w w rest
  left {seen rest : Text} (hrest : Opens rest) : Rewrites p f seen ['('] ['('] rest
  right {seen rest : Text} (hrest : Closes rest) : Rewrites p f seen [')'] [')'] rest
  sign (o : Connective) {seen rest : Text} (hrest : Opens rest) :
    Rewrites p f seen (' ' :: (sp.sign o ++ [' '])) (' ' :: (sp'.sign o ++ [' '])) rest
  negation {seen rest : Text} (hseen : Free seen) (hrest : Opens rest) :
    Rewrites p f seen sp.negation sp'.negation rest

private theorem Respells.rewrites_text {p : Pattern} {f : Match → Text} {kept : Text → Prop} {sp sp' : Spelling}
    (h : Respells p f kept sp sp') (hsp : sp.Sound) {t : Formula} (ht : ∀ w ∈ t.words, IsWord w ∧ kept w)
    {seen rest : Text} (hseen : Free seen) (hrest : Closes rest) :
    Rewrites p f seen (t.text sp) (t.text sp') rest := by
  induction t generalizing seen rest with
  | word w =>
    obtain ⟨hw, hkept⟩ := ht w List.mem_cons_self
    exact h.word hw hkept hseen hrest
  | group t ih =>
    have hopens := Formula.opens_text hsp (t := t) (fun w hw => (ht w hw).1) (')' :: rest)
    have hinner : Rewrites p f ('(' :: seen) (t.text sp) (t.text sp') (')' :: rest) :=
      ih ht (by decide : isWordChar '(' = false) (by rintro c ⟨⟩; exact .inr rfl)
    exact (h.left (by simpa using hopens)).append (hinner.append (h.right hrest))
  | negation t ih =>
    have hopens := Formula.opens_text hsp (t := t) (fun w hw => (ht w hw).1) rest
    exact (h.negation hseen hopens).append (ih ht (free_negation hsp.negation seen) hrest)
  | binary o a b iha ihb =>
    have ha : ∀ w ∈ a.words, IsWord w ∧ kept w := fun w hw => ht w (List.mem_append_left _ hw)
    have hb : ∀ w ∈ b.words, IsWord w ∧ kept w := fun w hw => ht w (List.mem_append_right _ hw)
    have hopens := Formula.opens_text hsp (t := b) (fun w hw => (hb w hw).1) rest
    have hleft : Rewrites p f seen (a.text sp) (a.text sp') (' ' :: (sp.sign o ++ [' ']) ++ b.text sp ++ rest) :=
      iha ha hseen (by rintro c ⟨⟩; exact .inl rfl)
    have hfree : Free ((' ' :: (sp.sign o ++ [' '])).reverse ++ ((a.text sp).reverse ++ seen)) := by
      simp [Free, show isWordChar ' ' = false by decide]
    exact hleft.append ((h.sign o hopens).append (ihb hb hfree hrest))

theorem Respells.replace_text {p : Pattern} {f : Match → Text} {kept : Text → Prop} {sp sp' : Spelling}
    (h : Respells p f kept sp sp') (hsp : sp.Sound) {t : Formula} (ht : ∀ w ∈ t.words, IsWord w ∧ kept w) :
    p.replace f (t.text sp) = t.text sp' := by
  have hall : Rewrites p f [] (t.text sp) (t.text sp') [] := h.rewrites_text hsp ht rfl (by simp [Closes])
  simpa [Rewrites, Pattern.replace] using hall

/-! ### Operators -/

/-- A word or sign of a spelling gives way to another one. -/
def Spelling.swap (sp : Spelling) (x new : Text) : Spelling where
  sign o := if sp.sign o = x then new else sp.sign o
  negation := if sp.negation = x ++ [' '] then new ++ [' '] else sp.negation

theorem Spelling.not_mem_swap {sp : Spelling} {c : Char} (h : ∀ o, c ∉ sp.sign o) {x new : Text} (hnew : c ∉ new)
    (o : Connective) : c ∉ (sp.swap x new).sign o := by
  rw [Spelling.swap]
  dsimp only
  split
  · exact hnew
  · exact h o

theorem Spelling.Sound.swap {sp : Spelling} (h : sp.Sound) {x new : Text} (hnew : IsMark new)
    (hword : IsWord x → IsWord new) : (sp.swap x new).Sound := by
  refine ⟨fun o => ?_, ?_⟩
  · rw [Spelling.swap]
    dsimp only
    split
    · exact hnew
    · exact h.sign o
  · rw [Spelling.swap]
    dsimp only
    split
    · next hx =>
      rcases h.negation with hbang | ⟨w, hw, hneg⟩
      · have hlast := congrArg List.getLast? (hx.symm.trans hbang)
        simp at hlast
      · obtain rfl : x = w := by simpa using hx.symm.trans hneg
        exact .inr ⟨new, hword hw, rfl⟩
    · exact h.negation

/-- A sign that is respelled with the white space around it. Only one sign begins as the negation does. -/
def IsOperator (op : Text) : Prop :=
  op ≠ [] ∧ (∀ c ∈ op, isWordChar c = false ∧ isBlank c = false ∧ c ≠ '(' ∧ c ≠ ')') ∧
    (op.head? = some '!' → op = ['!', '='])

section

variable {op : String} (hop : IsOperator op.toList) {f : Match → Text} {seen rest : Text}

include hop

theorem not_prefix_of_opens (hrest : Opens rest) : ¬ op.toList <+: rest := by
  rintro ⟨r, rfl⟩
  obtain ⟨hne, hplain, hbang⟩ := hop
  obtain ⟨c, s, hs, hc⟩ := hrest
  obtain ⟨d, op', hop'⟩ := List.exists_cons_of_ne_nil hne
  rw [hop', List.cons_append] at hs
  obtain ⟨rfl, rfl⟩ := List.cons.inj hs
  have hd := hplain d (by simp [hop'])
  rcases hc with hc | hc | ⟨rfl, hc⟩
  · rw [hd.1] at hc
    cases hc
  · exact hd.2.2.1 hc
  · rw [hbang (by simp [hop'])] at hop'
    obtain rfl := (List.cons.inj hop').2
    exact hc rfl

omit hop in
theorem rewrites_stretch {x : Text} (hx : ∀ c ∈ x, isBlank c = false)
    (h : ∀ v, v <:+ x → v ≠ [] → ¬ op.toList <+: v ++ rest) :
    Rewrites (gap ++ (op : Pattern) ++ gap) f seen x x rest := by
  refine Rewrites.of_no_match fun u v huv hv t b g hb hway => absurd ?_ (h v ⟨u, huv.symm⟩ hv)
  obtain ⟨b₁, b₂, rfl, hb₁, _⟩ := reads_sign hway.reads
  cases b₁ with
  | nil => exact ⟨b₂ ++ b, by simpa using hb.symm⟩
  | cons c b₁ =>
    obtain ⟨d, v, rfl⟩ := List.exists_cons_of_ne_nil hv
    obtain ⟨rfl, _⟩ := List.cons.inj hb
    have hblank := hb₁ d List.mem_cons_self
    rw [hx d (by simp [huv])] at hblank
    cases hblank

theorem rewrites_space (hrest : ∀ c ∈ rest.head?, isBlank c = false) (h : ¬ op.toList <+: rest) :
    Rewrites (gap ++ (op : Pattern) ++ gap) f seen [' '] [' '] rest := by
  refine Rewrites.of_no_match fun u v huv hv t b g hb hway => absurd ?_ h
  obtain rfl : v = [' '] := by
    cases u with
    | nil => exact huv.symm
    | cons c u => simp_all
  obtain ⟨b₁, b₂, rfl, hb₁, _⟩ := reads_sign hway.reads
  obtain ⟨d, op', hop'⟩ := List.exists_cons_of_ne_nil hop.1
  have hd := (hop.2.1 d (by simp [hop'])).2.1
  cases b₁ with
  | nil =>
    obtain rfl : ' ' = d := by simpa [hop'] using congrArg List.head? hb
    cases hd
  | cons c b₁ =>
    obtain ⟨_, hb⟩ := List.cons.inj hb
    cases b₁ with
    | nil => exact ⟨b₂ ++ b, by simpa using hb.symm⟩
    | cons c' b₁ =>
      have hblank := hrest c' (by simp [show rest = _ from hb])
      rw [hb₁ c' (by simp)] at hblank
      cases hblank

theorem rewrites_sign (new : Text) (hrest : ∀ c ∈ rest.head?, isBlank c = false) :
    Rewrites (gap ++ (op : Pattern) ++ gap) (fun _ => " " ++ new ++ " ") seen (' ' :: (op.toList ++ [' ']))
      (' ' :: (new ++ [' '])) rest := by
  have hat : (gap ++ (op : Pattern) ++ gap).at? ⟨seen, ' ' :: (op.toList ++ [' ']) ++ rest⟩ =
      some ⟨seen, ' ' :: (op.toList ++ [' ']), []⟩ := by
    have hblank : ∀ c ∈ [' '], isBlank c = true := List.forall_mem_singleton.mpr (by decide)
    have hhead : ∀ c ∈ (op.toList ++ ' ' :: rest).head?, isBlank c = false := by
      obtain ⟨d, op', hop'⟩ := List.exists_cons_of_ne_nil hop.1
      rw [hop']
      rintro c ⟨⟩
      exact (hop.2.1 _ (by simp [hop'])).2.1
    have hsplit : ' ' :: (op.toList ++ [' ']) ++ rest = [' '] ++ (op.toList ++ ' ' :: rest) := by simp
    have hafter : after? op.toList (op.toList ++ ' ' :: rest) = some (' ' :: rest) := by simp [after?]
    have hlast (k : Cursor → Option Match) (seen : Text) {r : Match} (hk : k ⟨' ' :: seen, rest⟩ = some r) :
        matchMost isBlank k seen (' ' :: rest) = some r := matchMost_eq (s := [' ']) hblank hrest hk
    rw [hsplit]
    refine matchMost_eq hblank hhead ?_
    simp only [matchThen, hafter, Option.bind_some]
    refine hlast _ _ ?_
    simp only [← hsplit, List.length_append, Nat.add_sub_cancel, List.take_left]
  exact Rewrites.of_match hat rfl (List.cons_ne_nil _ _)

theorem not_prefix_of_cons {c : Char} (hc : isWordChar c = true ∨ c = '(' ∨ c = ')') (s : Text) :
    ¬ op.toList <+: c :: s := by
  rintro ⟨r, hr⟩
  obtain ⟨d, op', hop'⟩ := List.exists_cons_of_ne_nil hop.1
  rw [hop', List.cons_append] at hr
  obtain ⟨rfl, _⟩ := List.cons.inj hr
  obtain ⟨hword, _, hleft, hright⟩ := hop.2.1 d (by simp [hop'])
  rcases hc with hc | hc | hc
  · rw [hword] at hc
    cases hc
  · exact hleft hc
  · exact hright hc

/-- What begins with the sign has all of it before the next white space. -/
theorem prefix_of_prefix_space {v : Text} (h : op.toList <+: v ++ ' ' :: rest) : op.toList <+: v := by
  rcases List.prefix_or_prefix_of_prefix h (List.prefix_append v _) with hv | ⟨r, hr⟩
  · exact hv
  · cases r with
    | nil => exact ⟨[], by simpa using hr.symm⟩
    | cons c r =>
      have hblank := (hop.2.1 c (by simp [← hr])).2.1
      rw [← hr, List.prefix_append_right_inj, List.cons_prefix_cons] at h
      rw [h.1] at hblank
      cases hblank

theorem rewrites_word {w : Text} (hw : IsWord w) : Rewrites (gap ++ (op : Pattern) ++ gap) f seen w w rest := by
  refine rewrites_stretch (fun c hc => isBlank_of_isWordChar (hw.2 c hc)) fun v hv hne => ?_
  obtain ⟨c, v', rfl⟩ := List.exists_cons_of_ne_nil hne
  exact not_prefix_of_cons hop (.inl (hw.2 c (hv.subset List.mem_cons_self))) _

private theorem rewrites_paren {c : Char} (hc : c = '(' ∨ c = ')') :
    Rewrites (gap ++ (op : Pattern) ++ gap) f seen [c] [c] rest := by
  have hblank : isBlank c = false := by rcases hc with rfl | rfl <;> decide
  refine rewrites_stretch (List.forall_mem_singleton.mpr hblank) fun v hv hne => ?_
  obtain rfl : v = [c] := (List.suffix_cons_iff.mp hv).resolve_right fun h => hne (List.suffix_nil.mp h)
  exact not_prefix_of_cons hop (.inr hc) _

private theorem rewrites_other {sg : Text} (hsg : IsMark sg) (hnot : ¬ op.toList <:+: sg) (hrest : Opens rest) :
    Rewrites (gap ++ (op : Pattern) ++ gap) f seen (' ' :: (sg ++ [' '])) (' ' :: (sg ++ [' '])) rest := by
  have hplain : sg ≠ [] ∧ ∀ c ∈ sg, isBlank c = false := by
    rcases hsg with hword | ⟨hne, hsigns⟩
    · exact ⟨hword.1, fun c hc => isBlank_of_isWordChar (hword.2 c hc)⟩
    · exact ⟨hne, fun c hc => (hsigns c hc).2.1⟩
  have hinside (v : Text) (hv : v <:+ sg) : ¬ op.toList <+: v ++ ' ' :: rest := fun h =>
    hnot ((prefix_of_prefix_space hop h).isInfix.trans hv.isInfix)
  have hhead : ∀ c ∈ (sg ++ [' '] ++ rest).head?, isBlank c = false := by
    obtain ⟨c, sg', rfl⟩ := List.exists_cons_of_ne_nil hplain.1
    rintro d ⟨⟩
    exact hplain.2 _ List.mem_cons_self
  have hlead : Rewrites (gap ++ (op : Pattern) ++ gap) f seen [' '] [' '] (sg ++ [' '] ++ rest) :=
    rewrites_space hop hhead (by simpa using hinside sg (List.suffix_refl sg))
  have hmiddle (seen : Text) : Rewrites (gap ++ (op : Pattern) ++ gap) f seen sg sg ([' '] ++ rest) :=
    rewrites_stretch hplain.2 fun v hv _ => hinside v hv
  exact hlead.append ((hmiddle _).append (rewrites_space hop hrest.not_blank (not_prefix_of_opens hop hrest)))

private theorem rewrites_negation {x : Text} (hx : IsNegation x) (hrest : Opens rest) :
    Rewrites (gap ++ (op : Pattern) ++ gap) f seen x x rest := by
  rcases hx with rfl | ⟨w, hw, rfl⟩
  · refine rewrites_stretch (List.forall_mem_singleton.mpr (by decide)) fun v hv hne => ?_
    obtain rfl : v = ['!'] := (List.suffix_cons_iff.mp hv).resolve_right fun h => hne (List.suffix_nil.mp h)
    exact not_prefix_of_opens hop (opens_negation (.inl rfl) hrest)
  · exact (rewrites_word hop hw).append (rewrites_space hop hrest.not_blank (not_prefix_of_opens hop hrest))

theorem respells_operator {sp : Spelling} (hsp : sp.Sound)
    (hfits : ∀ o, sp.sign o = op.toList ∨ ¬ op.toList <:+: sp.sign o) (new : Text) :
    Respells (gap ++ (op : Pattern) ++ gap) (fun _ => " " ++ new ++ " ") (fun _ => True) sp
      (sp.swap op.toList new) where
  word hw _ _ _ := rewrites_word hop hw
  left _ := rewrites_paren hop (.inl rfl)
  right _ := rewrites_paren hop (.inr rfl)
  sign o _ _ hrest := by
    rw [Spelling.swap]
    dsimp only
    split
    · next ho =>
      rw [ho]
      exact rewrites_sign hop new hrest.not_blank
    · next ho => exact rewrites_other hop (hsp.sign o) ((hfits o).resolve_left ho) hrest
  negation _ hrest := by
    have hother : sp.negation ≠ op.toList ++ [' '] := by
      intro heq
      rcases hsp.negation with hbang | ⟨w, hw, hneg⟩
      · simpa using congrArg List.getLast? (heq.symm.trans hbang)
      · obtain rfl : op.toList = w := by simpa using heq.symm.trans hneg
        obtain ⟨c, op', hop'⟩ := List.exists_cons_of_ne_nil hop.1
        have hc := hw.2 c (by simp [hop'])
        rw [(hop.2.1 c (by simp [hop'])).1] at hc
        cases hc
    rw [Spelling.swap]
    dsimp only
    rw [if_neg hother]
    exact rewrites_negation hop hsp.negation hrest

end

/-! ### Words -/

section

variable {w : String} (hw : IsWord w.toList) {f : Match → Text} {seen rest : Text}

include hw

theorem rewrites_apart {x : Text} (hx : ∀ c ∈ x, isWordChar c = false) :
    Rewrites (Pattern.word w) f seen x x rest := by
  refine Rewrites.of_no_match fun u v huv hv t b g hb hway => ?_
  obtain ⟨rfl, _⟩ := edges_of_way hw hway
  obtain ⟨c, v, rfl⟩ := List.exists_cons_of_ne_nil hv
  obtain ⟨d, w', hd⟩ := List.exists_cons_of_ne_nil hw.1
  rw [hd] at hb
  obtain ⟨rfl, _⟩ := List.cons.inj hb
  have hword := hw.2 c (by simp [hd])
  rw [hx c (by simp [huv])] at hword
  cases hword

theorem rewrites_run {v : Text} (hv : IsWord v) (hseen : Free seen) (hrest : rest.head?.any isWordChar = false)
    (new : Text) :
    Rewrites (Pattern.word w) (fun _ => new) seen v (if v = w.toList then new else v) rest := by
  split
  · next heq =>
    subst heq
    have hway : Way (Pattern.word w) seen ([] ++ w.toList ++ []) rest [] :=
      .seq (.seq (.wordEdge ((isWordEdge_before hw.1 hw.2).mpr (by simpa [Free] using hseen))) .text)
        (.wordEdge ((isWordEdge_after hw.1 hw.2).mpr (by simpa using hrest)))
    obtain ⟨m, hm⟩ := exists_at? hway
    obtain ⟨_, _, hway', _⟩ := way_of_at? hm
    exact Rewrites.of_match (f := fun _ => new) (by simpa using hm) (edges_of_way hw hway').1 hw.1
  · next hne =>
    refine Rewrites.of_no_match fun u v' huv hv' t b g hb hway => ?_
    obtain ⟨rfl, hfree, hedge⟩ := edges_of_way hw hway
    cases u using List.reverseRecOn with
    | nil =>
      obtain rfl : v = v' := huv
      exact absurd (eq_of_runs hv.2 hw.2 hrest hedge hb).1 hne
    | append_singleton u c =>
      have hc := hv.2 c (by simp [huv])
      simp [hc] at hfree

private theorem rewrites_run_space {v : Text} (hv : IsWord v) (hseen : Free seen) (new : Text) :
    Rewrites (Pattern.word w) (fun _ => new) seen (v ++ [' ']) ((if v = w.toList then new else v) ++ [' ']) rest := by
  have hedge : ([' '] ++ rest).head?.any isWordChar = false := (by decide : isWordChar ' ' = false)
  exact (rewrites_run hw hv hseen hedge new).append (rewrites_apart hw (List.forall_mem_singleton.mpr (by decide)))

theorem respells_word {sp : Spelling} (hsp : sp.Sound) (new : Text) :
    Respells (Pattern.word w) (fun _ => new) (· ≠ w.toList) sp (sp.swap w.toList new) where
  word {v _ _} hv hkept hseen hrest := by
    have hrun := rewrites_run hw hv hseen hrest.not_word new
    rwa [if_neg hkept] at hrun
  left _ := rewrites_apart hw (List.forall_mem_singleton.mpr (by decide))
  right _ := rewrites_apart hw (List.forall_mem_singleton.mpr (by decide))
  sign o seen rest _ := by
    rcases hsp.sign o with hword | ⟨hne, hsigns⟩
    · have hlead : Rewrites (Pattern.word w) (fun _ => new) seen [' '] [' '] (sp.sign o ++ [' '] ++ rest) :=
        rewrites_apart hw (List.forall_mem_singleton.mpr (by decide))
      have hseen : Free ([' '].reverse ++ seen) := (by decide : isWordChar ' ' = false)
      exact hlead.append (rewrites_run_space hw hword hseen new)
    · have hother : sp.sign o ≠ w.toList := by
        intro heq
        obtain ⟨c, sg, hc⟩ := List.exists_cons_of_ne_nil hne
        have hword := hw.2 c (by simp [← heq, hc])
        rw [(hsigns c (by simp [hc])).1] at hword
        cases hword
      rw [Spelling.swap]
      dsimp only
      rw [if_neg hother]
      refine rewrites_apart hw fun c hc => ?_
      have hc : c = ' ' ∨ c ∈ sp.sign o := by simpa [or_comm] using hc
      rcases hc with rfl | hc
      · decide
      · exact (hsigns c hc).1
  negation {seen rest} hseen _ := by
    rw [Spelling.swap]
    dsimp only
    rcases hsp.negation with hbang | ⟨v, hv, hneg⟩
    · have hother : sp.negation ≠ w.toList ++ [' '] := fun heq => by
        simpa using congrArg List.getLast? (heq.symm.trans hbang)
      rw [if_neg hother, hbang]
      exact rewrites_apart hw (List.forall_mem_singleton.mpr (by decide))
    · have hrun : Rewrites (Pattern.word w) (fun _ => new) seen (v ++ [' '])
          ((if v = w.toList then new else v) ++ [' ']) rest := rewrites_run_space hw hv hseen new
      rw [hneg]
      convert hrun using 1
      by_cases hvw : v = w.toList
      · simp [hvw]
      · simp [hvw]

end

/-! ### The mark of a negation -/

private theorem rewrites_unmarked {x : Text} (hx : '!' ∉ x) {f : Match → Text} {seen rest : Text} :
    Rewrites ("!" ++ gap) f seen x x rest := by
  refine Rewrites.of_no_match fun u v huv hv t b g hb hway => ?_
  obtain ⟨_, _, _, _, rfl, _, hmark, _⟩ := reads_append.mp hway.reads
  obtain ⟨rfl, _⟩ := reads_text.mp hmark
  obtain ⟨c, v, rfl⟩ := List.exists_cons_of_ne_nil hv
  obtain rfl : c = '!' := (List.cons.inj hb).1
  exact absurd (by simp [huv]) hx

private theorem rewrites_mark (new : Text) {seen rest : Text} (hrest : Opens rest) :
    Rewrites ("!" ++ gap) (fun _ => new) seen ['!'] new rest := by
  have hway : Way ("!" ++ gap) seen (['!'] ++ []) rest [] := .seq .text (.most (List.forall_mem_nil _))
  obtain ⟨m, hm⟩ := exists_at? hway
  obtain ⟨b, hb, hway', _⟩ := way_of_at? hm
  obtain ⟨_, x, _, _, htext, _, hmark, hgap⟩ := reads_append.mp hway'.reads
  obtain ⟨rfl, _⟩ := reads_text.mp hmark
  have hx : x = [] := by
    cases x with
    | nil => rfl
    | cons c x =>
      rw [htext] at hb
      have hblank := hrest.not_blank c (by simp [show rest = _ from (List.cons.inj hb).2])
      rw [(reads_most.mp hgap).1 c List.mem_cons_self] at hblank
      cases hblank
  exact Rewrites.of_match (f := fun _ => new) hm (by rw [htext, hx]; rfl) (List.cons_ne_nil _ _)

/-- The mark of a negation becomes a word. -/
theorem respells_mark {sp : Spelling} (hmark : sp.negation = ['!']) (hsigns : ∀ o, '!' ∉ sp.sign o) (new : Text) :
    Respells ("!" ++ gap) (fun _ => new ++ " ") (fun _ => True) sp { sp with negation := new ++ " ".toList } where
  word hw _ _ _ := rewrites_unmarked fun h => absurd (hw.2 _ h) (by decide)
  left _ := rewrites_unmarked (by decide)
  right _ := rewrites_unmarked (by decide)
  sign o _ _ _ := rewrites_unmarked (by simpa using hsigns o)
  negation _ hrest := by
    rw [hmark]
    exact rewrites_mark _ hrest

end Pseudocode
