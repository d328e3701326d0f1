import Pseudocode.Proofs.CallSites
import Pseudocode.Proofs.FormulaSpelling

/-! # Operators in the spelling of a dialect

Operators are respelled by one replacement after another. Each of them changes one sign of a formula and nothing
else, so that the text of a formula comes out as the text of the same formula in the spelling of the dialect. -/

namespace Pseudocode

open Text Pattern Arithmetic

/-! ### Spellings of sources and dialects -/

/-- The signs of a source, which some sources replace by words. -/
def Connective.sign : Connective → Text
  | add => "+"
  | sub => "-"
  | mul => "*"
  | div => "/"
  | mod => "%"
  | eq => "=="
  | ne => "!="
  | le => "<="
  | ge => ">="
  | lt => "<"
  | gt => ">"
  | and => "&&"
  | or => "||"
  | intDiv => "//"
  | pow => "**"

def Convention.spelling : Convention → Spelling
  | .indentation => ⟨fun o => if o = .and then "and" else if o = .or then "or" else o.sign, "not "⟩
  | .braces => ⟨Connective.sign, "!"⟩

def Style.sign (st : Style) : Connective → Text
  | .mod => st.keyword .modWord
  | .eq => "="
  | .ne => "≠"
  | .le => "≤"
  | .ge => "≥"
  | .and => st.keyword .andWord
  | .or => st.keyword .orWord
  | .intDiv => st.keyword .divWord
  | .pow => "^"
  | o => o.sign

def Style.spelling (st : Style) : Spelling := ⟨st.sign, st.keyword .notWord ++ " "⟩

/-! ### One replacement after another -/

/-- The operators that are respelled in Python with the white space around them. -/
def spacedOperators : List String := ["**", "//", "%", "!=", "==", "<=", ">="]

/-- The operators that are respelled with the white space around them. -/
def operators : List String := spacedOperators ++ ["&&", "||"]

/-- A text in which a sign does not occur, unless they are the same. -/
def Missing (op x : Text) : Prop := x.length ≤ op.length ∨ op.any (fun c => !x.contains c) = true

instance (op x : Text) : Decidable (Missing op x) := inferInstanceAs (Decidable (_ ∨ _))

theorem Missing.eq_or_absent {op x : Text} (h : Missing op x) : x = op ∨ ¬ op <:+: x := by
  rcases h with hlength | hmissing
  · by_cases hin : op <:+: x
    · exact .inl (hin.eq_of_length_le hlength).symm
    · exact .inr hin
  · obtain ⟨c, hc, hx⟩ : ∃ c ∈ op, c ∉ x := by simpa using hmissing
    exact .inr fun hin => hx (hin.subset hc)

/-- Characters of signs. -/
def isSignChar (c : Char) : Bool := !isWordChar c && !isBlank c && c != '(' && c != ')'

theorem isMark_of_all {x : Text} (hne : x ≠ []) (hx : x.all isSignChar = true) : IsMark x := by
  refine .inr ⟨hne, fun c hc => ?_⟩
  simpa [isSignChar, and_assoc] using List.all_eq_true.mp hx c hc

theorem isOperator_of_mem {op : String} (hop : op ∈ operators) : IsOperator op.toList := by
  have hall : operators.all (fun op => !op.toList.isEmpty && op.toList.all isSignChar &&
      (op.toList.head? != some '!' || op.toList == ['!', '='])) = true := by decide
  have hop := List.all_eq_true.mp hall op hop
  simp only [Bool.and_eq_true, Bool.or_eq_true, Bool.not_eq_true', bne_iff_ne, beq_iff_eq] at hop
  obtain ⟨⟨hne, hsigns⟩, hbang⟩ := hop
  refine ⟨by simpa using hne, fun c hc => ?_, fun h => hbang.resolve_left fun hnot => hnot h⟩
  simpa [isSignChar, and_assoc] using List.all_eq_true.mp hsigns c hc

/-- A spelling in which the operators can be told apart. -/
structure Spelling.Ready (sp : Spelling) : Prop extends sp.Sound where
  missing : ∀ op ∈ operators, ∀ o, Missing op.toList (sp.sign o)

/-- What a word or sign may give way to: a word, or one character if it was no word itself. -/
def IsNew (x new : Text) : Prop := IsWord new ∨ ¬ IsWord x ∧ ∃ c, new = [c] ∧ isSignChar c = true

theorem Spelling.Ready.swap {sp : Spelling} (h : sp.Ready) {x new : Text} (hnew : IsNew x new) :
    (sp.swap x new).Ready := by
  have hmark : IsMark new := by
    rcases hnew with hword | ⟨_, c, rfl, hc⟩
    · exact .inl hword
    · exact isMark_of_all (List.cons_ne_nil c []) (by simpa using hc)
  refine ⟨h.toSound.swap hmark fun hx => hnew.resolve_right fun hsign => hsign.1 hx, fun op hop o => ?_⟩
  rw [Spelling.swap]
  dsimp only
  split
  · obtain ⟨hne, hplain, _⟩ := isOperator_of_mem hop
    rcases hnew with hword | ⟨_, c, rfl, _⟩
    · obtain ⟨c, op', hc⟩ := List.exists_cons_of_ne_nil hne
      refine .inr (List.any_eq_true.mpr ⟨c, by simp [hc], ?_⟩)
      have hnot : c ∉ new := fun hmem => by
        have hw := hword.2 c hmem
        rw [(hplain c (by simp [hc])).1] at hw
        cases hw
      simpa using hnot
    · exact .inl (List.length_pos_iff.mpr hne)
  · exact h.missing op hop o

theorem Spelling.Ready.swap_sign {sp : Spelling} (h : sp.Ready) {op : String} (hop : op ∈ operators) {c : Char}
    (hc : isSignChar c = true) : (sp.swap op.toList [c]).Ready := by
  refine h.swap (.inr ⟨fun hword => ?_, c, rfl, hc⟩)
  obtain ⟨hne, hplain, _⟩ := isOperator_of_mem hop
  obtain ⟨x, op', hx⟩ := List.exists_cons_of_ne_nil hne
  have hw := hword.2 x (by simp [hx])
  rw [(hplain x (by simp [hx])).1] at hw
  cases hw

theorem Convention.ready_spelling (conv : Convention) : conv.spelling.Ready := by
  have hmark (o : Connective) : IsMark o.sign :=
    isMark_of_all (by cases o <;> decide) (by cases o <;> decide)
  have hmissing (x : Text) (hx : operators.all (fun op => decide (Missing op.toList x)) = true)
      (op : String) (hop : op ∈ operators) : Missing op.toList x :=
    of_decide_eq_true (List.all_eq_true.mp hx op hop)
  have hsign (o : Connective) : IsMark (conv.spelling.sign o) ∧
      ∀ op ∈ operators, Missing op.toList (conv.spelling.sign o) := by
    cases conv with
    | braces => exact ⟨hmark o, hmissing o.sign (by cases o <;> decide)⟩
    | indentation =>
      rw [Convention.spelling]
      dsimp only
      split
      · exact ⟨.inl (by decide), hmissing "and" (by decide)⟩
      split
      · exact ⟨.inl (by decide), hmissing "or" (by decide)⟩
      · exact ⟨hmark o, hmissing o.sign (by cases o <;> decide)⟩
  refine ⟨⟨fun o => (hsign o).1, ?_⟩, fun op hop o => (hsign o).2 op hop⟩
  cases conv with
  | indentation => exact .inr ⟨"not", by decide, rfl⟩
  | braces => exact .inl rfl

/-! ### Passes -/

namespace Formula

variable {sp : Spelling} {t : Formula}

theorem respell_text (h : sp.Ready) (ht : ∀ w ∈ t.words, IsWord w) {op : String} (hop : op ∈ operators)
    (new : Text) : Setting.respell op new (t.text sp) = t.text (sp.swap op.toList new) :=
  (respells_operator (isOperator_of_mem hop) h.toSound (fun o => (h.missing op hop o).eq_or_absent) new).replace_text
    h.toSound fun w hw => ⟨ht w hw, trivial⟩

theorem respellWord_text (h : sp.Ready) {w : String} (hw : IsWord w.toList)
    (ht : ∀ v ∈ t.words, IsWord v ∧ v ≠ w.toList) (new : Text) :
    Setting.respellWord w new (t.text sp) = t.text (sp.swap w.toList new) :=
  (respells_word hw h.toSound new).replace_text h.toSound ht

end Formula

namespace Setting

variable {st : Setting} {d : Dialect} (hst : st.style = d.style)

/-- The keywords that connectives and truth values are spelled with. -/
def logicKeywords : List Keyword := [.divWord, .modWord, .andWord, .orWord, .notWord, .trueWord, .falseWord]

include hst in
theorem isWord_kw {k : Keyword} (hk : k ∈ logicKeywords) : IsWord (st.kw k) := by
  have hall : ∀ k ∈ logicKeywords, IsWord (d.style.keyword k) := by cases d <;> decide
  rw [kw, hst]
  exact hall k hk

/-- The spelling after remainders and comparisons. -/
def compared (st : Setting) (sp : Spelling) : Spelling :=
  ((((sp.swap "%" (st.kw .modWord)).swap "!=" "≠").swap "==" "=").swap "<=" "≤").swap ">=" "≥"

/-- The spelling after the words of logic. -/
def reasoned (st : Setting) (conv : Convention) (sp : Spelling) : Spelling :=
  match conv with
  | .indentation =>
    ((((sp.swap "and" (st.kw .andWord)).swap "or" (st.kw .orWord)).swap "not" (st.kw .notWord)).swap
      "True" (st.kw .trueWord)).swap "False" (st.kw .falseWord)
  | .braces =>
    let sp := (sp.swap "&&" (st.kw .andWord)).swap "||" (st.kw .orWord)
    (Spelling.swap { sp with negation := st.kw .notWord ++ " " } "true" (st.kw .trueWord)).swap
      "false" (st.kw .falseWord)

variable {sp : Spelling} {t : Formula}

include hst in
theorem comparisons_text (h : sp.Ready) (ht : ∀ w ∈ t.words, IsWord w) :
    st.comparisons (t.text sp) = t.text (st.compared sp) ∧ (st.compared sp).Ready := by
  have h₁ : (sp.swap "%" (st.kw .modWord)).Ready := h.swap (.inl (isWord_kw hst (by decide)))
  have h₂ : (Spelling.swap _ "!=" "≠").Ready := h₁.swap_sign (by decide) (by decide +kernel)
  have h₃ : (Spelling.swap _ "==" "=").Ready := h₂.swap_sign (by decide) (by decide)
  have h₄ : (Spelling.swap _ "<=" "≤").Ready := h₃.swap_sign (by decide) (by decide +kernel)
  have h₅ : (Spelling.swap _ ">=" "≥").Ready := h₄.swap_sign (by decide) (by decide +kernel)
  refine ⟨?_, h₅⟩
  simp only [comparisons]
  rw [Formula.respell_text h ht (by decide), Formula.respell_text h₁ ht (by decide),
    Formula.respell_text h₂ ht (by decide), Formula.respell_text h₃ ht (by decide),
    Formula.respell_text h₄ ht (by decide)]
  rfl

include hst in
theorem pythonArithmetic_text (h : sp.Ready) (ht : ∀ w ∈ t.words, IsWord w) :
    st.pythonArithmetic (t.text sp) = t.text ((sp.swap "**" "^").swap "//" (st.kw .divWord)) ∧
      ((sp.swap "**" "^").swap "//" (st.kw .divWord)).Ready := by
  have h₁ : (sp.swap "**" "^").Ready := h.swap_sign (by decide) (by decide)
  refine ⟨?_, h₁.swap (.inl (isWord_kw hst (by decide)))⟩
  rw [pythonArithmetic, Formula.respell_text h ht (by decide)]
  exact Formula.respell_text h₁ ht (by decide) _

include hst in
theorem pythonLogic_text (h : sp.Ready) (ht : ∀ w ∈ t.words, IsWord w ∧ w ∉ Convention.indentation.logicWords)
    (hcalls : (t.text (st.reasoned .indentation sp)).IsChain NoCall) :
    st.pythonLogic (t.text sp) = t.text (st.reasoned .indentation sp) := by
  have hword {w : String} (hw : w.toList ∈ Convention.indentation.logicWords) :
      ∀ v ∈ t.words, IsWord v ∧ v ≠ w.toList :=
    fun v hv => ⟨(ht v hv).1, fun heq => (ht v hv).2 (heq ▸ hw)⟩
  have hnew (sp : Spelling) (h : sp.Ready) (w : String) {k : Keyword} (hk : k ∈ logicKeywords) :
      (sp.swap w.toList (st.kw k)).Ready := h.swap (.inl (isWord_kw hst hk))
  have h₁ := hnew sp h "and" (k := .andWord) (by decide)
  have h₂ := hnew _ h₁ "or" (k := .orWord) (by decide)
  have h₃ := hnew _ h₂ "not" (k := .notWord) (by decide)
  have h₄ := hnew _ h₃ "True" (k := .trueWord) (by decide)
  simp only [pythonLogic]
  rw [Formula.respellWord_text h (by decide) (hword (by decide)),
    Formula.respellWord_text h₁ (by decide) (hword (by decide)),
    Formula.respellWord_text h₂ (by decide) (hword (by decide)),
    Formula.respellWord_text h₃ (by decide) (hword (by decide)),
    Formula.respellWord_text h₄ (by decide) (hword (by decide))]
  exact replace_length_of_noCall hcalls _

include hst in
theorem javaLogic_text (h : sp.Ready) (hmark : sp.negation = ['!']) (hsigns : ∀ o, '!' ∉ sp.sign o)
    (ht : ∀ w ∈ t.words, IsWord w ∧ w ∉ Convention.braces.logicWords) :
    st.javaLogic (t.text sp) = t.text (st.reasoned .braces sp) := by
  have hword {w : String} (hw : w.toList ∈ Convention.braces.logicWords) :
      ∀ v ∈ t.words, IsWord v ∧ v ≠ w.toList :=
    fun v hv => ⟨(ht v hv).1, fun heq => (ht v hv).2 (heq ▸ hw)⟩
  have hwords : ∀ w ∈ t.words, IsWord w := fun w hw => (ht w hw).1
  have hkeyword {k : Keyword} (hk : k ∈ logicKeywords) : '!' ∉ st.kw k :=
    fun hmem => absurd ((isWord_kw hst hk).2 _ hmem) (by decide)
  have h₁ : (sp.swap "&&" (st.kw .andWord)).Ready := h.swap (.inl (isWord_kw hst (by decide)))
  have h₂ : ((sp.swap "&&" (st.kw .andWord)).swap "||" (st.kw .orWord)).Ready :=
    h₁.swap (.inl (isWord_kw hst (by decide)))
  have hmark₂ : ((sp.swap "&&" (st.kw .andWord)).swap "||" (st.kw .orWord)).negation = ['!'] := by
    simp [Spelling.swap, hmark]
  have hsigns₂ : ∀ o, '!' ∉ ((sp.swap "&&" (st.kw .andWord)).swap "||" (st.kw .orWord)).sign o :=
    Spelling.not_mem_swap (Spelling.not_mem_swap hsigns (hkeyword (by decide))) (hkeyword (by decide))
  have h₃ : Spelling.Ready { (sp.swap "&&" (st.kw .andWord)).swap "||" (st.kw .orWord) with
      negation := st.kw .notWord ++ " ".toList } :=
    ⟨⟨h₂.sign, .inr ⟨st.kw .notWord, isWord_kw hst (by decide), rfl⟩⟩, h₂.missing⟩
  have h₄ := h₃.swap (x := "true") (.inl (isWord_kw hst (k := .trueWord) (by decide)))
  simp only [javaLogic]
  rw [Formula.respell_text h hwords (by decide), Formula.respell_text h₁ hwords (by decide),
    (respells_mark hmark₂ hsigns₂ (st.kw .notWord)).replace_text h₂.toSound fun w hw => ⟨hwords w hw, trivial⟩,
    Formula.respellWord_text h₃ (by decide) (hword (by decide))]
  exact Formula.respellWord_text h₄ (by decide) (hword (by decide)) _

include hst in
theorem reasoned_indentation :
    st.reasoned .indentation (st.compared ((Convention.indentation.spelling.swap "**" "^").swap "//" (st.kw .divWord))) =
      d.style.spelling := by
  have hkw (k : Keyword) : st.kw k = d.style.keyword k := by rw [kw, hst]
  simp only [reasoned, compared, hkw]
  refine Spelling.ext (funext fun o => ?_) ?_
  · cases d <;> cases o <;> decide
  · cases d <;> decide

include hst in
theorem reasoned_braces :
    (∀ o, o ≠ .intDiv ∧ o ≠ .pow → (st.reasoned .braces (st.compared Convention.braces.spelling)).sign o =
      d.style.spelling.sign o) ∧
    (st.reasoned .braces (st.compared Convention.braces.spelling)).negation = d.style.spelling.negation := by
  have hkw (k : Keyword) : st.kw k = d.style.keyword k := by rw [kw, hst]
  simp only [reasoned, compared, hkw]
  refine ⟨fun o ho => ?_, ?_⟩
  · cases o with
    | intDiv => exact absurd rfl ho.1
    | pow => exact absurd rfl ho.2
    | _ => cases d <;> decide
  · cases d <;> decide

end Setting

/-! ### Texts of formulas -/

namespace Formula

variable {sp sp' : Spelling} {t : Formula}

theorem text_congr (hsign : ∀ o ∈ t.connectives, sp.sign o = sp'.sign o) (hneg : sp.negation = sp'.negation) :
    t.text sp = t.text sp' := by
  induction t with
  | word w => rfl
  | group t ih => rw [text, text, ih hsign]
  | negation t ih => rw [text, text, ih hsign, hneg]
  | binary o a b iha ihb =>
    rw [text, text, iha fun x hx => hsign x (List.mem_append_left _ hx), hsign o (by simp [connectives]),
      ihb fun x hx => hsign x (List.mem_append_right _ (List.mem_cons_of_mem _ hx))]

theorem not_mem_text {c : Char} (hword : isWordChar c = false) (hplain : c ∉ "() ".toList)
    (hneg : c ∉ sp.negation) (hsign : ∀ o, c ∉ sp.sign o) (ht : ∀ w ∈ t.words, IsWord w) : c ∉ t.text sp := by
  obtain ⟨hleft, hright, hspace⟩ : c ≠ '(' ∧ c ≠ ')' ∧ c ≠ ' ' := by simpa using hplain
  induction t with
  | word w =>
    intro hc
    rw [(ht w List.mem_cons_self).2 c hc] at hword
    cases hword
  | group t ih => simpa [text, hleft, hright] using ih ht
  | negation t ih => simpa [text, hneg] using ih ht
  | binary o a b iha ihb =>
    have ha := iha fun w hw => ht w (List.mem_append_left _ hw)
    have hb := ihb fun w hw => ht w (List.mem_append_right _ hw)
    simp [text, hspace, hsign o, ha, hb]

private theorem isChain_text (hsp : sp.Sound) (ht : ∀ w ∈ t.words, IsWord w) {c : Char} (hc : isWordChar c = false)
    {rest : Text} (hrest : rest.IsChain NoCall) (hclose : Closes rest) :
    (c :: (t.text sp ++ rest)).IsChain NoCall := by
  have hword {w : Text} (hw : IsWord w) : ∀ c ∈ w, c ≠ '(' := by
    rintro c hc rfl
    exact absurd (hw.2 _ hc) (by decide)
  induction t generalizing c rest with
  | word w =>
    refine isChain_plain (hword (ht w List.mem_cons_self)) hrest (fun d hd => ?_) c
    rcases hclose d hd with rfl | rfl <;> decide
  | group t ih =>
    have hinner := ih ht (c := '(') (by decide) (isChain_apart hrest (by decide : isWordChar ')' = false))
      (by rintro d ⟨⟩; exact .inr rfl)
    rw [text, List.cons_append, List.append_assoc]
    exact isChain_apart hinner hc
  | negation t ih =>
    rw [text, List.append_assoc]
    rcases hsp.negation with hbang | ⟨w, hw, hneg⟩
    · rw [hbang]
      exact isChain_apart (ih ht (by decide) hrest hclose) hc
    · rw [hneg, List.append_assoc]
      exact isChain_plain (hword hw) (ih ht (by decide) hrest hclose) (by rintro d ⟨⟩; decide) c
  | binary o a b iha ihb =>
    have hsign : ∀ c ∈ sp.sign o, c ≠ '(' := by
      rcases hsp.sign o with hw | ⟨_, hsigns⟩
      · exact hword hw
      · exact fun c hc => (hsigns c hc).2.2.1
    have hright := ihb (fun w hw => ht w (List.mem_append_right _ hw)) (c := ' ') (by decide) hrest hclose
    have hmiddle : (' ' :: (sp.sign o ++ ' ' :: (b.text sp ++ rest))).IsChain NoCall :=
      isChain_plain hsign hright (by rintro d ⟨⟩; decide) ' '
    have hleft := iha (fun w hw => ht w (List.mem_append_left _ hw)) hc hmiddle (by rintro d ⟨⟩; exact .inl rfl)
    simpa [text] using hleft

theorem noCall_text (hsp : sp.Sound) (ht : ∀ w ∈ t.words, IsWord w) : (t.text sp).IsChain NoCall := by
  have hchain := isChain_text hsp ht (c := ' ') (by decide) .nil (by simp [Closes])
  rw [List.append_nil] at hchain
  exact hchain.tail

theorem text_ne_nil (hsp : sp.Sound) (ht : ∀ w ∈ t.words, IsWord w) : t.text sp ≠ [] := by
  obtain ⟨c, s, hs, _⟩ := opens_text hsp ht []
  rw [List.append_nil] at hs
  rw [hs]
  exact List.cons_ne_nil c s

theorem trim_text (hsp : sp.Sound) (ht : ∀ w ∈ t.words, IsWord w) : trim (t.text sp) = t.text sp := by
  refine trim_of_ends (fun c hc => ?_) ?_
  · have hopens := opens_text hsp ht []
    rw [List.append_nil] at hopens
    exact hopens.not_blank c hc
  · induction t with
    | word w => exact fun c hc => isBlank_of_isWordChar ((ht w List.mem_cons_self).2 c (List.mem_of_mem_getLast? hc))
    | group t ih =>
      intro c hc
      rw [text, ← List.cons_append, List.getLast?_concat] at hc
      obtain rfl := Option.some.inj hc
      decide
    | negation t ih =>
      intro c hc
      rw [text, List.getLast?_append_of_ne_nil _ (text_ne_nil hsp (t := t) ht)] at hc
      exact ih ht c hc
    | binary o a b iha ihb =>
      have hb : ∀ w ∈ b.words, IsWord w := fun w hw => ht w (List.mem_append_right _ hw)
      intro c hc
      rw [text, ← List.append_assoc, List.getLast?_append_of_ne_nil _ (text_ne_nil hsp hb)] at hc
      exact ihb hb c hc

end Formula

/-! ### Creation of objects -/

/-- The words and signs of a formula. -/
inductive Token where
  | word (w : Text)
  | left
  | right
  | negation
  | sign (o : Connective)
  deriving DecidableEq, Repr

def Formula.tokens : Formula → List Token
  | word w => [.word w]
  | group t => .left :: (t.tokens ++ [.right])
  | negation t => .negation :: t.tokens
  | binary o a b => a.tokens ++ .sign o :: b.tokens

/-- How a dialect spells a word or sign. -/
def Token.spell (st : Style) : Token → Text
  | word w => w
  | left => "("
  | right => ")"
  | negation => st.keyword .notWord
  | sign o => st.sign o

/-- The name `new` comes before a sign that is spelled as a word, and a parenthesis comes after it. With an object
model this is taken for the creation of an object. -/
def Formula.Creates (st : Style) (t : Formula) : Prop :=
  st.objectModel = true ∧ ∃ y : Token, IsWord (y.spell st) ∧ [.word "new".toList, y, .left] <:+: t.tokens

theorem Formula.mem_words_of_mem_tokens {t : Formula} {w : Text} (h : .word w ∈ t.tokens) : w ∈ t.words := by
  induction t with
  | word v =>
    obtain rfl : w = v := by simpa [tokens] using h
    exact List.mem_cons_self
  | group t ih => exact ih (by simpa [tokens] using h)
  | negation t ih => exact ih (by simpa [tokens] using h)
  | binary o a b iha ihb =>
    have h : Token.word w ∈ a.tokens ∨ .word w ∈ b.tokens := by simpa [tokens] using h
    exact List.mem_append.mpr (h.imp iha ihb)

theorem Dialect.sign_cases (d : Dialect) (o : Connective) :
    IsWord (d.style.sign o) ∨ ∃ c, d.style.sign o = [c] ∧ isSignChar c = true := by
  cases o with
  | mod | and | or | intDiv => exact .inl (by cases d <;> decide)
  | add => exact .inr ⟨'+', rfl, by decide⟩
  | sub => exact .inr ⟨'-', rfl, by decide⟩
  | mul => exact .inr ⟨'*', rfl, by decide⟩
  | div => exact .inr ⟨'/', rfl, by decide⟩
  | eq => exact .inr ⟨'=', rfl, by decide⟩
  | ne => exact .inr ⟨'≠', rfl, by decide +kernel⟩
  | le => exact .inr ⟨'≤', rfl, by decide +kernel⟩
  | ge => exact .inr ⟨'≥', rfl, by decide +kernel⟩
  | lt => exact .inr ⟨'<', rfl, by decide⟩
  | gt => exact .inr ⟨'>', rfl, by decide⟩
  | pow => exact .inr ⟨'^', rfl, by decide⟩

theorem Dialect.sound_spelling (d : Dialect) : d.style.spelling.Sound := by
  refine ⟨fun o => ?_, .inr ⟨d.style.keyword .notWord, by cases d <;> decide, rfl⟩⟩
  rcases d.sign_cases o with hword | ⟨c, hc, hsign⟩
  · exact .inl hword
  · exact isMark_of_all (x := d.style.sign o) (by simp [hc]) (by simpa [hc] using hsign)

namespace Formula

variable {d : Dialect} {t : Formula}

private theorem lexemes_sign_append {c : Char} (hc : isSignChar c = true) (s : Text) :
    lexemes ([c] ++ ' ' :: s) = [c] :: lexemes s := by
  have hc : isBlank c = false := by
    have hplain : (isWordChar c = false ∧ isBlank c = false ∧ c ≠ '(') ∧ c ≠ ')' := by
      simpa [isSignChar, and_assoc] using hc
    exact hplain.1.2.1
  rw [← lexemes_cons_of_isBlank (c := ' ') (by decide) s]
  refine lexemes_cons_of_not_joins hc fun d hd => ?_
  obtain rfl : ' ' = d := Option.some.inj hd
  exact joins_of_isBlank c (by decide)

theorem lexemes_paren {c : Char} (hc : c = '(' ∨ c = ')') (s : Text) : lexemes (c :: s) = [c] :: lexemes s := by
  refine lexemes_cons_of_not_joins (by rcases hc with rfl | rfl <;> decide) fun e _ => ?_
  rcases hc with rfl | rfl
  · simp [joins, isDouble, show isWordChar '(' = false by decide]
  · simp [joins, isDouble, show isWordChar ')' = false by decide]

private theorem lexemes_text (ht : ∀ w ∈ t.words, IsWord w) {rest : Text} (hrest : Closes rest) :
    lexemes (t.text d.style.spelling ++ rest) = t.tokens.map (Token.spell d.style) ++ lexemes rest := by
  induction t generalizing rest with
  | word w =>
    obtain ⟨hne, hw⟩ := ht w List.mem_cons_self
    exact lexemes_of_edges (a := []) hne hw rfl hrest.not_word
  | group t ih =>
    have hinner : lexemes (t.text d.style.spelling ++ ')' :: rest) =
        t.tokens.map (Token.spell d.style) ++ lexemes (')' :: rest) :=
      ih ht (by rintro c ⟨⟩; exact .inr rfl)
    rw [text, List.cons_append, List.append_assoc, lexemes_paren (.inl rfl), List.singleton_append, hinner,
      lexemes_paren (.inr rfl)]
    simp [tokens, Token.spell]
  | negation t ih =>
    have hnot : IsWord (d.style.keyword .notWord) := by cases d <;> decide
    have hneg : d.style.spelling.negation ++ (t.text d.style.spelling ++ rest) =
        d.style.keyword .notWord ++ ' ' :: (t.text d.style.spelling ++ rest) := by
      simp [Style.spelling]
    rw [text, List.append_assoc, hneg, lexemes_word_append hnot, ih ht hrest]
    rfl
  | binary o a b iha ihb =>
    have hb : ∀ w ∈ b.words, IsWord w := fun w hw => ht w (List.mem_append_right _ hw)
    have hsign (s : Text) : lexemes (d.style.sign o ++ ' ' :: s) = d.style.sign o :: lexemes s := by
      rcases d.sign_cases o with hw | ⟨c, hc, hblank⟩
      · exact lexemes_word_append hw s
      · rw [hc]
        exact lexemes_sign_append hblank s
    have htext : (binary o a b).text d.style.spelling ++ rest = a.text d.style.spelling ++
        (' ' :: (d.style.sign o ++ ' ' :: (b.text d.style.spelling ++ rest))) := by
      simp [text, Style.spelling]
    rw [htext, iha (fun w hw => ht w (List.mem_append_left _ hw)) (by rintro c ⟨⟩; exact .inl rfl),
      lexemes_cons_of_isBlank (by decide), hsign, ihb hb hrest]
    simp [tokens, Token.spell]

private theorem exists_creation (ht : ∀ w ∈ t.words, IsWord w) {x : Text} {l l' : List Text} (hx : IsWord x)
    (h : lexemes (t.text d.style.spelling) = l ++ "new".toList :: x :: ['('] :: l') :
    ∃ y, IsWord (y.spell d.style) ∧ [.word "new".toList, y, .left] <:+: t.tokens := by
  have hall : t.tokens.map (Token.spell d.style) = l ++ "new".toList :: x :: ['('] :: l' := by
    have hlexemes : lexemes (t.text d.style.spelling ++ []) = t.tokens.map (Token.spell d.style) ++ lexemes [] :=
      lexemes_text ht (by simp [Closes])
    rw [List.append_nil, h] at hlexemes
    simpa using hlexemes.symm
  obtain ⟨ts₁, ts₂, heq, _, h₂⟩ := List.map_eq_append_iff.mp hall
  obtain ⟨y₁, ts₃, rfl, hy₁, h₃⟩ := List.map_eq_cons_iff.mp h₂
  obtain ⟨y₂, ts₄, rfl, rfl, h₄⟩ := List.map_eq_cons_iff.mp h₃
  obtain ⟨y₃, ts₅, rfl, hy₃, _⟩ := List.map_eq_cons_iff.mp h₄
  have hnew : y₁ = .word "new".toList := by
    cases y₁ with
    | word w => exact congrArg Token.word hy₁
    | left | right | negation => exact absurd hy₁ (by cases d <;> decide)
    | sign o => exact absurd hy₁ (by cases d <;> cases o <;> decide)
  have hparen : y₃ = .left := by
    cases y₃ with
    | left => rfl
    | right | negation => exact absurd hy₃ (by cases d <;> decide)
    | sign o => exact absurd hy₃ (by cases d <;> cases o <;> decide)
    | word w =>
      have hw := ht w (mem_words_of_mem_tokens (by rw [heq]; simp))
      obtain rfl : w = ['('] := hy₃
      exact absurd hw (by decide)
  refine ⟨y₂, hx, ts₁, ts₅, ?_⟩
  rw [heq, hnew, hparen]
  simp

end Formula

namespace Setting

variable {st : Setting} {d : Dialect} (hst : st.style = d.style) {t : Formula}

include hst in
private theorem newObject_text (ht : ∀ w ∈ t.words, IsWord w) (hnew : ¬ t.Creates d.style) :
    st.newObject (t.text d.style.spelling) = t.text d.style.spelling := by
  unfold newObject
  split
  · next hobjects =>
    refine replace_of_no_match fun seen u rest g hs hway => ?_
    obtain ⟨b₁, w, b₂, rfl, _, hb₁, hne, hw, hb₂, hwne⟩ := reads_creation (m := ⟨seen, u, g⟩) hway.reads
    have hword : IsWord "new".toList := by decide
    have hseen : seen.reverse.getLast?.any isWordChar = false := by
      have hedge := hway.isWordEdge rfl
      have hbefore := (isWordEdge_before hword.1 hword.2).mp (by simpa using hedge)
      simpa using hbefore
    have hafter : (b₁ ++ (w ++ (b₂ ++ '(' :: rest))).head?.any isWordChar = false := by
      obtain ⟨c, b, rfl⟩ := List.exists_cons_of_ne_nil hne
      exact isWordChar_of_isBlank (hb₁ c List.mem_cons_self)
    have hparen : (b₂ ++ '(' :: rest).head?.any isWordChar = false := by
      cases b₂ with
      | nil => exact (by decide : isWordChar '(' = false)
      | cons c b => exact isWordChar_of_isBlank (hb₂ c List.mem_cons_self)
    have hopen : lexemes ('(' :: rest) = ['('] :: lexemes rest := Formula.lexemes_paren (.inl rfl) rest
    have hlexemes : lexemes (t.text d.style.spelling) =
        lexemes seen.reverse ++ "new".toList :: w :: ['('] :: lexemes rest := by
      have htext : t.text d.style.spelling =
          seen.reverse ++ ("new".toList ++ (b₁ ++ (w ++ (b₂ ++ '(' :: rest)))) := by
        rw [hs]
        simp only [List.append_assoc, List.singleton_append]
      rw [htext, lexemes_of_edges hword.1 hword.2 hseen hafter, lexemes_append_left hb₁]
      have hrest := lexemes_of_edges (a := []) hwne hw rfl hparen
      rw [List.nil_append, lexemes_nil, List.nil_append, lexemes_append_left hb₂, hopen] at hrest
      rw [hrest]
    obtain ⟨y, hy, hin⟩ := Formula.exists_creation ht ⟨hwne, hw⟩ hlexemes
    exact absurd ⟨hst ▸ hobjects, y, hy, hin⟩ hnew
  · rfl

include hst in
private theorem respellCode_text (hwords : ∀ w ∈ t.words, IsWord w ∧ w ∉ st.convention.logicWords)
    (hsigns : st.convention = .braces → ∀ o ∈ t.connectives, o ≠ .intDiv ∧ o ≠ .pow)
    (hnew : ¬ t.Creates d.style) :
    st.respellCode (t.text st.convention.spelling) = t.text d.style.spelling := by
  have ht : ∀ w ∈ t.words, IsWord w := fun w hw => (hwords w hw).1
  have hready := st.convention.ready_spelling
  have hempty : (trim (t.text st.convention.spelling)).isEmpty = false := by
    rw [Formula.trim_text hready.toSound ht]
    simpa using Formula.text_ne_nil hready.toSound ht
  have hcalls := Formula.noCall_text (d.sound_spelling) ht
  have hdots : ∀ c ∈ t.text d.style.spelling, (c == '.') = false := by
    have hdot : '.' ∉ t.text d.style.spelling :=
      Formula.not_mem_text (by decide) (by decide) (by cases d <;> decide)
        (by cases d <;> intro o <;> cases o <;> decide) ht
    exact fun c hc => beq_false_of_ne fun heq => hdot (heq ▸ hc)
  have hlast : st.routineCalls (st.newObject (t.text d.style.spelling)) = t.text d.style.spelling := by
    rw [newObject_text hst ht hnew, routineCalls_of_noCall hcalls]
  have hstrings : st.stringCalls (t.text d.style.spelling) = t.text d.style.spelling :=
    replace_of_needs (q := (· == '.')) (by decide) hdots
  rw [respellCode, hempty, if_neg Bool.false_ne_true]
  cases hconv : st.convention with
  | indentation =>
    rw [hconv] at hwords hready
    have hpython : st.isPython = true := by simp [isPython, hconv]
    obtain ⟨harithmetic, h₁⟩ := pythonArithmetic_text hst hready ht
    obtain ⟨hcomparisons, h₂⟩ := comparisons_text hst h₁ ht
    have hlogic := pythonLogic_text hst h₂ hwords (by rwa [reasoned_indentation hst])
    rw [if_pos hpython, harithmetic, hcomparisons, hlogic, reasoned_indentation hst, hstrings, hlast]
  | braces =>
    rw [hconv] at hwords hready
    have hpython : st.isPython = false := by simp [isPython, hconv]
    have hkw (k : Keyword) : st.kw k = d.style.keyword k := by rw [kw, hst]
    obtain ⟨hcomparisons, h₁⟩ := comparisons_text hst hready ht
    have hlogic := javaLogic_text hst h₁ rfl
      (fun o => by simp only [compared, hkw]; cases d <;> cases o <;> decide) hwords
    have hspelled : t.text (st.reasoned .braces (st.compared Convention.braces.spelling)) = t.text d.style.spelling :=
      Formula.text_congr (fun o ho => (reasoned_braces hst).1 o (hsigns hconv o ho)) (reasoned_braces hst).2
    have hsource : ∀ c ∈ t.text Convention.braces.spelling, (c == '.') = false := by
      have hdot : '.' ∉ t.text Convention.braces.spelling :=
        Formula.not_mem_text (by decide) (by decide) (by decide) (fun o => by cases o <;> decide) ht
      exact fun c hc => beq_false_of_ne fun heq => hdot (heq ▸ hc)
    have hlength : st.lengthField (t.text d.style.spelling) = t.text d.style.spelling :=
      replace_of_needs (q := (· == '.')) (by decide) hdots
    rw [if_neg (by simp [hpython]), javaArithmetic_of_no_dot hsource, hcomparisons, hlogic, hspelled, hstrings,
      hlength, hlast]

end Setting

/-- In both conventions, both dialects and every state, the text of a formula becomes the text of the same formula
in the spelling of the dialect. Its words are none of the language, no text that is noted as a string consists of
its words and signs alone, and the name `new` is not taken for the creation of an object. -/
theorem operators_respelled {d : Dialect} {conv : Convention} {symbols : Symbols} {t : Formula}
    (hwords : ∀ w ∈ t.words, IsWord w ∧ w ∉ conv.logicWords)
    (hsigns : conv = .braces → ∀ o ∈ t.connectives, o ≠ .intDiv ∧ o ≠ .pow)
    (hstrings : ∀ p, symbols.notes.isString p = true → ∃ l ∈ lexemes p, l ∉ lexemes (t.text conv.spelling))
    (hnew : ¬ t.Creates d.style) :
    Setting.expr ⟨d.style, conv, symbols⟩ (t.text conv.spelling) = t.text d.style.spelling := by
  have ht : ∀ w ∈ t.words, IsWord w := fun w hw => (hwords w hw).1
  have hsound := conv.ready_spelling.toSound
  have htrim := Formula.trim_text hsound ht
  have hforeign {c : Char} (hc : c ∈ ['"', '\'', '[']) : c ∉ t.text conv.spelling := by
    have hall : ['"', '\'', '['].all (fun c => !isWordChar c && !"() ".toList.contains c &&
        !conv.spelling.negation.contains c) = true := by cases conv <;> decide
    have hplain := List.all_eq_true.mp hall c hc
    simp only [Bool.and_eq_true, Bool.not_eq_true', List.contains_iff_mem, ← Bool.not_eq_true] at hplain
    refine Formula.not_mem_text (by simpa using hplain.1.1) hplain.1.2 hplain.2 (fun o => ?_) ht
    have hsign : ['"', '\'', '['].all (fun c => !(conv.spelling.sign o).contains c) = true := by
      cases conv <;> cases o <;> decide
    simpa using List.all_eq_true.mp hsign c hc
  have hchars : ∀ c ∈ trim (t.text conv.spelling), isQuote c = false ∧ c ≠ '[' := by
    rw [htrim]
    intro c hc
    refine ⟨?_, fun heq => hforeign (by simp) (heq ▸ hc)⟩
    by_contra hquote
    have hquote : c = '"' ∨ c = '\'' := by simpa [isQuote, or_iff_not_imp_left] using hquote
    rcases hquote with rfl | rfl
    · exact hforeign (by simp) hc
    · exact hforeign (by simp) hc
  have hcalls := not_conversion_of_noCall (htrim ▸ Formula.noCall_text hsound ht)
  rw [expr_eq_respellCode hchars hcalls hstrings, htrim]
  exact Setting.respellCode_text rfl hwords hsigns hnew

/-- Words that begin or end as others do, signs that begin as others do, and a negation before a group. -/
theorem operators_respelled_nested :
    let t : Formula := .binary .and (.negation (.binary .eq (.group (.binary .add (.word "android") (.word "1")))
      (.binary .intDiv (.word "news") (.word "2")))) (.binary .ne (.binary .pow (.word "xor") (.word "3"))
      (.binary .mod (.word "not_a") (.word "b")))
    let symbols : Symbols := ⟨{}, { types := ⟨[("s", "STRING")]⟩ }⟩
    t.text Convention.indentation.spelling = "not (android + 1) == news // 2 and xor ** 3 != not_a % b".toList ∧
      Setting.expr ⟨.cambridge, .indentation, symbols⟩
        "not (android + 1) == news // 2 and xor ** 3 != not_a % b" =
          "NOT (android + 1) = news DIV 2 AND xor ^ 3 ≠ not_a MOD b".toList := by
  intro t symbols
  have htext : t.text Convention.indentation.spelling =
      "not (android + 1) == news // 2 and xor ** 3 != not_a % b".toList := by decide
  have hspelled : t.text Dialect.cambridge.style.spelling =
      "NOT (android + 1) = news DIV 2 AND xor ^ 3 ≠ not_a MOD b".toList := by decide
  refine ⟨htext, ?_⟩
  have hwords : ∀ w ∈ t.words, IsWord w ∧ w ∉ Convention.indentation.logicWords := by decide
  have hstrings : ∀ p, symbols.notes.isString p = true →
      ∃ l ∈ lexemes p, l ∉ lexemes (t.text Convention.indentation.spelling) := by
    intro p hp
    obtain rfl : p = "s".toList := by
      by_contra hne
      have hlookup : List.lookup p [("s".toList, "STRING".toList)] = some _ := of_decide_eq_true hp
      rw [List.lookup_cons, beq_false_of_ne hne] at hlookup
      cases hlookup
    exact ⟨"s".toList, by decide, by decide⟩
  have hnew : ¬ t.Creates Dialect.cambridge.style := by
    rintro ⟨_, y, _, hin⟩
    exact absurd (hin.subset List.mem_cons_self) (by decide)
  have hresult := operators_respelled hwords (by simp) hstrings hnew
  rwa [htext, hspelled] at hresult

/-- The name `new` before a conjunction with a group is taken for the creation of an object. -/
theorem name_taken_for_creation :
    let t : Formula := .binary .and (.word "new") (.group (.word "a"))
    t.Creates .cambridge ∧ t.text Convention.indentation.spelling = "new and (a)".toList ∧
      t.text Style.cambridge.spelling = "new AND (a)".toList ∧
      Setting.expr ⟨.cambridge, .indentation, {}⟩ "new and (a)" = "NEW AND(a)".toList := by
  refine ⟨⟨rfl, .sign .and, by decide, [], [.word "a".toList, .right], rfl⟩, by decide, by decide, by decide +kernel⟩

end Pseudocode
