import Pseudocode.Proofs.RuleEffects

/-! # The forms of what rules write

A rule that takes a line writes lines at the indentation that it was given, and all that it does comes in few forms.
It writes a statement. Or it opens a block, and the line of the header begins with a word that the dialect has for
such blocks. Or it opens a routine, whose header is provisional. Besides it may note types and records, or that the
innermost routine returns a value. All that later proofs need of the rules one by one is proved here in one pass over
each list of rules. -/

namespace Pseudocode

open Text

/-! ### Indentation -/

/-- A line is empty or stands at an indentation. -/
def StandsAt (indent line : Text) : Prop := line = [] ∨ indent <+: line

def AllStandAt (indent : Text) (lines : List Text) : Prop := ∀ line ∈ lines, StandsAt indent line

section

variable {indent : Text}

@[simp] theorem allStandAt_nil : AllStandAt indent [] := List.forall_mem_nil _

@[simp] theorem allStandAt_cons {line : Text} {lines : List Text} :
    AllStandAt indent (line :: lines) ↔ StandsAt indent line ∧ AllStandAt indent lines :=
  List.forall_mem_cons

@[simp] theorem allStandAt_append {lines lines' : List Text} :
    AllStandAt indent (lines ++ lines') ↔ AllStandAt indent lines ∧ AllStandAt indent lines' :=
  List.forall_mem_append

@[simp] theorem allStandAt_map {α : Type} {f : α → Text} {xs : List α} :
    AllStandAt indent (xs.map f) ↔ ∀ x ∈ xs, StandsAt indent (f x) :=
  List.forall_mem_map

@[simp] theorem allStandAt_ite {p : Prop} [Decidable p] {lines lines' : List Text} :
    AllStandAt indent (if p then lines else lines') ↔
      (p → AllStandAt indent lines) ∧ (¬p → AllStandAt indent lines') := by
  split <;> simp_all

theorem allStandAt_mapIdx {α : Type} {f : Nat → α → Text} (h : ∀ i x, StandsAt indent (f i x))
    (xs : List α) : AllStandAt indent (xs.mapIdx f) := by
  intro line hline
  obtain ⟨i, hi, rfl⟩ := List.mem_mapIdx.mp hline
  exact h i _

@[simp] theorem standsAt_nil : StandsAt indent [] := .inl rfl

end

namespace Context

variable (cx : Context)

@[simp] theorem line_withNotes (notes : Notes) (text : Text) : (cx.withNotes notes).line text = cx.line text := rfl

@[simp] theorem inner_withNotes (notes : Notes) (text : Text) : (cx.withNotes notes).inner text = cx.inner text := rfl

@[simp] theorem assign_withNotes (notes : Notes) (target value : Text) :
    (cx.withNotes notes).assign target value = cx.assign target value := rfl

@[simp] theorem standsAt_line (text : Text) : StandsAt cx.indent (cx.line text) := .inr ⟨text, rfl⟩

@[simp] theorem standsAt_inner (text : Text) : StandsAt cx.indent (cx.inner text) :=
  .inr ⟨_, (List.append_assoc ..).symm⟩

@[simp] theorem standsAt_assign (target value : Text) : StandsAt cx.indent (cx.assign target value) :=
  cx.standsAt_line _

@[simp] theorem standsAt_assignInner (target value : Text) :
    StandsAt cx.indent (cx.assignInner target value) :=
  cx.standsAt_inner _

@[simp] theorem standsAt_declaration (name type : Text) :
    StandsAt cx.indent (cx.declaration name type) :=
  cx.standsAt_line _

@[simp] theorem standsAt_conditionHeader (first last : Keyword) (cond : Text) :
    StandsAt cx.indent (cx.conditionHeader first last cond) :=
  cx.standsAt_line _

@[simp] theorem standsAt_callLine (call : Text) : StandsAt cx.indent (cx.callLine call) := cx.standsAt_line _

/-- Lines at the indentation of a context, with a context that knows more names. -/
def Noting (p : List Text × Context) : Prop :=
  (∃ notes, p.2 = cx.withNotes notes) ∧ AllStandAt cx.indent p.1

variable {cx} {p q : List Text × Context}

theorem Noting.refl : cx.Noting ([], cx) := ⟨⟨cx.notes, rfl⟩, allStandAt_nil⟩

theorem Noting.noted (notes : Notes) : cx.Noting ([], cx.withNotes notes) := ⟨⟨notes, rfl⟩, allStandAt_nil⟩

theorem Noting.ite {c : Prop} [Decidable c] (hp : cx.Noting p) (hq : cx.Noting q) :
    cx.Noting (if c then p else q) := by
  split
  · exact hp
  · exact hq

theorem Noting.declareOnce (name type : Text) {text : Text} (h : StandsAt cx.indent text) :
    cx.Noting (cx.declareOnce name type text) :=
  .ite .refl ⟨⟨_, rfl⟩, by simp [h]⟩

theorem Noting.indent (h : cx.Noting p) : p.2.indent = cx.indent := by
  obtain ⟨⟨notes, hcx⟩, _⟩ := h
  rw [hcx]
  rfl

theorem Noting.trans (h : cx.Noting p) (h' : p.2.Noting q) : cx.Noting (p.1 ++ q.1, q.2) := by
  obtain ⟨⟨notes, hcx⟩, hlines⟩ := h
  obtain ⟨⟨notes', hcx'⟩, hlines'⟩ := h'
  rw [hcx] at hcx' hlines'
  exact ⟨⟨notes', hcx'⟩, allStandAt_append.mpr ⟨hlines, hlines'⟩⟩

end Context

/-! ### Words that open blocks -/

/-- The words with which headers of a kind begin. -/
def Dialect.openingWords (d : Dialect) : Kind → List Text
  | .ifBranch => ["IF"]
  | .elseIfBranch => ["ELSE IF"]
  | .elseBranch => ["ELSE"]
  | .forLoop =>
    match d with
    | .ib => ["loop"]
    | .cambridge => ["FOR"]
  | .whileLoop => ["WHILE"]
  | .repeatLoop => ["REPEAT"]
  | .function | .procedure => ["FUNCTION", "PROCEDURE", "PUBLIC", "PRIVATE"]
  | .classBody => ["CLASS"]
  | .tryBranch => ["TRY"]
  | .catchBranch => ["CATCH"]
  | .finallyBranch => ["FINALLY"]

/-- A text begins like the header of a block. -/
def Style.Heads (st : Style) (kind : Kind) (text : Text) : Prop :=
  ∀ d : Dialect, st = d.style → ∃ word ∈ d.openingWords kind, word <+: text

namespace Style

variable {st : Style} {kind : Kind} {text : Text}

theorem Heads.append (h : st.Heads kind text) (more : Text) : st.Heads kind (text ++ more) := by
  intro d hd
  obtain ⟨word, hword, hprefix⟩ := h d hd
  exact ⟨word, hword, hprefix.trans (List.prefix_append ..)⟩

theorem heads_keyword {word : Keyword}
    (h : ∀ d ∈ [Dialect.ib, .cambridge], d.style.keyword word ∈ d.openingWords kind) :
    st.Heads kind (st.keyword word) := by
  rintro d rfl
  exact ⟨_, h d (by cases d <;> decide), List.prefix_refl _⟩

private theorem prefix_replaceAll {c : Char} {lead cs s : Text} (hlead : c ∉ lead) (h : lead <+: s) (new : Text) :
    lead <+: replaceAll (c :: cs) new s := by
  obtain ⟨rest, rfl⟩ := h
  induction lead with
  | nil => exact List.nil_prefix
  | cons d lead ih =>
    rw [List.mem_cons, not_or] at hlead
    simp only [replaceAll] at ih ⊢
    rw [List.cons_append, replaceFrom, if_neg (by simp [List.isPrefixOf, hlead.1])]
    exact List.cons_prefix_cons.mpr ⟨rfl, ih hlead.2⟩

private theorem prefix_fill {lead template : Text}
    (hlead : '{' ∉ lead) (h : lead <+: template) (slots : List (Text × Text)) :
    lead <+: fill template slots := by
  unfold fill
  induction slots generalizing template with
  | nil => exact h
  | cons slot slots ih => exact ih (prefix_replaceAll hlead h slot.2)

/-- A counting loop begins with the word of its template. -/
theorem heads_forHeader (var start stop : Text) (step : Option Text) :
    st.Heads .forLoop (st.forHeader var start stop step) := by
  rintro d rfl
  obtain ⟨word, hword, hbrace, htemplate⟩ : ∃ word ∈ d.openingWords .forLoop, '{' ∉ word ∧
      word <+: d.style.forTemplate := by
    cases d with
    | ib => exact ⟨"loop", by decide, by decide, by decide⟩
    | cambridge => exact ⟨"FOR", by decide, by decide, by decide⟩
  have hfilled := prefix_fill hbrace htemplate [("var", var), ("start", start), ("end", stop)]
  refine ⟨word, hword, ?_⟩
  unfold forHeader
  dsimp only
  split
  · exact hfilled.trans (List.prefix_append ..)
  · exact hfilled

theorem heads_classHeader (name : Text) (base : Option Text) :
    st.Heads .classBody (match base with
      | some base => st.keyword .classWord ++ " " ++ name ++ " " ++ st.keyword .inheritsWord ++ " " ++ base
      | none => st.keyword .classWord ++ " " ++ name) := by
  have hname := ((heads_keyword (by decide) : st.Heads .classBody (st.keyword .classWord)).append " ").append name
  cases base with
  | some base => exact (((hname.append _).append _).append _).append _
  | none => exact hname

theorem heads_routineKeyword (kind' : Kind) (hkind : kind = .function ∨ kind = .procedure) :
    st.Heads kind (Routine.keyword st kind') := by
  unfold Routine.keyword
  split
  · rcases hkind with rfl | rfl <;> exact heads_keyword (by decide)
  · rcases hkind with rfl | rfl <;> exact heads_keyword (by decide)

end Style

theorem Routine.heads_header (st : Style) (r : Routine) (returns : Bool) (type : Option Text) :
    st.Heads .function (r.header st returns type) := by
  have hlead : st.Heads .function (r.visibility st ++ keyword st (r.kind st returns)) := by
    unfold visibility
    split
    · split
      · exact ((Style.heads_keyword (by decide)).append _).append _
      · exact ((Style.heads_keyword (by decide)).append _).append _
    · exact Style.heads_routineKeyword _ (.inl rfl)
  have htext := ((((hlead.append " ").append (r.spelledName st)).append "(").append
    (join ", " ((r.writtenParams st).map (parameterText st)))).append ")"
  unfold header
  dsimp only
  split
  · exact ((htext.append _).append _).append _ |>.append _
  · exact htext

theorem Braced.Method.heads_header (st : Style) (m : Method) : st.Heads (m.kind st) (m.header st) := by
  have hkind : m.kind st = .function ∨ m.kind st = .procedure := by
    unfold kind
    split
    · exact .inr rfl
    · exact .inl rfl
  have hlead : st.Heads (m.kind st) (m.visibility st ++ Routine.keyword st (m.kind st)) := by
    unfold visibility
    split
    · split
      · rcases hkind with h | h <;> rw [h] <;> exact ((Style.heads_keyword (by decide)).append _).append _
      · rcases hkind with h | h <;> rw [h] <;> exact ((Style.heads_keyword (by decide)).append _).append _
    · exact Style.heads_routineKeyword _ hkind
  exact (((((hlead.append _).append _).append _).append _).append _).append _

/-- Among the lines for a block one begins like its header. Before it there is one line at most, at the same
indentation. -/
def Context.Headed (cx : Context) (kind : Kind) (lines : List Text) : Prop :=
  ∃ before text rest, lines = (before ++ [text]).map cx.line ++ rest ∧ before.length ≤ 1 ∧ cx.style.Heads kind text

theorem Context.Headed.first {cx : Context} {kind : Kind} {text : Text} (h : cx.style.Heads kind text)
    (rest : List Text) : cx.Headed kind (cx.line text :: rest) :=
  ⟨[], text, rest, rfl, Nat.zero_le _, h⟩

/-! ### Forms -/

/-- What a line may open. A block has a header, and the line ends unlike a statement. Only the header of a routine in
an indented source is provisional; it is the one line that is written for it. -/
inductive Opening (cx : Context) (code : Text) (lines : List Text) : Option Block → Prop
  | nothing : Opening cx code lines none
  | block {b : Block} (bare : b.routine = none) (ends : code.getLast? ≠ some ';')
      (headed : cx.Headed b.kind lines) : Opening cx code lines (some b)
  | routine {r : Routine} (indented : cx.convention = .indentation) (ends : code.getLast? ≠ some ';')
      (provisional : lines = [cx.line (r.header cx.style false none)]) (index : r.headerIndex = cx.written)
      (plain : r.Plain) : Opening cx code lines (some (.ofRoutine r))

/-- What a rule may make of a line. -/
structure Form (cx : Context) (code : Text) (noted : Notes → Prop) (o : Outcome) : Prop where
  stands : AllStandAt cx.indent o.lines
  opening : Opening cx code o.lines o.opens
  noted : noted o.notes

namespace Opening

variable {cx : Context} {code : Text} {lines : List Text} {b : Block}

theorem headed (h : Opening cx code lines (some b)) : cx.Headed b.kind lines := by
  cases h with
  | block _ _ headed => exact headed
  | @routine r _ _ provisional _ _ =>
    rw [provisional]
    exact .first (r.heads_header cx.style false none) []

theorem ends (h : Opening cx code lines (some b)) : code.getLast? ≠ some ';' := by
  cases h with
  | block _ ends _ => exact ends
  | routine _ ends => exact ends

end Opening

namespace Form

variable {cx cx' : Context} {code : Text} {noted : Notes → Prop}

theorem statement {lines : List Text} (hlines : AllStandAt cx.indent lines) (hnoted : noted cx'.notes) :
    Form cx code noted (cx'.writes lines) :=
  ⟨hlines, .nothing, hnoted⟩

/-- Lines that come with more notes, and lines in the context that has them. -/
theorem noting {p : List Text × Context} {lines : List Text} (h : cx.Noting p) (hlines : AllStandAt p.2.indent lines)
    (hnoted : noted p.2.notes) : Form cx code noted (p.2.writes (p.1 ++ lines)) :=
  .statement (allStandAt_append.mpr ⟨h.2, h.indent ▸ hlines⟩) hnoted

theorem header {text : Text} {rest : List Text} {b : Block} (hbare : b.routine = none)
    (hends : code.getLast? ≠ some ';') (hheads : cx.style.Heads b.kind text)
    (hrest : AllStandAt cx.indent rest) (hnoted : noted cx'.notes) :
    Form cx code noted (cx'.opens (cx.line text :: rest) b) :=
  ⟨allStandAt_cons.mpr ⟨cx.standsAt_line text, hrest⟩, .block hbare hends (.first hheads rest), hnoted⟩

/-- A header between two words. -/
theorem condition {first last : Keyword} {cond : Text} {kind : Kind} (hends : code.getLast? ≠ some ';')
    (hfirst : ∀ d ∈ [Dialect.ib, .cambridge], d.style.keyword first ∈ d.openingWords kind)
    (hnoted : noted cx.notes) : Form cx code noted (cx.opens [cx.conditionHeader first last cond] { kind }) := by
  have hheads : cx.style.Heads kind (cx.kw first ++ " " ++ cx.expr cond ++ " " ++ cx.kw last) :=
    (((Style.heads_keyword hfirst).append _).append _ |>.append _).append _
  exact .header rfl hends hheads allStandAt_nil hnoted

theorem word {word : Keyword} {kind : Kind} (hends : code.getLast? ≠ some ';')
    (hword : ∀ d ∈ [Dialect.ib, .cambridge], d.style.keyword word ∈ d.openingWords kind)
    (hnoted : noted cx.notes) : Form cx code noted (cx.outcome (cx.wordHeader word kind)) :=
  .header rfl hends (Style.heads_keyword hword) allStandAt_nil hnoted

theorem collectionLoop (var collection : Text) (hends : code.getLast? ≠ some ';') (hnoted : noted cx.notes) :
    Form cx code noted (cx.outcome (cx.collectionLoop var collection)) := by
  unfold Context.collectionLoop
  cases hloop : cx.style.collectionLoop with
  | forEach =>
    refine .header rfl hends ?_ allStandAt_nil hnoted
    intro d hd
    cases d with
    | ib =>
      rw [hd] at hloop
      cases hloop
    | cambridge => exact ⟨"FOR", List.mem_singleton_self _, _, rfl⟩
  | iterator =>
    refine ⟨by simp [Context.outcome, Translation.header], .block rfl hends ?_, hnoted⟩
    -- the line that sets the collection back comes before the header
    refine ⟨[_], _, [_], rfl, Nat.le_refl 1, ?_⟩
    intro d hd
    cases d with
    | ib => exact ⟨"loop", List.mem_singleton_self _, _, rfl⟩
    | cambridge =>
      rw [hd] at hloop
      cases hloop

end Form

/-! ### What is accepted -/

/-- If there is a result, it has a property. -/
def Accepted {α : Type} (P : α → Prop) (x : Option α) : Prop := ∀ a ∈ x, P a

namespace Accepted

variable {α β : Type} {P : β → Prop} {Q : Outcome → Prop} {cx : Context} {code : Text} {p : Pattern}

theorem none : Accepted P none := by
  rintro b ⟨⟩

theorem some {b : β} (h : P b) : Accepted P (some b) := by
  rintro b ⟨⟩
  exact h

theorem bind {x : Option α} {f : α → Option β} (h : ∀ a ∈ x, Accepted P (f a)) : Accepted P (x >>= f) := by
  intro b hb
  obtain ⟨a, ha, hb⟩ := Option.bind_eq_some_iff.mp hb
  exact h a ha b hb

theorem ite {c : Prop} [Decidable c] {x y : Option β} (hx : Accepted P x) (hy : Accepted P y) :
    Accepted P (if c then x else y) := by
  split
  · exact hx
  · exact hy

/-- A pattern may tell how a line ends. -/
theorem whole? (hp : p.canEnd ';' = false) {f : Match → Option β}
    (h : ∀ m, p.whole? code = Option.some m → code.getLast? ≠ Option.some ';' → Accepted P (f m)) :
    Accepted P (p.whole? code >>= f) := by
  refine .bind fun m hm => h m hm fun hlast => ?_
  rw [Pattern.whole?_eq_none_of_canEnd hp hlast] at hm
  cases hm

theorem fits (hp : p.canEnd ';' = false) {f : Unit → Option β}
    (h : code.getLast? ≠ Option.some ';' → Accepted P (f ())) :
    Accepted P (guard (p.fits code = true) >>= f) := by
  refine .bind fun _ hfits => h fun hlast => ?_
  rw [Pattern.fits, Pattern.whole?_eq_none_of_canEnd hp hlast] at hfits
  cases hfits

theorem reading {f : Context → Text → Option Translation} (h : Accepted (Q <| cx.outcome ·) (f cx code)) :
    Accepted Q (Converter.reading f cx code) := by
  rw [Converter.reading_apply]
  intro o ho
  obtain ⟨c, hc, rfl⟩ := Option.map_eq_some_iff.mp ho
  exact h c hc

theorem computes {c : Converter} {f : Context → Text → Option Outcome} (hf : c.Computes f)
    (h : Accepted Q (f cx code)) : Accepted Q (c cx code) := by
  rw [hf.apply_eq]
  exact h

end Accepted

/-- Two results are both missing, or both there and related. -/
inductive AcceptAlike {α β : Type} (R : α → β → Prop) : Option α → Option β → Prop
  | none : AcceptAlike R none none
  | some {a : α} {b : β} (h : R a b) : AcceptAlike R (some a) (some b)

namespace AcceptAlike

variable {α β γ δ : Type} {R : γ → δ → Prop} {Q : Outcome → Outcome → Prop} {cx cx' : Context} {code : Text}

theorem bind {x : Option α} {f : α → Option γ} {g : α → Option δ} (h : ∀ a, AcceptAlike R (f a) (g a)) :
    AcceptAlike R (x >>= f) (x >>= g) := by
  cases x with
  | none => exact .none
  | some a => exact h a

/-- What comes of a check may be spelled differently. -/
theorem bind_of_isSome {x : Option α} {y : Option β} (hxy : x.isSome = y.isSome) {f : α → Option γ}
    {g : β → Option δ} (h : ∀ a b, AcceptAlike R (f a) (g b)) : AcceptAlike R (x >>= f) (y >>= g) := by
  cases x with
  | none =>
    cases y with
    | none => exact .none
    | some b => cases hxy
  | some a =>
    cases y with
    | none => cases hxy
    | some b => exact h a b

theorem ite {c : Prop} [Decidable c] {x x' : Option γ} {y y' : Option δ} (h : AcceptAlike R x y)
    (h' : AcceptAlike R x' y') : AcceptAlike R (if c then x else x') (if c then y else y') := by
  split
  · exact h
  · exact h'

theorem reading {f : Context → Text → Option Translation}
    (h : AcceptAlike (fun c d => Q (cx.outcome c) (cx'.outcome d)) (f cx code) (f cx' code)) :
    AcceptAlike Q (Converter.reading f cx code) (Converter.reading f cx' code) := by
  rw [Converter.reading_apply, Converter.reading_apply]
  generalize f cx code = x, f cx' code = y at h ⊢
  cases h with
  | none => exact .none
  | some h => exact .some h

theorem computes {c : Converter} {f : Context → Text → Option Outcome} (hf : c.Computes f)
    (h : AcceptAlike Q (f cx code) (f cx' code)) : AcceptAlike Q (c cx code) (c cx' code) := by
  rw [hf.apply_eq, hf.apply_eq]
  exact h

theorem map_eq {f : γ → α} {g : δ → α} {x : Option γ} {y : Option δ}
    (h : AcceptAlike (fun c d => f c = g d) x y) : x.map f = y.map g := by
  cases h with
  | none => rfl
  | some h => exact congrArg Option.some h

end AcceptAlike

/-! ### Indented sources -/

namespace Indented

/-- What a rule may note: that a record is declared, that the innermost routine returns a value, or something that
matters to neither. -/
inductive Noted (cx : Context) (rule code : Text) (n : Notes) : Prop
  | learnt (learns : cx.notes.Learns n)
  | record (dictionary : rule = "dict_literal") (record : Text)
      (declares : n = { cx.notes with declaredRecords := cx.notes.declaredRecords.add record })
  | result {value : Text} (returned : returned? code = some value)
      (marks : n = cx.notes.markReturn cx.blocks (returnType? cx value))

namespace Noted

variable {cx : Context} {rule code : Text} {n : Notes}

theorem same : Noted cx rule code cx.notes := .learnt (.refl _)

theorem clear (h : Noted cx rule code n) (hclear : cx.notes.Clear) : n.Clear := by
  cases h with
  | learnt learns => exact learns.clear hclear
  | record _ _ declares => exact declares ▸ ⟨hclear.types, hclear.returnTypes⟩
  | result _ marks => exact marks ▸ hclear.markReturn _ (slash_not_mem_returnType? hclear _)

theorem records (h : Noted cx rule code n) (hrule : rule ≠ "dict_literal".toList) :
    n.declaredRecords = cx.notes.declaredRecords := by
  cases h with
  | learnt learns => exact learns.records
  | record dictionary => exact absurd dictionary hrule
  | result _ marks => exact marks ▸ cx.notes.declaredRecords_markReturn _ _

theorem returns (h : Noted cx rule code n) (hcode : returned? code = none) :
    n.returns = cx.notes.returns := by
  cases h with
  | learnt learns => exact learns.returns
  | record _ _ declares => rw [declares]
  | result returned _ => cases hcode.symm.trans returned

end Noted

variable (cx : Context) (code : Text) {rule : Text}

private theorem form_defRule (hc : cx.convention = .indentation) :
    Accepted (Form cx code (Noted cx rule code)) (defRule cx code) := by
  refine .computes computes_defRule (.whole? (by decide) fun m hm hends => .some ?_)
  have hplain : (routineOf cx (m.group 1) (m.group 2)).Plain :=
    ⟨Pattern.not_mem_group (by decide +kernel) hm, fun p hp => head?_of_mem_parameterNames hp⟩
  refine ⟨allStandAt_cons.mpr ⟨cx.standsAt_line _, allStandAt_nil⟩, .routine hc hends rfl rfl hplain, .learnt ?_⟩
  generalize (m.group? 3).bind DataType.ofPython? = type
  cases type with
  | none => exact .refl _
  | some type => exact .addReturnType _ _ type.slash_not_mem_name

private theorem form_returnRule : Accepted (Form cx code (Noted cx rule code)) (returnRule cx code) := by
  refine .computes computes_returnRule (.bind fun m hm => ?_)
  cases hvalue : trim (m.group 1) with
  | nil => exact .some (.statement (by simp) .same)
  | cons c cs =>
    have hreturned : returned? code = some (c :: cs) := by
      rw [returned?, show returnPattern.whole? code = some m from hm]
      simp only [Option.bind_some, hvalue]
    exact .some (.statement (by simp) (.result hreturned rfl))

private theorem allStandAt_assignEach (saved : List Text) (pairs : List (Text × Text)) :
    AllStandAt cx.indent (assignEach saved cx pairs).1 := by
  induction pairs generalizing cx with
  | nil => simp [assignEach]
  | cons pair rest ih => exact allStandAt_cons.mpr ⟨cx.standsAt_assign _ _, ih (cx.withNotes _)⟩

private theorem form_dictRule : Accepted (Form cx code (Noted cx "dict_literal" code)) (dictRule cx code) := by
  refine .computes computes_dictRule (.bind fun m _ => .bind fun _ _ => .bind fun pairs _ => .ite ?_ ?_)
  · exact .some (.statement (by simp) .same)
  · unfold recordOnce
    split
    · exact .some (.statement (by simp) .same)
    · exact .some (.statement (by simp [recordLines]) (.record rfl _ rfl))

private theorem form_listRule : Accepted (Form cx code (Noted cx rule code)) (listRule cx code) := by
  refine .computes computes_listRule (.bind fun m _ => .bind fun _ _ => .ite ?_ ?_)
  · exact .some (.statement (by simp) .same)
  · exact .some (.noting (.declareOnce _ _ (cx.standsAt_line _))
      (allStandAt_mapIdx (fun _ _ => Context.standsAt_assign ..) _)
      (.learnt (.declareOnce _ _ (slash_not_mem_arrayOf _) _)))

private theorem form_instanceRule : Accepted (Form cx code (Noted cx rule code)) (instanceRule cx code) := by
  refine .computes computes_instanceRule (.bind fun m hm => .bind fun _ _ => ?_)
  have hcls : '/' ∉ m.group 2 := Pattern.not_mem_group (by decide +kernel) hm
  unfold objectOnce
  split
  · exact .some (.noting (.declareOnce _ _ (cx.standsAt_declaration _ _)) (by simp)
      (.learnt (.declareOnce _ _ hcls _)))
  · exact .some (.statement (by simp) .same)

/-- What rules make of a line. -/
theorem form_rules (hc : cx.convention = .indentation) :
    ∀ r ∈ rules, Accepted (Form cx code (Noted cx r.name code)) (r.apply cx code) := by
  simp only [rules, List.forall_mem_cons]
  exact
    ⟨.reading (.bind fun _ _ => .some (.statement (by simp) .same)),
     .reading (.bind fun _ _ => .some (.statement (by simp) .same)),
     .reading (.whole? (by decide) fun m _ hends => .some
       (.header rfl hends (Style.heads_classHeader _ _) (by simp [fieldLines]) .same)),
     form_defRule cx code hc,
     form_returnRule cx code,
     .reading (.whole? (by decide) fun _ _ hends => .some (.condition hends (by decide) .same)),
     .reading (.whole? (by decide) fun _ _ hends => .some (.condition hends (by decide) .same)),
     .reading (.fits (by decide) fun hends => .some (.word hends (by decide) .same)),
     .reading (.whole? (by decide) fun _ _ hends => .bind fun _ _ => .some
       (.header rfl hends (Style.heads_forHeader _ _ _ _) allStandAt_nil .same)),
     .reading (.whole? (by decide) fun _ _ hends => .some (.collectionLoop _ _ hends .same)),
     .reading (.whole? (by decide) fun _ _ hends => .some (.condition hends (by decide) .same)),
     .reading (.fits (by decide) fun hends => .some (.word hends (by decide) .same)),
     .reading (.whole? (by decide) fun m _ hends => .some (by
       refine .header rfl hends ?_ allStandAt_nil .same
       split
       · exact Style.heads_keyword (by decide)
       · exact ((Style.heads_keyword (by decide)).append _).append _)),
     .reading (.fits (by decide) fun hends => .some (.word hends (by decide) .same)),
     .reading (.bind fun _ _ => .some (.statement (by simp) .same)),
     .computes computes_lambdaRule (.bind fun _ _ => .some (.statement (by simp) (.learnt (.addLambda ..)))),
     .reading (.bind fun _ _ => .bind fun _ _ => .some (.statement (by simp) .same)),
     .computes computes_inputRule (.bind fun _ _ => .bind fun _ _ => .bind fun _ _ => .some
       (.statement (by simp) (.learnt (.addType _ _ (DataType.slash_not_mem_name _))))),
     .reading (.bind fun _ _ => .some (.statement (by simp) .same)),
     .computes computes_multipleRule (.bind fun _ _ => .bind fun _ _ => .some
       (.statement (by simp [allStandAt_assignEach]) (.learnt (.assignEach ..)))),
     form_dictRule cx code,
     form_listRule cx code,
     form_instanceRule cx code,
     .computes computes_constantRule (.bind fun _ _ => .bind fun _ _ => .bind fun _ _ => .bind fun _ _ => .some
       (.statement (by simp) (.learnt (.addType _ _ (DataType.slash_not_mem_name _))))),
     .computes computes_assignmentRule (.bind fun _ _ => .bind fun _ _ => .some
       (.statement (by simp) (.learnt (by
         change cx.notes.Learns (if _ then _ else _)
         split
         · exact .addTypeOf ..
         · exact .refl _)))),
     .reading (.bind fun _ _ => .bind fun _ _ => .bind fun _ _ => .some (.statement (by simp) .same)),
     List.forall_mem_nil _⟩

end Indented

/-! ### Braced sources -/

namespace Braced

variable (cx : Context) (code : Text)

theorem noting_declared (var type : Text) : cx.Noting (declared cx var type) :=
  .ite (.declareOnce var type (cx.standsAt_declaration var type)) (.noted _)

private theorem noting_declaredAll (type : Text) (vars : List Text) : cx.Noting (declaredAll type cx vars) := by
  induction vars generalizing cx with
  | nil => exact .refl
  | cons var vars ih => exact (noting_declared cx var type).trans (ih _)

private theorem noting_declaredRead (m : Match) : cx.Noting (declaredRead cx m) := by
  unfold declaredRead
  split
  · exact noting_declared ..
  · exact .noted _

private theorem noting_declaredArray (array type : Text) (count : Nat) :
    cx.Noting (declaredArray cx array type count) :=
  .ite (.declareOnce _ _ (cx.standsAt_line _)) .refl

private theorem form_scannerRule : Accepted (Form cx code fun _ => True) (scannerRule cx code) := by
  refine .computes computes_scannerRule ?_
  unfold scannerOutcome?
  split
  · exact .some (.statement (by simp) trivial)
  · exact .bind fun _ _ => .bind fun _ _ => .some (.statement (by simp) trivial)

private theorem form_arrayRule : Accepted (Form cx code fun _ => True) (arrayRule cx code) := by
  refine .computes computes_arrayRule ?_
  unfold arrayOutcome?
  split
  · exact .bind fun _ _ => .some (.statement (by simp) trivial)
  · refine .bind fun m _ => .bind fun _ _ => .some (.statement ?_ trivial)
    simpa using (noting_declaredArray cx _ _ _).2

private theorem form_fieldOutcome (mods : List Text) (type : Text) (vars : List Text) (value : Option Text) :
    Form cx code (fun _ => True) (fieldOutcome cx mods type vars value) := by
  unfold fieldOutcome
  split
  · exact .statement (by simp) trivial
  · cases value with
    | some value => exact .statement (by simp) trivial
    | none => exact .statement (by simp) trivial

private theorem form_variableOutcome (type : Text) (vars : List Text) (value : Option Text) :
    Form cx code (fun _ => True) (variableOutcome cx type vars value) := by
  have hdeclared := noting_declaredAll cx type vars
  unfold variableOutcome
  cases value with
  | some value => exact .noting hdeclared (by simp) trivial
  | none => exact .statement hdeclared.2 trivial

private theorem form_declarationOutcome (mods : List Text) (type : Text) (vars : List Text) (value : Option Text) :
    Form cx code (fun _ => True) (declarationOutcome cx mods type vars value) := by
  have hfields := form_fieldOutcome cx code mods type vars value
  have hvariables := form_variableOutcome cx code type vars value
  unfold declarationOutcome
  cases value with
  | some v =>
    dsimp only
    split
    · exact .statement (by simp) trivial
    · split
      · exact hfields
      · exact hvariables
  | none =>
    dsimp only
    split
    · exact hfields
    · exact hvariables

theorem form_rules : ∀ r ∈ rules, Accepted (Form cx code fun _ => True) (r.apply cx code) := by
  simp only [rules, List.forall_mem_cons]
  exact
    ⟨.reading (.bind fun _ _ => .some (.statement (by simp) trivial)),
     form_scannerRule cx code,
     .reading (.whole? (by decide) fun m _ hends => .some
       (.header rfl hends (Style.heads_classHeader _ _) allStandAt_nil trivial)),
     .computes computes_methodRule (.whole? (by decide) fun m _ hends => .bind fun _ _ => .bind fun _ _ =>
       .bind fun _ _ => .some (.header rfl hends (Method.heads_header _ _) allStandAt_nil trivial)),
     .reading (.whole? (by decide) fun _ _ hends => .some (.condition hends (by decide) trivial)),
     .reading (.whole? (by decide) fun _ _ hends => .some (.condition hends (by decide) trivial)),
     .reading (.fits (by decide) fun hends => .some (.word hends (by decide) trivial)),
     .computes computes_countRule (.whole? (by decide) fun m _ hends => .bind fun _ _ => .some
       (.header rfl hends (Style.heads_forHeader _ _ _ _) allStandAt_nil trivial)),
     .reading (.whole? (by decide) fun _ _ hends => .some (.collectionLoop _ _ hends trivial)),
     .reading (.whole? (by decide) fun _ _ hends => .some (.condition hends (by decide) trivial)),
     .reading (.bind fun _ _ => .some (.statement (by simp [Context.whileHeader]) trivial)),
     .reading (.fits (by decide) fun hends => .some (.word hends (by decide) trivial)),
     .reading (.fits (by decide) fun hends => .some (.word hends (by decide) trivial)),
     .reading (.whole? (by decide) fun m _ hends => .some
       (.header rfl hends (((Style.heads_keyword (by decide)).append _).append _) allStandAt_nil trivial)),
     .reading (.fits (by decide) fun hends => .some (.word hends (by decide) trivial)),
     .reading (.bind fun _ _ => by split <;> exact .some (.statement (by simp) trivial)),
     .reading (.bind fun _ _ => .some (.statement (by simp) trivial)),
     .computes computes_inputRule (.bind fun m _ => .bind fun _ _ => .some
       (.statement (by simpa using (noting_declaredRead cx m).2) trivial)),
     form_arrayRule cx code,
     .computes computes_declarationRule (.bind fun _ _ => .bind fun _ _ => .bind fun _ _ => .some
       (form_declarationOutcome ..)),
     .reading (.bind fun _ _ => .some (.statement (by simp) trivial)),
     .reading (.bind fun _ _ => .some (.statement (by simp) trivial)),
     .reading (.bind fun _ _ => .bind fun _ _ => .bind fun _ _ => .some (.statement (by simp) trivial)),
     .reading (.bind fun _ _ => .bind fun _ _ => .some (.statement (by simp) trivial)),
     List.forall_mem_nil _⟩

end Braced

/-! ### Conversions -/

def Convention.Noted : Convention → Context → Text → Text → Notes → Prop
  | .indentation => Indented.Noted
  | .braces => fun _ _ _ _ => True

theorem Context.form_rules (cx : Context) (code : Text) : ∀ r ∈ cx.convention.rules,
    Accepted (Form cx code (cx.convention.Noted cx r.name code)) (r.apply cx code) := by
  cases hc : cx.convention with
  | indentation => exact Indented.form_rules cx code hc
  | braces => exact Braced.form_rules cx code

theorem Context.exists_of_convert? {cx : Context} {code rule : Text} {o : Outcome}
    (h : cx.convert? code = some (rule, o)) :
    ∃ r ∈ cx.convention.rules, r.name = rule ∧ r.apply cx code = some o := by
  obtain ⟨r, hmem, happly⟩ := List.exists_of_findSome?_eq_some h
  obtain ⟨o', ho', heq⟩ := Option.map_eq_some_iff.mp happly
  obtain ⟨hname, rfl⟩ := Prod.mk.inj heq
  exact ⟨r, hmem, hname, ho'⟩

/-- A rule that alone has its name is the one that takes a line under this name. -/
theorem Context.apply_of_convert? {cx : Context} {code name : Text} {o : Outcome}
    (h : cx.convert? code = some (name, o)) {c : Converter}
    (hname : ∀ r ∈ cx.convention.rules, r.name = name → r.apply = c) : c cx code = some o := by
  obtain ⟨r, hmem, hr, happly⟩ := exists_of_convert? h
  rwa [hname r hmem hr] at happly

theorem Context.form_of_convert? {cx : Context} {code rule : Text} {o : Outcome}
    (h : cx.convert? code = some (rule, o)) : Form cx code (cx.convention.Noted cx rule code) o := by
  obtain ⟨r, hmem, rfl, happly⟩ := exists_of_convert? h
  exact cx.form_rules code r hmem o happly

namespace Indented

private theorem head?_of_returned {code value : Text} (h : returned? code = some value) :
    code.head? = some 'r' := by
  obtain ⟨m, hm, _⟩ := Option.bind_eq_some_iff.mp h
  obtain ⟨_, _, _, _, rfl, _, hlead, _⟩ := Pattern.reads_append.mp (Pattern.reads_of_whole? hm)
  obtain ⟨_, _, _, _, rfl, _, hword, _⟩ := Pattern.reads_append.mp hlead
  obtain ⟨_, _, _, _, rfl, _, htext, _⟩ := Pattern.reads_append.mp hword
  obtain ⟨rfl, _⟩ := Pattern.reads_text.mp htext
  rfl

/-- A line that returns a value is taken by the rule for results: the rules before it need other first letters. -/
theorem exists_convert?_of_returned {cx : Context} (hc : cx.convention = .indentation)
    {code value : Text} (h : returned? code = some value) :
    ∃ rule o, cx.convert? code = some (rule, o) ∧
      o.notes = cx.notes.markReturn cx.blocks (returnType? cx value) := by
  have hfirst := head?_of_returned h
  have hpass : passRule cx code = none := by
    have hne : code ≠ "pass".toList := by
      rintro rfl
      cases hfirst
    rw [passRule, Converter.reading_apply, guard_of_neg hne]
    rfl
  have himport : importRule cx code = none := by
    have hleads : importPattern.leads code = false :=
      Pattern.leads_eq_false_of_canBegin (by decide +kernel) (by decide) hfirst
    rw [importRule, Converter.reading_apply, hleads]
    rfl
  have hclass : classRule cx code = none := by
    have hwhole : classPattern.whole? code = none :=
      Pattern.whole?_eq_none_of_canBegin (by decide +kernel) hfirst
    rw [classRule, Converter.reading_apply, hwhole]
    rfl
  have hdef : defRule cx code = none := by
    have hwhole : defPattern.whole? code = none :=
      Pattern.whole?_eq_none_of_canBegin (by decide +kernel) hfirst
    rw [computes_defRule.apply_eq, defOutcome?, hwhole]
    rfl
  obtain ⟨lines, hreturn⟩ : ∃ lines, returnRule cx code =
      some ((cx.withNotes (cx.notes.markReturn cx.blocks (returnType? cx value))).writes lines) := by
    obtain ⟨m, hm, hvalue⟩ := Option.bind_eq_some_iff.mp h
    rw [computes_returnRule.apply_eq, returnOutcome?, hm]
    cases htrim : trim (m.group 1) with
    | nil => simp [htrim] at hvalue
    | cons c cs =>
      obtain rfl : c :: cs = value := by simpa [htrim] using hvalue
      exact ⟨_, by simp only [Option.bind_eq_bind, Option.bind_some, htrim]; rfl⟩
  have hconvert : cx.convert? code = some ("return".toList,
      (cx.withNotes (cx.notes.markReturn cx.blocks (returnType? cx value))).writes lines) := by
    simp [Context.convert?, hc, Convention.rules, rules, hpass, himport, hclass, hdef, hreturn]
  exact ⟨_, _, hconvert, rfl⟩

/-- A line that returns no value marks no routine, and one that does marks the innermost. -/
theorem marks_of_convert? {cx : Context} (hc : cx.convention = .indentation) {code rule : Text} {o : Outcome}
    (h : cx.convert? code = some (rule, o)) :
    match returned? code with
    | none => o.notes.returns = cx.notes.returns
    | some value => o.notes = cx.notes.markReturn cx.blocks (returnType? cx value) := by
  cases hvalue : returned? code with
  | none =>
    have hform := cx.form_of_convert? h
    rw [hc] at hform
    exact hform.noted.returns hvalue
  | some value =>
    obtain ⟨_, _, hconvert, hmarks⟩ := exists_convert?_of_returned hc hvalue
    obtain ⟨_, rfl⟩ := Prod.mk.inj (Option.some.inj (h.symm.trans hconvert))
    exact hmarks

end Indented

end Pseudocode
