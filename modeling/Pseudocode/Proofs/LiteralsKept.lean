import Pseudocode.Proofs.RoutineNames
import Pseudocode.Proofs.SubscriptsAndSums

/-! # String literals stay as they are

The spelling of an expression works on its code. Two steps before that read the whole text: subscripts of
strings become calls, and conversions inside a sum are dropped. So the literals of a braced source are kept
unless the subscript of a string begins or ends in one of them, or one is not closed and runs to the parenthesis
of a conversion. -/

namespace Pseudocode

open Text Pattern

namespace Text

/-! ### Characters of literals -/

/-- The characters of literals, each with the part that it plays. -/
def quotedFrom (m : Mode) (s : Text) : List (Char × Role) := (rolesFrom m s).filter fun x => x.2 ≠ .code

theorem quotedFrom_cons (m : Mode) (c : Char) (s : Text) : quotedFrom m (c :: s) =
    if m.role c = .code then quotedFrom (m.next c) s else (c, m.role c) :: quotedFrom (m.next c) s := by
  rw [quotedFrom, rolesFrom, List.filter_cons]
  split <;> simp_all [quotedFrom]

/-- What is cut from the characters of literals. -/
def cutQuoted (m : Mode) (s : Text) : SegmentRun :=
  (quotedFrom m s).foldr (fun x => SegmentRun.push x.1 x.2) .empty

private theorem cut_eq_cutQuoted (m : Mode) (s : Text) :
    (SegmentRun.cut m s).rest.map Prod.fst = (cutQuoted m s).rest.map Prod.fst ∧
      (m ≠ .code → (SegmentRun.cut m s).run = (cutQuoted m s).run ∧
        (SegmentRun.cut m s).closed = (cutQuoted m s).closed) := by
  induction s generalizing m with
  | nil => exact ⟨rfl, fun _ => ⟨rfl, rfl⟩⟩
  | cons c s ih =>
    obtain ⟨hrest, hinside⟩ := ih (m.next c)
    have hcut : cutQuoted m (c :: s) =
        if m.role c = .code then cutQuoted (m.next c) s
        else SegmentRun.push c (m.role c) (cutQuoted (m.next c) s) := by
      rw [cutQuoted, quotedFrom_cons]
      split <;> rfl
    rw [SegmentRun.cut_cons, hcut]
    cases hrole : m.role c with
    | code => exact ⟨hrest, fun hm => absurd hrole (role_ne_code hm c)⟩
    | closing => exact ⟨hrest, fun _ => ⟨rfl, rfl⟩⟩
    | body =>
      have hnext : m.next c ≠ .code := by
        cases m with
        | code => simp [Mode.role, ite_eq_iff] at hrole
        | literal q =>
          have hne : c ≠ q := fun h => by simp [Mode.role, h] at hrole
          rw [Mode.next, if_neg hne]
          split <;> simp
        | escaped q => simp [Mode.next]
      obtain ⟨hrun, hclosed⟩ := hinside hnext
      refine ⟨hrest, fun _ => ⟨?_, hclosed⟩⟩
      exact congrArg (c :: ·) hrun
    | opening =>
      have hmode : m = .code ∧ isQuote c = true := by
        cases m with
        | code => exact ⟨rfl, by simpa [Mode.role] using hrole⟩
        | literal q => simp [Mode.role, ite_eq_iff] at hrole
        | escaped q => simp [Mode.role] at hrole
      have hnext : m.next c ≠ .code := by
        rw [hmode.1, Mode.next, if_pos hmode.2]
        simp
      obtain ⟨hrun, hclosed⟩ := hinside hnext
      refine ⟨?_, fun hm => absurd hmode.1 hm⟩
      simp only [SegmentRun.push, reduceCtorEq, if_false, List.map_cons, hrun, hclosed, hrest]

theorem literals_eq_of_quoted {s t : Text} (h : quotedFrom .code s = quotedFrom .code t) :
    literals s = literals t := by
  have hliterals (s : Text) : literals s = (cutQuoted .code s).rest.map Prod.fst := (cut_eq_cutQuoted .code s).1
  rw [hliterals, hliterals, cutQuoted, cutQuoted, h]

/-- Notes the characters of literals. -/
def noteQuoted (out : List (Char × Role)) (x : Char × Role) : Option (List (Char × Role)) :=
  some (if x.2 = .code then out else out ++ [x])

theorem read_noteQuoted (m : Mode) (out : List (Char × Role)) (s : Text) :
    read noteQuoted m out s = some (out ++ quotedFrom m s) := by
  induction s generalizing m out with
  | nil => simp [quotedFrom, rolesFrom]
  | cons c s ih =>
    rw [read_cons, noteQuoted, Option.bind_some, ih, quotedFrom_cons]
    split
    · rfl
    · rw [List.append_assoc, List.singleton_append]

private theorem quotedFrom_append (m : Mode) (s t : Text) :
    quotedFrom m (s ++ t) = quotedFrom m s ++ quotedFrom (m.after s) t := by
  rw [quotedFrom, rolesFrom_append, List.filter_append]
  rfl

private theorem quotedFrom_of_no_quote {s : Text} (hs : ∀ c ∈ s, isQuote c = false) : quotedFrom .code s = [] := by
  rw [quotedFrom, rolesFrom_of_no_quote hs]
  simp

/-- A text whose literals are closed ends in code. -/
theorem after_of_closed {s : Text} (h : ∀ l ∈ literals s, l.closed = true) : Mode.code.after s = .code := by
  have hrest (rest : List (Literal × Text)) (hrest : SoundRest rest)
      (h : ∀ l ∈ rest.map Prod.fst, l.closed = true) : Mode.code.after (restText rest) = .code := by
    induction rest with
    | nil => rfl
    | cons y rest ih =>
      obtain ⟨hy, hcode, _, hsound⟩ := hrest
      obtain ⟨hclosed, h⟩ := List.forall_mem_cons.mp h
      rw [restText, List.flatMap_cons, Mode.after_append, Mode.after_append, hy.after_text hclosed,
        after_of_no_quote hcode]
      exact ih hsound h
  rw [text_segments s, Mode.after_append, after_of_no_quote (isQuote_lead s)]
  exact hrest _ (soundRest_segments s) h

theorem getLast?_of_not_closed {s : Text} (h : Mode.code.after s ≠ .code) :
    s.getLast? = (quotedFrom .code s).getLast?.map Prod.fst := by
  cases s using List.reverseRecOn with
  | nil => exact absurd rfl h
  | append_singleton s c =>
    have hrole : (Mode.code.after s).role c ≠ .code := by
      intro hrole
      have hmode : Mode.code.after s = .code := eq_code_of_role hrole
      rw [hmode] at hrole
      have hquote : isQuote c = false := by
        by_contra hq
        simp [Mode.role, Bool.not_eq_false _ ▸ hq] at hrole
      rw [Mode.after_append, hmode, Mode.after_cons, (code_of_no_quote hquote).2] at h
      exact h rfl
    rw [quotedFrom_append, quotedFrom_cons, if_neg hrole]
    simp [quotedFrom, rolesFrom]

end Text

/-! ### Expressions -/

namespace Setting

variable {out : List (Char × Role)}

theorem skipsCode_noteQuoted : SkipsCode noteQuoted := fun _ _ _ => rfl

theorem read_code {s : Text} (hs : ∀ c ∈ s, isQuote c = false) : read noteQuoted .code out s = some out := by
  rw [read_noteQuoted, quotedFrom_of_no_quote hs, List.append_nil]

private theorem roundsSquares_noteQuoted : RoundsSquares noteQuoted := by
  intro out a₁ a₂ b x _ hopen hread hclose
  obtain rfl := Option.some.inj hopen
  exact ⟨out, a₂, rfl, hread, hclose⟩

private theorem keeps_dropConversion {p : Text} (hp : Mode.code.after p = .code ∨ p.getLast? ≠ some ')') :
    Keeps noteQuoted .code out p (dropConversion p) := by
  unfold dropConversion
  split
  · next inner hinner =>
    split
    · have heq := eq_append_of_between? hinner
      subst heq
      have hlead : ∀ c ∈ "str(".toList, isQuote c = false := no_quote_of_all (by decide)
      have hclose : ∀ c ∈ ")".toList, isQuote c = false := no_quote_of_all (by decide)
      rw [Mode.after_append, after_of_no_quote hlead, Mode.after_append] at hp
      have hcode : Mode.code.after inner = .code := by
        by_contra hne
        rcases hp with hp | hp
        · exact after_ne_code (Mode.Sound.after (m := .code) trivial inner) hne hclose hp
        · exact hp (by rw [← List.append_assoc]; exact List.getLast?_concat)
      intro b hb
      rw [read_append, read_code hlead, Option.bind_some, after_of_no_quote hlead, read_append_eq_some] at hb
      obtain ⟨c, hread, hend⟩ := hb
      rw [hcode, read_code hclose] at hend
      obtain rfl := Option.some.inj hend
      refine ⟨hread, ?_⟩
      rw [Mode.after_append, after_of_no_quote hlead, Mode.after_append, hcode, after_of_no_quote hclose]
    · exact Keeps.refl _ _ _ _
  · exact Keeps.refl _ _ _ _

variable {st : Setting} {d : Dialect} (hst : st.style = d.style)

/-- Whether subscripts of names that are noted as strings are rewritten. -/
def IndexesStrings (st : Setting) : Prop :=
  st.style.substrings = true ∧ ∃ p, st.symbols.notes.isString p = true

theorem stringIndex_of_not {s : Text} (h : ¬ st.IndexesStrings) : st.stringIndex s = s := by
  unfold stringIndex
  split
  · next hstyle => exact replace_of_text (fun m => if_neg fun hname => h ⟨hstyle, _, hname⟩) s
  · rfl

include hst in
private theorem keeps_literals_stringIndex {s : Text}
    (hindex : st.IndexesStrings → ∀ l ∈ literals s, l.Unsubscripted st.indexes) :
    Keeps noteQuoted .code [] s (st.stringIndex s) := by
  by_cases h : st.IndexesStrings
  · obtain ⟨seen, hread⟩ := exists_read_of_unsubscripted (hindex h)
    exact keeps_stringIndex hst skipsCode_noteQuoted roundsSquares_noteQuoted (subscriptsInCode_of_read hread)
  · rw [stringIndex_of_not h]
    exact Keeps.refl _ _ _ _

include hst in
theorem literals_expr (hbraces : st.convention = .braces)
    (hrecords : st.symbols.survey.records.entries = []) {e : Text}
    (hindex : st.IndexesStrings → ∀ l ∈ literals (trim e), l.Unsubscripted st.indexes)
    (hclosed : (∀ l ∈ literals (trim e), l.closed = true) ∨ (trim e).getLast? ≠ some ')') :
    literals (st.expr e) = literals (trim e) := by
  have hpython : st.isPython = false := by simp [isPython, hbraces]
  have hfield (s : Text) : st.fieldAccess s = s := by simp [fieldAccess, hrecords]
  obtain ⟨hread₁, hafter₁⟩ := keeps_literals_stringIndex hst hindex _ (read_noteQuoted .code [] (trim e))
  -- a literal that is not closed ends the text before and after subscripts are rewritten
  have hlast (hopen : Mode.code.after (trim e) ≠ .code) : (st.stringIndex (trim e)).getLast? = (trim e).getLast? := by
    have hsame := hread₁
    rw [read_noteQuoted, List.nil_append, List.nil_append] at hsame
    rw [getLast?_of_not_closed hopen, getLast?_of_not_closed (hafter₁ ▸ hopen), Option.some.inj hsame]
  have hend : Mode.code.after (st.stringIndex (trim e)) = .code ∨
      ∀ c ∈ (st.stringIndex (trim e)).getLast?, isBlank c = false := by
    by_cases hcode : Mode.code.after (trim e) = .code
    · exact .inl (hafter₁.trans hcode)
    · rw [hlast hcode]
      exact .inr fun c hc => isBlank_of_mem_getLast?_trim hc
  have hdrop (p : Text) (hp : Mode.code.after p = .code ∨
      Mode.code.after (st.stringIndex (trim e)) ≠ .code ∧ p.getLast? = (st.stringIndex (trim e)).getLast?)
      (out : List (Char × Role)) : Keeps noteQuoted .code out p (dropConversion p) := by
    refine keeps_dropConversion (hp.imp_right fun h => ?_)
    have hopen := hafter₁ ▸ h.1
    rw [h.2, hlast hopen]
    exact hclosed.resolve_left fun h => hopen (after_of_closed h)
  obtain ⟨hread₂, _⟩ := keeps_concatenate hst skipsCode_noteQuoted hend (fun p _ => hdrop p) _ hread₁
  have hcode (u : Text) (hu : ∀ c ∈ u, isQuote c = false) (out : List (Char × Role)) :
      Keeps noteQuoted .code out u (st.respellCode u) := by
    have hquotes := no_quote_respellCode hst hu
    intro out' hout
    rw [read_code hu] at hout
    rw [read_code hquotes, after_of_no_quote hquotes, after_of_no_quote hu]
    exact ⟨hout, rfl⟩
  have hread₃ : read noteQuoted .code [] (st.expr e) = some ([] ++ quotedFrom .code (trim e)) := by
    simp only [expr, hpython, hfield, Bool.false_eq_true, if_false]
    exact read_mapCode (by simp) rfl hcode hread₂
  rw [read_noteQuoted] at hread₃
  exact literals_eq_of_quoted (by simpa using hread₃)

end Setting

/-! ### Braced sources -/

private theorem Symbols.records_surveyBraced (lines : List Line) (s : Symbols) :
    (s.surveyBraced lines).survey.records = s.survey.records := by
  have hcode (scopes : ClassScopes) (depth : Nat) (code : Text) (s : Survey) :
      (surveyBracedCode scopes depth code s).2.records = s.records := by
    unfold surveyBracedCode
    split
    · rfl
    split
    · dsimp only
      split <;> rfl
    split
    · dsimp only
      split <;> rfl
    split <;> rfl
  refine List.foldlRecOn (motive := fun acc : (ClassScopes × Nat) × Survey => acc.2.records = s.survey.records)
    lines _ rfl fun acc hacc line _ => ?_
  exact (hcode acc.1.1 acc.1.2 line.code acc.2).trans hacc

/-- In every state of a braced source and whatever is noted, the literals of an expression are those of its
source: quotes, bodies and order. Where names are noted as strings, no subscript of one of them may begin in a
literal, and no subscript may end in a literal that begins before it. A literal that is not closed may not end with
a parenthesis. -/
theorem literals_kept {d : Dialect} {lines : List Line} {x : Line × Passage}
    (hx : x ∈ Run.journalOf ⟨.braces, d⟩ lines) (notes : Notes) {e : Text} :
    let st : Setting := ⟨d.style, .braces, { x.2.entered.symbols with notes := notes }⟩
    (st.IndexesStrings → ∀ l ∈ literals (trim e), l.Unsubscripted st.indexes) →
    ((∀ l ∈ literals (trim e), l.closed = true) ∨ (trim e).getLast? ≠ some ')') →
    literals (st.expr e) = literals (trim e) := by
  intro st hindex hclosed
  refine Setting.literals_expr (d := d) rfl rfl ?_ hindex hclosed
  change x.2.entered.symbols.survey.records.entries = []
  rw [Run.survey_journalOf hx]
  exact congrArg Table.entries (Symbols.records_surveyBraced _ {})

/-- A literal with a quote, a subscript of another name and a sign of addition beside a subscript that is
rewritten. -/
theorem literals_kept_subscript :
    let lines : List Line :=
      [⟨1, .code, [], 0, "String text = \"abc\";", none⟩, ⟨2, .code, [], 0, "n = 1;", none⟩]
    let e : Text := "\"it's a[0] + (b)\" + text[ 0 ]"
    ∃ x ∈ Run.journalOf ⟨.braces, .cambridge⟩ lines,
      Setting.IndexesStrings ⟨.cambridge, .braces, x.2.entered.symbols⟩ ∧
      literals (Setting.expr ⟨.cambridge, .braces, x.2.entered.symbols⟩ e) = [⟨'"', "it's a[0] + (b)", true⟩] := by
  intro lines e
  have hnoted : (Run.journalOf ⟨.braces, .cambridge⟩ lines)[1]?.any (fun x =>
      x.2.entered.symbols.notes.isString "text" && decide (∀ l ∈ literals (trim e),
        l.Unsubscripted (Setting.indexes ⟨.cambridge, .braces, x.2.entered.symbols⟩))) = true := by
    decide +kernel
  obtain ⟨x, hx, hfacts⟩ := (Option.any_eq_true _ _).mp hnoted
  obtain ⟨hstring, hunsubscripted⟩ := Bool.and_eq_true_iff.mp hfacts
  have hx := List.mem_of_getElem? hx
  have hliterals : literals (trim e) = [⟨'"', "it's a[0] + (b)", true⟩] := by decide +kernel
  refine ⟨x, hx, ⟨rfl, "text", hstring⟩, ?_⟩
  rw [← hliterals]
  refine literals_kept hx x.2.entered.symbols.notes (fun _ => of_decide_eq_true hunsubscripted) (.inl ?_)
  rw [hliterals]
  decide

/-- A subscript inside a literal is rewritten like one outside. -/
theorem literal_taken_for_subscript :
    let lines : List Line :=
      [⟨1, .code, [], 0, "String text = \"abc\";", none⟩,
       ⟨2, .code, [], 0, "System.out.println(\"text[0]\");", none⟩]
    (Run.ofLines ⟨.braces, .cambridge⟩ lines).state.output =
        ["DECLARE text : STRING".toList, "text ← \"abc\"".toList, "OUTPUT \"MID(text, 0, 1)\"".toList] ∧
      literals "\"text[0]\"" = [⟨'"', "text[0]", true⟩] ∧
      literals "\"MID(text, 0, 1)\"" = [⟨'"', "MID(text, 0, 1)", true⟩] := by
  decide +kernel

end Pseudocode
