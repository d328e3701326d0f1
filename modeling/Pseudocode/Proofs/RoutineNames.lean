import Pseudocode.Proofs.PreparedCalls
import Pseudocode.Proofs.RoutineHeaders
import Pseudocode.Proofs.RoutineSpelling
import Pseudocode.Proofs.SurveyedRoutines
import Mathlib.Data.List.Infix

/-! # Routines are called by the names in their headers

The header of a routine carries its name in the spelling of the dialect, and stays in the output. A call is
spelled by what the survey has noted. So the calls of a routine match its header whenever the survey reads
that header: always in indented sources, and in braced sources unless the header is written in a way that
only the rule for methods understands. -/

namespace Pseudocode

open Text Pattern

/-! ### Along a run -/

namespace Run

theorem exists_passage {o : Options} {lines : List Line} {x : Line × Passage}
    (hx : x ∈ journalOf o lines) : ∃ following r, x.2 = passage o x.1 following r := by
  let P (_ : List (Line × Passage)) (_ : Run) : Prop := True
  have hstart : P [] (start o lines) := trivial
  obtain ⟨_, hbefore⟩ := journalOf_induction (P := P) (o := o) (fun _ _ _ _ _ => trivial) hstart
  obtain ⟨k, hk⟩ := List.getElem?_of_mem hx
  obtain ⟨following, r, hp, _⟩ := hbefore k x.1 x.2 hk
  exact ⟨following, r, hp⟩

private theorem survey_step (o : Options) (line : Line) (following : List Line) (r : Run) :
    (r.passage o line following).entered.symbols.survey = r.state.symbols.survey ∧
      (r.step o line following).state.symbols.survey = r.state.symbols.survey := by
  cases hl : line.isCode with
  | false =>
    obtain ⟨lines, hlines⟩ := exists_step_eq_of_not_code o hl following r
    rw [passage_of_not_code o hl, hlines]
    exact ⟨rfl, rfl⟩
  | true =>
    have hconverted : (r.passage o line following).converted.symbols.survey =
        (r.passage o line following).entered.symbols.survey := by
      cases r.handled_passage o line following with
      | passed _ _ _ symbols => rw [symbols]
      | taken _ _ symbols _ => rw [symbols]
    have hentered := (State.enter_alike o.dialect.style o.dialect.style o.convention line
      (rfl : Line.nextCode following = _) (rfl : r.state.outline = _)).symbols
    have hleft := (State.leave_alike o.dialect.style o.dialect.style o.convention line
      (rfl : Line.nextCode following = _)
      (rfl : (r.converted o line following).2.state.outline = _)
      (rfl : (r.entryOf o line following).code = _) rfl
      (rfl : (r.converted o line following).1.map Block.outline = _)).symbols
    rw [step_of_code o hl, codeLine_eq]
    rw [passage_of_code o hl] at hconverted ⊢
    dsimp only at hconverted ⊢
    rw [hleft, hconverted, hentered]
    exact ⟨rfl, rfl⟩

theorem survey_journalOf {o : Options} {lines : List Line} {x : Line × Passage}
    (hx : x ∈ journalOf o lines) :
    x.2.entered.symbols.survey = (({} : Symbols).surveyed o.convention lines).survey := by
  let P (_ : List (Line × Passage)) (r : Run) : Prop :=
    r.state.symbols.survey = (({} : Symbols).surveyed o.convention lines).survey
  have hstart : P [] (start o lines) := rfl
  obtain ⟨_, hbefore⟩ := journalOf_induction (P := P)
    (fun _ line following r h => (r.survey_step o line following).2.trans h) hstart
  obtain ⟨k, hk⟩ := List.getElem?_of_mem hx
  obtain ⟨following, r, hp, hr⟩ := hbefore k x.1 x.2 hk
  rw [hp, (r.survey_step o x.1 following).1, hr]

private theorem grows_passage {d : Dialect} {r : Run} (h : r.state.Bare) (line : Line)
    (following : List Line) :
    (r.passage ⟨.braces, d⟩ line following).converted.output <+:
        (r.step ⟨.braces, d⟩ line following).state.output ∧
      r.state.Grows (r.step ⟨.braces, d⟩ line following).state := by
  cases hl : line.isCode with
  | false =>
    obtain ⟨lines, hlines⟩ := exists_step_eq_of_not_code ⟨.braces, d⟩ hl following r
    rw [passage_of_not_code _ hl, hlines]
    exact ⟨List.prefix_refl _, h, List.prefix_append _ _⟩
  | true =>
    obtain ⟨hentered, htaken⟩ := (State.enter_alike d.style d.style .braces line
      (rfl : Line.nextCode following = _) (rfl : r.state.outline = _)).grows h
    have hnest := sameNesting_passage ⟨.braces, d⟩ line following r
    have houtput := (r.handled_passage ⟨.braces, d⟩ line following).output
    have hopened := r.routine_of_opened_braces d line following
    rw [step_of_code _ hl, codeLine_eq]
    rw [passage_of_code _ hl] at hnest houtput hopened ⊢
    dsimp only at hnest houtput hopened ⊢
    have hbare : (r.converted ⟨.braces, d⟩ line following).2.state.Bare := by
      rw [State.Bare, hnest.blocks]
      exact hentered.bare
    have hleft := (State.leave_alike d.style d.style .braces line
      (rfl : Line.nextCode following = _)
      (rfl : (r.converted ⟨.braces, d⟩ line following).2.state.outline = _)
      (rfl : (r.entryOf ⟨.braces, d⟩ line following).code = _) rfl
      (rfl : (r.converted ⟨.braces, d⟩ line following).1.map Block.outline = _)).grows hbare hopened htaken
    exact ⟨hleft.output, hleft.bare, (hentered.output.trans houtput).trans hleft.output⟩

theorem prefix_ofLines {d : Dialect} {lines : List Line} {x : Line × Passage}
    (hx : x ∈ journalOf ⟨.braces, d⟩ lines) :
    x.2.converted.output <+: (ofLines ⟨.braces, d⟩ lines).state.output := by
  let P (done : List (Line × Passage)) (r : Run) : Prop :=
    r.state.Bare ∧ ∀ x ∈ done, x.2.converted.output <+: r.state.output
  have hstep (done : List (Line × Passage)) (line : Line) (following : List Line) (r : Run)
      (h : P done r) : P (done ++ [(line, r.passage ⟨.braces, d⟩ line following)])
        (r.step ⟨.braces, d⟩ line following) := by
    obtain ⟨hconverted, hgrows⟩ := grows_passage (d := d) h.1 line following
    refine ⟨hgrows.bare, List.forall_mem_append.mpr ⟨?_, List.forall_mem_singleton.mpr hconverted⟩⟩
    exact fun x hx => (h.2 x hx).trans hgrows.output
  have hstart : P [] (start ⟨.braces, d⟩ lines) := by
    refine ⟨?_, List.forall_mem_nil _⟩
    rw [State.Bare, (sameNesting_start ⟨.braces, d⟩ lines).blocks]
    exact List.forall_mem_nil _
  obtain ⟨⟨hbare, hdone⟩, _⟩ := journalOf_induction hstep hstart
  have hclosed := State.grows_closeMany d.style hbare
    (steps ⟨.braces, d⟩ lines (start ⟨.braces, d⟩ lines)).state.blocks.length
  exact ((hdone x hx).trans hclosed.output).trans (List.prefix_append _ _)

end Run

/-! ### Headers of routines -/

/-- The name of the rule that takes the headers of routines. -/
def Convention.routineRule : Convention → Text
  | .indentation => "def"
  | .braces => "method"

/-- The name in the header of a routine that is no constructor. -/
def Context.routineName? (cx : Context) (code : Text) : Option Text :=
  match cx.convention with
  | .indentation =>
    (Indented.defPattern.whole? code).bind fun m =>
      if (Indented.routineOf cx (m.group 1) (m.group 2)).isConstructor then none else some (m.group 1)
  | .braces =>
    (Braced.methodPattern.whole? code).bind fun m =>
      if (m.group? 2).isSome then some (m.group 3) else none

theorem Context.routineName?_of_indentation {cx : Context} (hc : cx.convention = .indentation)
    {code n : Text} (h : cx.routineName? code = some n) :
    ∃ m, Indented.defPattern.whole? code = some m ∧ m.group 1 = n ∧
      (Indented.routineOf cx (m.group 1) (m.group 2)).isConstructor = false := by
  rw [routineName?, hc] at h
  obtain ⟨m, hm, hif⟩ := Option.bind_eq_some_iff.mp h
  obtain ⟨hc, hif⟩ := Option.ite_none_left_eq_some.mp hif
  exact ⟨m, hm, Option.some.inj hif, by simpa using hc⟩

theorem Context.routineName?_of_braces {cx : Context} (hc : cx.convention = .braces) {code n : Text}
    (h : cx.routineName? code = some n) :
    ∃ m, Braced.methodPattern.whole? code = some m ∧ m.group 3 = n ∧ (m.group? 2).isSome = true := by
  rw [routineName?, hc] at h
  obtain ⟨m, hm, hif⟩ := Option.bind_eq_some_iff.mp h
  obtain ⟨htype, hif⟩ := Option.ite_none_right_eq_some.mp hif
  exact ⟨m, hm, Option.some.inj hif, htype⟩

theorem Context.routineName?_nil (cx : Context) : cx.routineName? [] = none := by
  refine Option.eq_none_iff_forall_ne_some.mpr fun n h => ?_
  cases hc : cx.convention with
  | indentation =>
    obtain ⟨m, hm, _⟩ := routineName?_of_indentation hc h
    cases (reads_of_whole? hm).canBeEmpty rfl
  | braces =>
    obtain ⟨m, hm, _⟩ := routineName?_of_braces hc h
    cases (reads_of_whole? hm).canBeEmpty rfl

/-- A line is taken as the header of a routine that is no constructor. -/
def HeadsRoutine (o : Options) (x : Line × Passage) (n : Text) : Prop :=
  ∃ held outcome, x.2.TakenBy o x.1 o.convention.routineRule held outcome ∧
    (x.2.context o held).routineName? x.2.entry.code = some n

/-- A line in the output has a routine of this name as its header. -/
def IsHeaderOf (n text : Text) : Prop :=
  ∃ before after, text = before ++ " " ++ Name.pascalCase n ++ "(" ++ after

private theorem Indented.defOutcome?_of_convert? {cx : Context} (hc : cx.convention = .indentation) {code : Text}
    {o : Outcome} (h : cx.convert? code = some ("def".toList, o)) : defOutcome? cx code = some o := by
  rw [← computes_defRule.apply_eq]
  exact Context.apply_of_convert? h (by rw [hc]; simp [Convention.rules, rules])

theorem Braced.methodOutcome?_of_convert? {cx : Context} (hc : cx.convention = .braces) {code : Text}
    {o : Outcome} (h : cx.convert? code = some ("method".toList, o)) : methodOutcome? cx code = some o := by
  rw [← computes_methodRule.apply_eq]
  exact Context.apply_of_convert? h (by rw [hc]; simp [Convention.rules, rules])

theorem Indented.exists_header {lines : List Line} {x : Line × Passage} {n : Text}
    (hx : x ∈ Run.journalOf ⟨.indentation, .cambridge⟩ lines)
    (hn : HeadsRoutine ⟨.indentation, .cambridge⟩ x n) :
    ∃ text ∈ (Run.ofLines ⟨.indentation, .cambridge⟩ lines).state.output, IsHeaderOf n text := by
  obtain ⟨held, outcome, htaken, hname⟩ := hn
  obtain ⟨m, hm, rfl, hc⟩ := Context.routineName?_of_indentation rfl hname
  have hrule := defOutcome?_of_convert? rfl htaken.rule
  simp only [defOutcome?, hm, Option.bind_eq_bind, Option.bind_some] at hrule
  let r := routineOf (x.2.context ⟨.indentation, .cambridge⟩ held) (m.group 1) (m.group 2)
  have hr : x.2.routine? = some r := by
    rw [Passage.routine?, htaken.opened, ← Option.some.inj hrule]
    rfl
  obtain ⟨i, hi⟩ := List.getElem?_of_mem hx
  obtain ⟨_, _, _, _, _, _, _, hspelled⟩ := Run.exists_closing .cambridge lines hi hr
  obtain ⟨rest, hheader⟩ := (Spelled.spelledAs (d := .cambridge) hspelled).header
  have hspelling : r.spelledName Dialect.cambridge.style = Name.pascalCase (m.group 1) := by
    rw [Routine.spelledName, show r.isConstructor = false from hc]
    rfl
  rw [hspelling] at hheader
  exact ⟨_, List.mem_of_getElem? hheader, _, rest, rfl⟩

theorem Braced.lines_of_methodOutcome? {cx : Context} {code : Text} {o : Outcome} (h : methodOutcome? cx code = some o)
    {m : Match} (hm : methodPattern.whole? code = some m) (htype : (m.group? 2).isSome = true) :
    isOneOf notMethods (m.group 3) = false ∧
      ∃ method : Method, method.name = m.group 3 ∧ method.isConstructor = false ∧
        o.lines = [cx.line (method.header cx.style)] := by
  simp only [methodOutcome?, hm, Option.bind_eq_bind, Option.bind_some] at h
  obtain ⟨_, hname, h⟩ := Option.bind_eq_some_iff.mp h
  obtain ⟨_, _, h⟩ := Option.bind_eq_some_iff.mp h
  obtain ⟨_, _, h⟩ := Option.bind_eq_some_iff.mp h
  obtain ⟨type, htype⟩ := Option.isSome_iff_exists.mp htype
  refine ⟨?_, _, rfl, ?_, (congrArg (fun o : Outcome => o.lines) (Option.some.inj h)).symm⟩
  · simpa using (Option.guard_eq_some' _).mp hname
  · simp [htype]

theorem Braced.exists_header {lines : List Line} {x : Line × Passage} {n : Text}
    (hx : x ∈ Run.journalOf ⟨.braces, .cambridge⟩ lines) (hn : HeadsRoutine ⟨.braces, .cambridge⟩ x n) :
    ∃ text ∈ (Run.ofLines ⟨.braces, .cambridge⟩ lines).state.output, IsHeaderOf n text := by
  obtain ⟨held, outcome, htaken, hname⟩ := hn
  obtain ⟨m, hm, rfl, htype⟩ := Context.routineName?_of_braces rfl hname
  obtain ⟨_, method, hmethod, hc, hlines⟩ :=
    lines_of_methodOutcome? (methodOutcome?_of_convert? rfl htaken.rule) hm htype
  have houtput := htaken.output
  rw [hlines, attachComment_cons] at houtput
  have hmem := (Run.prefix_ofLines hx).subset (houtput ▸ List.mem_append_right _ List.mem_cons_self)
  have hspelling : method.spelledName .cambridge = Name.pascalCase (m.group 3) := by
    rw [Method.spelledName, hc, hmethod]
    rfl
  refine ⟨_, hmem, (x.2.context ⟨.braces, .cambridge⟩ held).indent ++ method.visibility .cambridge ++
    Routine.keyword .cambridge (method.kind .cambridge), join ", " (method.params.map
      (Method.parameterText .cambridge)) ++ ")" ++ method.resultText .cambridge ++ x.1.commentSuffix, ?_⟩
  rw [← hspelling]
  simp only [Context.line, Method.header, List.append_assoc]
  rfl

/-! ### Names of routines -/

private theorem exists_name_of_reads {p : Pattern} {s : Text} {g : Groups} {i : Nat}
    (h : Reads (p ++ .group i name) s g) : ∃ n, g.lookup i = some n ∧ Reads name n [] := by
  obtain ⟨_, n, _, _, _, rfl, _, hgroup⟩ := reads_append.mp h
  obtain ⟨_, rfl, hn⟩ := reads_group.mp hgroup
  obtain ⟨rfl, _⟩ := reads_name hn
  exact ⟨n, by simp, hn⟩

theorem HeadsRoutine.reads_name {o : Options} {x : Line × Passage} {n : Text} (h : HeadsRoutine o x n) :
    Reads name n [] := by
  obtain ⟨held, _, _, hname⟩ := h
  obtain ⟨conv, d⟩ := o
  cases conv with
  | indentation =>
    obtain ⟨m, hm, rfl, _⟩ := Context.routineName?_of_indentation rfl hname
    obtain ⟨_, _, _, _, hlead, hlookup⟩ := (reads_of_whole? hm).leading_lookup (i := 1) (n := 8) rfl
    obtain ⟨n, hn, hreads⟩ := exists_name_of_reads hlead
    rwa [Match.group, Match.group?, hlookup, hn]
  | braces =>
    obtain ⟨m, hm, rfl, _⟩ := Context.routineName?_of_braces rfl hname
    obtain ⟨_, _, _, _, hlead, hlookup⟩ := (reads_of_whole? hm).leading_lookup (i := 3) (n := 8) rfl
    obtain ⟨n, hn, hreads⟩ := exists_name_of_reads hlead
    rwa [Match.group, Match.group?, hlookup, hn]

/-- The survey understands the header in a line. In a braced source the header begins its line, mentions
no class, and has a result type without white space and parameters without a semicolon. -/
def Convention.UnderstandsHeader : Convention → Line × Passage → Prop
  | .indentation, _ => True
  | .braces, x => x.2.entry.code = x.1.code ∧ Symbols.classMention.find? x.1.code = none ∧
    ∀ m, Braced.methodPattern.whole? x.1.code = some m →
      (∀ c ∈ m.group 2, isBlank c = false) ∧ ';' ∉ m.group 4 ∧ m.group 3 ≠ "else".toList

private theorem HeadsRoutine.isCode {o : Options} {lines : List Line} {x : Line × Passage} {n : Text}
    (hx : x ∈ Run.journalOf o lines) (hn : HeadsRoutine o x n) : x.1.isCode = true := by
  obtain ⟨following, r, hp⟩ := Run.exists_passage hx
  cases hl : x.1.isCode with
  | true => rfl
  | false =>
    obtain ⟨_, _, _, hname⟩ := hn
    rw [hp, Run.passage_of_not_code o hl, Context.routineName?_nil] at hname
    cases hname

private theorem Indentation.entry_code_eq {d : Dialect} {lines : List Line} {x : Line × Passage}
    (hx : x ∈ Run.journalOf ⟨.indentation, d⟩ lines) (hl : x.1.isCode = true) :
    x.2.entry.code = x.1.code := by
  obtain ⟨following, r, hp⟩ := Run.exists_passage hx
  have hpasses := passes_passage d hl following r
  rw [← hp] at hpasses
  rw [hpasses.entry, code_enter]

private theorem HeadsRoutine.mem_routines {conv : Convention} {d : Dialect} {lines : List Line} {x : Line × Passage}
    {n : Text} (hx : x ∈ Run.journalOf ⟨conv, d⟩ lines) (hn : HeadsRoutine ⟨conv, d⟩ x n)
    (hread : conv.UnderstandsHeader x) : n ∈ (({} : Symbols).surveyed conv lines).survey.routines := by
  have hl := hn.isCode hx
  refine Symbols.mem_routines_surveyed (Run.mem_of_mem_journalOf hx) hl ?_ {}
  obtain ⟨held, _, htaken, hname⟩ := hn
  cases conv with
  | indentation =>
    obtain ⟨m, hm, rfl, _⟩ := Context.routineName?_of_indentation rfl hname
    rw [Indentation.entry_code_eq hx hl] at hm
    exact Indented.announces_of_def hm
  | braces =>
    obtain ⟨hcode, hclass, hplain⟩ := hread
    obtain ⟨m, hm, rfl, htype⟩ := Context.routineName?_of_braces rfl hname
    have hrule := Braced.methodOutcome?_of_convert? rfl htaken.rule
    obtain ⟨hnot, _⟩ := Braced.lines_of_methodOutcome? hrule hm htype
    rw [hcode] at hm
    obtain ⟨hblank, hsemi, helse⟩ := hplain m hm
    obtain ⟨m', hm', hgroup⟩ := Braced.exists_methodHeader hm htype hblank hsemi
    refine ⟨hclass, m', hm', hgroup, ?_⟩
    have hwords : ∀ w ∈ Symbols.controlWords, w ∈ Braced.notMethods ∨ w = "else".toList := by decide
    rw [Bool.eq_false_iff] at hnot ⊢
    rw [ne_eq, isOneOf_iff] at hnot ⊢
    exact fun hw => (hwords _ hw).elim hnot helse

/-- Every routine header of a source in either convention is in the output, with the name of the routine in
the spelling of the dialect. If the survey understands the header, it notes the routine; then all calls of
the routine, in every expression of the source, are spelled like the name in the header. The calls are those in the
code of the expression once its strings, subscripts and sums are prepared. In an expression without quotes they are
those of its source, unless one follows a closing bracket or the routine has the name of a conversion. -/
theorem calls_match_headers (conv : Convention) (lines : List Line) {x : Line × Passage} {n : Text}
    (hx : x ∈ Run.journalOf ⟨conv, .cambridge⟩ lines) (hn : HeadsRoutine ⟨conv, .cambridge⟩ x n) :
    (∃ text ∈ (Run.ofLines ⟨conv, .cambridge⟩ lines).state.output, IsHeaderOf n text) ∧
      let survey := (({} : Symbols).surveyed conv lines).survey
      (conv.UnderstandsHeader x → n ∈ survey.routines) ∧
      (n ∈ survey.routines → n ∉ conv.ownWords → (conv = .indentation → n ∉ survey.classes) →
        ∀ y ∈ Run.journalOf ⟨conv, .cambridge⟩ lines, ∀ notes e,
          let st : Setting := ⟨.cambridge, conv, { y.2.entered.symbols with notes }⟩
          (∀ counts, List.Forall₂ (Calls (conv.CallEdge n) n) counts (segments (st.prepared e)).stretches →
            Calls (EndsIn fun c => !isWordChar c) (Name.pascalCase n) (counts.foldr (· + ·) 0) (st.expr e)) ∧
          (n ≠ "str".toList → (∀ c ∈ e, isQuote c = false) →
            ∀ k, Calls (EndsIn (mayLead (conv.mayDot n))) n k (trim e) →
              Calls (EndsIn fun c => !isWordChar c) (Name.pascalCase n) k (st.expr e))) := by
  refine ⟨?_, hn.mem_routines hx, ?_⟩
  · cases conv with
    | indentation => exact Indented.exists_header hx hn
    | braces => exact Braced.exists_header hx hn
  · intro hroutine hown hclass y hy notes e st
    have hsurvey : st.symbols.survey = _ := Run.survey_journalOf hy
    have hknown : st.symbols.isRoutine n = true := by
      simp [Symbols.isRoutine, hsurvey, hroutine]
    have hcreates (hconv : conv = .indentation) : st.symbols.isClass n = false := by
      simp [Symbols.isClass, hsurvey, hclass hconv]
    refine ⟨fun counts => Setting.calls_expr hn.reads_name rfl hknown hcreates hown, fun hstr he k => ?_⟩
    exact Setting.calls_expr_of_no_quote hn.reads_name rfl hknown hcreates hown hstr he

/-- A method that calls itself twice. -/
theorem calls_match_headers_recursive :
    let o : Options := ⟨.braces, .cambridge⟩
    let lines : List Line :=
      [⟨1, .code, [], 0, "int addOne(int n) \x7b", none⟩,
       ⟨2, .code, [], 4, "return addOne(n - 1) + addOne(n);", none⟩, ⟨3, .code, [], 0, "\x7d", none⟩]
    ∃ x y, x ∈ Run.journalOf o lines ∧ y ∈ Run.journalOf o lines ∧ HeadsRoutine o x "addOne" ∧
      Convention.braces.UnderstandsHeader x ∧
      (∃ text ∈ (Run.ofLines o lines).state.output, IsHeaderOf "addOne" text) ∧
      Calls (EndsIn fun c => !isWordChar c) "AddOne" 2
        (Setting.expr ⟨.cambridge, .braces, y.2.entered.symbols⟩ "addOne(n - 1) + addOne(n)") := by
  intro o lines
  let header : Line := ⟨1, .code, [], 0, "int addOne(int n) \x7b", none⟩
  let outcome : Outcome :=
    { lines := ["FUNCTION AddOne(n : INTEGER) RETURNS INTEGER".toList]
      opens := some { kind := .function }
      notes := { types := ⟨[("n", "INTEGER")]⟩ } }
  have hfirst : (Run.journalOf o lines)[0]?.any (fun x => decide
      ((x.2.context o 0).convert? x.2.entry.code = some ("method".toList, outcome) ∧
        x.2.opened = outcome.opens ∧
        x.2.converted.symbols = { x.2.entered.symbols with notes := outcome.notes } ∧
        x.2.converted.output = (x.2.before 0).output ++
          attachComment (x.1.comment.getD []) outcome.lines ∧
        (x.2.context o 0).routineName? x.2.entry.code = some "addOne".toList ∧
        x.2.entry.code = x.1.code ∧ x.1 = header)) = true := by
    decide +kernel
  have hsecond : (Run.journalOf o lines)[1]?.isSome = true := by decide +kernel
  have hplain : (Braced.methodPattern.whole? header.code).all (fun m => (m.group 2).all (!isBlank ·) &&
      !(m.group 4).contains ';' && m.group 3 != "else".toList) = true := by
    decide +kernel
  have hsurvey : "addOne".toList ∈ (({} : Symbols).surveyed .braces lines).survey.routines := by
    decide +kernel
  obtain ⟨x, hx, hfacts⟩ := (Option.any_eq_true _ _).mp hfirst
  obtain ⟨y, hy⟩ := Option.isSome_iff_exists.mp hsecond
  obtain ⟨hrule, hopened, hsymbols, houtput, hname, hcode, hline⟩ := of_decide_eq_true hfacts
  have hx := List.mem_of_getElem? hx
  have hy := List.mem_of_getElem? hy
  have hheads : HeadsRoutine o x "addOne" := ⟨0, outcome, ⟨hrule, hopened, hsymbols, houtput⟩, hname⟩
  obtain ⟨hheader, _, hcalls⟩ := calls_match_headers .braces lines hx hheads
  refine ⟨x, y, hx, hy, hheads, ⟨hcode, ?_, ?_⟩, hheader, ?_⟩
  · rw [hline]
    decide +kernel
  · intro m hm
    rw [hline] at hm
    rw [hm] at hplain
    simpa [and_assoc] using hplain
  · refine (hcalls hsurvey (by decide) (by decide) y hy y.2.entered.symbols.notes _).2 (by decide)
      (no_quote_of_all (by decide)) 2 ?_
    have htrim : trim "addOne(n - 1) + addOne(n)" =
        [] ++ ("addOne".toList ++ '(' :: ("n - 1) + ".toList ++ ("addOne".toList ++ '(' :: "n)".toList))) := by
      decide +kernel
    rw [htrim]
    exact .call rfl (.call rfl (.rest _))

/-- A result type with white space: the header is written in the spelling of the dialect, and the call
keeps its own. -/
theorem call_differs_from_header :
    let o : Options := ⟨.braces, .cambridge⟩
    let lines : List Line :=
      [⟨1, .code, [], 0, "Map<String, Integer> count(int n) \x7b", none⟩,
       ⟨2, .code, [], 4, "return count(n);", none⟩, ⟨3, .code, [], 0, "\x7d", none⟩]
    (Run.journalOf o lines)[0]?.bind (fun x => (x.2.context o 0).routineName? x.2.entry.code) =
        some "count".toList ∧
      "count".toList ∉ (({} : Symbols).surveyed .braces lines).survey.routines ∧
      (Run.ofLines o lines).state.output =
        ["FUNCTION Count(n : INTEGER) RETURNS Map<String, Integer>".toList, "   RETURN count(n)".toList,
         "ENDFUNCTION".toList] := by
  decide +kernel

end Pseudocode
