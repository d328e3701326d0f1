import Pseudocode.Proofs.RecordSurvey
import Pseudocode.Proofs.RoutineSpelling
import Mathlib.Data.Nat.Find

/-! # Record types cover the fields that are written

A dictionary becomes a record: the first line for a variable declares its type, every line assigns the
fields. The type has the fields that the whole source writes, so it covers those of all dictionaries, and
no later line changes it. -/

namespace Pseudocode

open Text Pattern

/-! ### Dictionaries -/

theorem Text.eq_of_between? {q : Char} {s body : Text} (h : between? [q] [q] s = some body) :
    body = s.tail.dropLast := by
  obtain ⟨t, ht, hb⟩ := Option.bind_eq_some_iff.mp h
  unfold after? at ht
  unfold before? at hb
  split at ht
  · next hs =>
    obtain ⟨t', rfl⟩ := List.isPrefixOf_iff_prefix.mp hs
    obtain rfl : t' = t := by simpa using ht
    split at hb
    · next hs' =>
      obtain ⟨body', rfl⟩ := List.isSuffixOf_iff_suffix.mp hs'
      obtain rfl : body' = body := by simpa using hb
      simp
    · cases hb
  · cases ht

@[simp] theorem Text.trim_trim (s : Text) : trim (trim s) = trim s := by
  have hstart : trimStart (trim s) = trim s := by
    cases ht : trim s with
    | nil => rfl
    | cons c cs =>
      have hc : isBlank c = false := Indented.isBlank_of_mem_head?_trim (s := s) (by rw [ht]; rfl)
      exact List.dropWhile_cons_of_neg (by simp [hc])
  have hend : trimEnd (trim s) = trim s := by
    unfold trim trimEnd dropEndWhile
    rw [List.reverse_reverse, List.dropWhile_idempotent]
  rw [trim, hstart, hend]

namespace Indented

/-- The variable and the entries of a line that the rule for dictionaries accepts. -/
def dictionary? (code : Text) : Option (Text × List (Text × Text)) := do
  let m ← dictPattern.whole? code
  guard (!isComprehension ("\x7b" ++ m.group 2 ++ "\x7d"))
  let pairs ← (splitTopLevel ',' (m.group 2)).mapM dictEntry?
  return (m.group 1, pairs)

/-- The assignments to the fields of a record. -/
def fieldAssignments (cx : Context) (record : Text) (pairs : List (Text × Text)) : List Text :=
  pairs.map fun p => cx.assign (record ++ "." ++ p.1) (cx.expr p.2)

private theorem fieldAssignments_recordOnce (cx : Context) (record : Text) (pairs : List (Text × Text)) :
    fieldAssignments (recordOnce cx record pairs).2 record pairs = fieldAssignments cx record pairs := by
  unfold recordOnce
  split
  · rfl
  · have hexpr (e : Text) := cx.toSetting.expr_congr
      { cx.symbols with notes.declaredRecords := cx.notes.declaredRecords.add record } rfl rfl (fun _ => rfl) e
    exact List.map_congr_left fun p _ => congrArg (cx.assign _) (hexpr p.2)

theorem dictRule_eq {cx : Context} (h : cx.style.records = true) (code : Text) :
    dictRule cx code = (dictionary? code).map fun d =>
      if d.1 ∈ cx.notes.declaredRecords then cx.writes (fieldAssignments cx d.1 d.2)
      else (cx.withNotes { cx.notes with declaredRecords := cx.notes.declaredRecords.add d.1 }).writes
        (recordLines cx d.1 d.2 ++ fieldAssignments cx d.1 d.2) := by
  rw [computes_dictRule.apply_eq]
  unfold dictOutcome? dictionary?
  cases dictPattern.whole? code with
  | none => rfl
  | some m =>
    simp only [Option.bind_eq_bind, Option.bind_some, h]
    cases isComprehension ("\x7b" ++ m.group 2 ++ "\x7d") with
    | true => rfl
    | false =>
      unfold dictPairs?
      cases (splitTopLevel ',' (m.group 2)).mapM dictEntry? with
      | none => rfl
      | some pairs =>
        have hfields := fieldAssignments_recordOnce cx (m.group 1) pairs
        change some ((recordOnce cx (m.group 1) pairs).2.writes
          ((recordOnce cx (m.group 1) pairs).1 ++ fieldAssignments (recordOnce cx (m.group 1) pairs).2 _ pairs)) = _
        rw [hfields, recordOnce]
        simp only [List.contains_iff_mem]
        split
        · next hmem => exact congrArg some (if_pos hmem).symm
        · next hmem => exact congrArg some (if_neg hmem).symm

/-- A name, and what stands between two delimiters after an equals sign. -/
theorem reads_bracketed {opening closing s : Text} {g : Groups}
    (h : Reads (.group 1 name ++ gap ++ "=" ++ gap ++ .text opening ++ .group 2 rest ++ .text closing) s g) :
    ∃ n b₁ b₂ body, s = n ++ (b₁ ++ '=' :: (b₂ ++ (opening ++ (body ++ closing)))) ∧
      g = [(2, body), (1, n)] ∧ Reads name n [] ∧ (∀ c ∈ b₁, isBlank c = true) ∧
      (∀ c ∈ b₂, isBlank c = true) ∧ (∀ c ∈ body, inLine c = true) := by
  obtain ⟨_, _, _, _, rfl, rfl, h₁, hclose⟩ := reads_append.mp h
  obtain ⟨rfl, rfl⟩ := reads_text.mp hclose
  obtain ⟨_, body, _, _, rfl, rfl, h₂, hgroup₂⟩ := reads_append.mp h₁
  obtain ⟨_, rfl, hrest⟩ := reads_group.mp hgroup₂
  obtain ⟨hbody, rfl⟩ := reads_most.mp hrest
  obtain ⟨_, _, _, _, rfl, rfl, h₃, hopen⟩ := reads_append.mp h₂
  obtain ⟨rfl, rfl⟩ := reads_text.mp hopen
  obtain ⟨_, b₂, _, _, rfl, rfl, h₄, hgap₂⟩ := reads_append.mp h₃
  obtain ⟨hb₂, rfl⟩ := reads_most.mp hgap₂
  obtain ⟨_, _, _, _, rfl, rfl, h₅, hequals⟩ := reads_append.mp h₄
  obtain ⟨rfl, rfl⟩ := reads_text.mp hequals
  obtain ⟨n, b₁, _, _, rfl, rfl, hgroup₁, hgap₁⟩ := reads_append.mp h₅
  obtain ⟨hb₁, rfl⟩ := reads_most.mp hgap₁
  obtain ⟨_, rfl, hn⟩ := reads_group.mp hgroup₁
  obtain ⟨rfl, _⟩ := reads_name hn
  exact ⟨n, b₁, b₂, body, by simp, rfl, hn, hb₁, hb₂, hbody⟩

private theorem reads_dictPattern {s : Text} {g : Groups} (h : Reads dictPattern s g) :
    ∃ n b₁ b₂ body, s = n ++ (b₁ ++ '=' :: (b₂ ++ '\x7b' :: (body ++ ['\x7d']))) ∧
      g = [(2, body), (1, n)] ∧ Reads name n [] ∧ (∀ c ∈ b₁, isBlank c = true) ∧
      (∀ c ∈ b₂, isBlank c = true) ∧ (∀ c ∈ body, inLine c = true) := by
  obtain ⟨n, b₁, b₂, body, hs, hrest⟩ := reads_bracketed h
  exact ⟨n, b₁, b₂, body, by simpa using hs, hrest⟩

theorem exists_dictionary_of_dictPattern {code : Text} {m : Match}
    (h : dictPattern.whole? code = some m) :
    ∃ m', Symbols.dictionary.whole? code = some m' ∧ m'.group 1 = m.group 1 ∧
      m'.group 2 = m.group 2 := by
  obtain ⟨n, b₁, b₂, body, hcode, hg, hn, hb₁, hb₂, hbody⟩ := reads_dictPattern (reads_of_whole? h)
  have hreads : Reads Symbols.dictionary code [(2, body), (1, n)] := by
    have hseq : Reads Symbols.dictionary _ _ :=
      .seq (.seq (.seq (.seq (.seq (.seq (.seq (.group 1 hn) (.most hb₁)) (.right _ .nothing))
        (.text "=".toList)) (.most hb₂)) (.text "\x7b".toList)) (.group 2 (.most hbody)))
        (.text "\x7d".toList)
    rw [hcode]
    simpa using hseq
  obtain ⟨m', hm'⟩ := exists_whole? (hreads.way (by decide) [] [])
  obtain ⟨n', b₁', a, b₂', body', hcode', hg', hn', hb₁', ha, hb₂'⟩ :=
    Symbols.reads_dictionary (reads_of_whole? hm')
  -- the name and the white space after it end at the same places
  have hsame : a = [] ∧ n' = n ∧ body' = body := by
    obtain ⟨_, _, _, _, _, hn⟩ := reads_name hn
    obtain ⟨_, _, _, _, _, hn'⟩ := reads_name hn'
    cases a with
    | nil =>
      obtain ⟨rfl, hrest⟩ := eq_of_runs hn hn' (head?_after_blanks hb₁ fun _ => by decide)
        (head?_after_blanks hb₁' fun _ => by decide) (hcode.symm.trans hcode')
      obtain ⟨rfl, _, hrest⟩ := eq_of_runs_cons hb₁ hb₁' (by decide) (by decide) hrest
      obtain ⟨rfl, _, hrest⟩ := eq_of_runs_cons hb₂ hb₂' (by decide) (by decide) hrest
      exact ⟨rfl, rfl, (List.append_cancel_right hrest).symm⟩
    | cons d a =>
      obtain rfl : d = ':' := by simpa using ha
      obtain ⟨rfl, hrest⟩ := eq_of_runs hn hn' (head?_after_blanks hb₁ fun _ => by decide)
        (head?_after_blanks hb₁' fun _ => by decide) (hcode.symm.trans hcode')
      obtain ⟨_, hd, _⟩ := eq_of_runs_cons hb₁ hb₁' (by decide) (by decide) hrest
      cases hd
  obtain ⟨_, rfl, rfl⟩ := hsame
  refine ⟨m', hm', ?_, ?_⟩
  · simp [Match.group, Match.group?, hg, hg']
  · simp [Match.group, Match.group?, hg, hg']

private theorem ofItem?_eq {entry : Text} {p : Text × Text} (h : dictEntry? entry = some p)
    (record : Text) :
    FieldWrite.ofItem? record entry =
      some ⟨record, p.1, ((DataType.ofLiteral? p.2).getD .string).name⟩ := by
  obtain ⟨⟨key, value⟩, hsplit, h⟩ := Option.bind_eq_some_iff.mp h
  obtain ⟨_, hliteral, h⟩ := Option.bind_eq_some_iff.mp h
  obtain ⟨_, hident, h⟩ := Option.bind_eq_some_iff.mp h
  obtain rfl := Option.some.inj h
  have hkey : (between? "\"" "\"" (trim key) <|> between? "'" "'" (trim key)) =
      some (trim key).tail.dropLast := by
    have hsome : (between? "\"" "\"" (trim key) <|> between? "'" "'" (trim key)).isSome = true :=
      isSome_orElse.mpr (Bool.or_eq_true_iff.mp (by simpa [DataType.isStringLiteral] using hliteral))
    obtain ⟨body, hbody⟩ := Option.isSome_iff_exists.mp hsome
    rw [hbody]
    rcases eq_some_of_orElse hbody with hb | hb
    · rw [eq_of_between? hb]
    · rw [eq_of_between? hb]
  have htype : DataType.ofLiteral? (trim value) = DataType.ofLiteral? value := by
    rw [DataType.ofLiteral?, DataType.ofLiteral?, trim_trim]
  have hident : Name.isIdentifier (trim key).tail.dropLast = true := by simpa using hident
  rw [FieldWrite.ofItem?, hsplit, Option.bind_some]
  simp only [hkey, Option.bind_some, FieldWrite.ofKey?, hident, if_true, htype]

private theorem exists_of_mem_mapM {α β : Type} {f : α → Option β} {l : List α} {l' : List β}
    (h : l.mapM f = some l') : ∀ b ∈ l', ∃ a ∈ l, f a = some b := by
  induction l generalizing l' with
  | nil =>
    obtain rfl : [] = l' := by simpa using h
    simp
  | cons a l ih =>
    rw [List.mapM_cons] at h
    obtain ⟨b, hb, h⟩ := Option.bind_eq_some_iff.mp h
    obtain ⟨bs, hbs, h⟩ := Option.bind_eq_some_iff.mp h
    obtain rfl := Option.some.inj h
    intro c hc
    rcases List.mem_cons.mp hc with rfl | hc
    · exact ⟨a, by simp, hb⟩
    · obtain ⟨a', ha', hf⟩ := ih hbs c hc
      exact ⟨a', by simp [ha'], hf⟩

theorem mem_ofCode_of_dictionary? {code record : Text} {pairs : List (Text × Text)}
    (h : dictionary? code = some (record, pairs)) :
    ∀ p ∈ pairs, ⟨record, p.1, ((DataType.ofLiteral? p.2).getD .string).name⟩ ∈
      FieldWrite.ofCode code := by
  intro p hp
  obtain ⟨m, hm, h⟩ := Option.bind_eq_some_iff.mp h
  obtain ⟨_, _, h⟩ := Option.bind_eq_some_iff.mp h
  obtain ⟨pairs', hpairs, h⟩ := Option.bind_eq_some_iff.mp h
  obtain ⟨rfl, rfl⟩ := Prod.mk.inj (Option.some.inj h)
  obtain ⟨m', hm', h₁, h₂⟩ := exists_dictionary_of_dictPattern hm
  obtain ⟨entry, hentry, hp⟩ := exists_of_mem_mapM hpairs p hp
  rw [FieldWrite.ofCode, List.mem_append, FieldWrite.ofDictionary, hm']
  refine .inl (List.mem_filterMap.mpr ⟨entry, by rwa [h₂], ?_⟩)
  rw [h₁, ofItem?_eq hp]

theorem recordFields_eq {cx : Context} {record : Text} {pairs : List (Text × Text)}
    (h : ∀ p ∈ pairs, (cx.symbols.survey.fieldsOf record).has p.1 = true) :
    recordFields cx record pairs = cx.symbols.survey.fieldsOf record := by
  unfold recordFields
  change List.foldl _ (cx.symbols.survey.fieldsOf record) pairs = _
  induction pairs with
  | nil => rfl
  | cons p pairs ih =>
    obtain ⟨hp, hpairs⟩ := List.forall_mem_cons.mp h
    rw [List.foldl_cons, Table.add_of_has hp, ih hpairs]

/-- The record type of a variable, with a line for each field, and the declaration of the variable. -/
def recordBlock (indent record : Text) (fields : List (Text × Text)) : List Text :=
  let type := Name.pascalCase record ++ "Record"
  (indent ++ "TYPE " ++ type) ::
    fields.map (fun f => indent ++ "   DECLARE " ++ f.1 ++ " : " ++ f.2) ++
    [indent ++ "ENDTYPE", [], indent ++ "DECLARE " ++ record ++ " : " ++ type]

theorem recordLines_eq {cx : Context} (h : cx.style = .cambridge) (record : Text)
    (pairs : List (Text × Text)) :
    recordLines cx record pairs =
      recordBlock cx.indent record (recordFields cx record pairs).entries := by
  have hdeclare : cx.kw .declareWord = "DECLARE".toList := by
    rw [Setting.kw, h]
    rfl
  have hwidth : cx.style.indentWidth = 3 := by rw [h]; rfl
  simp only [recordLines, recordBlock, recordType, Context.line, Context.inner, Context.declaration,
    hdeclare, hwidth, List.append_assoc]
  rfl

/-- The rule for dictionaries alone reports under its name. -/
theorem dictRule_of_convert? {cx : Context} (hc : cx.convention = .indentation) {code : Text}
    {o : Outcome} (h : cx.convert? code = some ("dict_literal".toList, o)) : dictRule cx code = some o :=
  cx.apply_of_convert? h (by rw [hc]; simp [Convention.rules, rules])

end Indented

/-! ### Lines that write records -/

/-- A rule takes the code of a line, after some blank lines that were held back. -/
structure Passage.TakenBy (o : Options) (line : Line) (p : Passage) (rule : Text) (held : Nat)
    (outcome : Outcome) : Prop where
  rule : (p.context o held).convert? p.entry.code = some (rule, outcome)
  opened : p.opened = outcome.opens
  symbols : p.converted.symbols = { p.entered.symbols with notes := outcome.notes }
  output : p.converted.output = (p.before held).output ++
    attachComment (line.comment.getD []) outcome.lines

/-- The rule for dictionaries takes a line: it writes the entries as fields of a record, from a place in
the output on. -/
structure WritesRecord (x : Line × Passage) (record : Text) (pairs : List (Text × Text))
    (start : Nat) : Prop where
  taken : ∃ held outcome, x.2.TakenBy ⟨.indentation, .cambridge⟩ x.1 "dict_literal" held outcome ∧
    start = (x.2.before held).output.length
  dictionary : Indented.dictionary? x.2.entry.code = some (record, pairs)

theorem Passage.TakenBy.exists_writesRecord {line : Line} {p : Passage} {held : Nat} {outcome : Outcome}
    (h : p.TakenBy ⟨.indentation, .cambridge⟩ line "dict_literal" held outcome) :
    ∃ record pairs, WritesRecord (line, p) record pairs (p.before held).output.length := by
  have htaken := Indented.dictRule_of_convert? rfl h.rule
  rw [Indented.dictRule_eq rfl] at htaken
  obtain ⟨⟨record, pairs⟩, hdict, _⟩ := Option.map_eq_some_iff.mp htaken
  exact ⟨record, pairs, ⟨held, outcome, h, rfl⟩, hdict⟩

/-- The assignments that a line makes of some entries. -/
def Passage.assignments (p : Passage) (record : Text) (pairs : List (Text × Text)) : List Text :=
  pairs.map fun e => Style.cambridge.indent p.entered.depth ++ record ++ "." ++ e.1 ++ " ← " ++
    Setting.expr ⟨.cambridge, .indentation, p.entered.symbols⟩ e.2

namespace WritesRecord

variable {x : Line × Passage} {record : Text} {pairs : List (Text × Text)} {start : Nat}

theorem exists_outcome (h : WritesRecord x record pairs start) :
    ∃ (held : Nat) (outcome : Outcome),
      x.2.TakenBy ⟨.indentation, .cambridge⟩ x.1 "dict_literal" held outcome ∧
      start = (x.2.before held).output.length ∧
      let cx := x.2.context ⟨.indentation, .cambridge⟩ held
      let notes := x.2.entered.symbols.notes
      outcome = if record ∈ notes.declaredRecords then cx.writes (x.2.assignments record pairs)
        else (cx.withNotes { notes with declaredRecords := notes.declaredRecords.add record }).writes
          (Indented.recordLines cx record pairs ++ x.2.assignments record pairs) := by
  obtain ⟨⟨held, outcome, ht, hstart⟩, hdict⟩ := h
  refine ⟨held, outcome, ht, hstart, ?_⟩
  have hrule := Indented.dictRule_of_convert? rfl ht.rule
  have hassign : Indented.fieldAssignments (x.2.context ⟨.indentation, .cambridge⟩ held) record pairs =
      x.2.assignments record pairs := by
    apply List.map_congr_left
    intro e _
    simp only [Context.assign, Context.line, Style.assignment, List.append_assoc]
    rfl
  rw [Indented.dictRule_eq rfl, hdict, Option.map_some, hassign] at hrule
  exact (Option.some.inj hrule).symm

theorem opened (h : WritesRecord x record pairs start) : x.2.opened = none := by
  obtain ⟨held, outcome, ht, _, rfl⟩ := h.exists_outcome
  rw [ht.opened]
  split <;> rfl

private theorem declaredRecords (h : WritesRecord x record pairs start) :
    x.2.converted.symbols.notes.declaredRecords =
      x.2.entered.symbols.notes.declaredRecords.add record := by
  obtain ⟨held, outcome, ht, _, rfl⟩ := h.exists_outcome
  rw [ht.symbols]
  dsimp only
  split
  · next hmem => exact (if_pos (by simpa using hmem)).symm
  · rfl

theorem length_le_start (h : WritesRecord x record pairs start) : x.2.entered.output.length ≤ start := by
  obtain ⟨held, _, _, hstart, _⟩ := h.exists_outcome
  rw [hstart, Passage.before, State.emitAll, List.length_append]
  exact Nat.le_add_right ..

theorem drop_output (h : WritesRecord x record pairs start)
    (hfields : ∀ p ∈ pairs, (x.2.entered.symbols.survey.fieldsOf record).has p.1 = true) :
    x.2.converted.output.drop start = attachComment (x.1.comment.getD [])
      ((if record ∈ x.2.entered.symbols.notes.declaredRecords then []
        else Indented.recordBlock (Style.cambridge.indent x.2.entered.depth) record
          (x.2.entered.symbols.survey.fieldsOf record).entries) ++ x.2.assignments record pairs) := by
  obtain ⟨held, outcome, ht, hstart, rfl⟩ := h.exists_outcome
  have hblock : Indented.recordLines (x.2.context ⟨.indentation, .cambridge⟩ held) record pairs =
      Indented.recordBlock (Style.cambridge.indent x.2.entered.depth) record
        (x.2.entered.symbols.survey.fieldsOf record).entries := by
    rw [Indented.recordLines_eq rfl, Indented.recordFields_eq hfields]
    rfl
  rw [ht.output, hstart, List.drop_left, hblock]
  split <;> rfl

end WritesRecord

theorem Run.declaredRecords_passage (line : Line) (following : List Line) (r : Run) (record : Text) :
    let p := r.passage ⟨.indentation, .cambridge⟩ line following
    record ∈ p.converted.symbols.notes.declaredRecords ↔
      record ∈ p.entered.symbols.notes.declaredRecords ∨
        ∃ pairs start, WritesRecord (line, p) record pairs start := by
  intro p
  have hhandled : p.Handled ⟨.indentation, .cambridge⟩ line := r.handled_passage _ line following
  have hwrites (h : ∃ pairs start, WritesRecord (line, p) record pairs start) :
      record ∈ p.converted.symbols.notes.declaredRecords := by
    obtain ⟨pairs, start, h⟩ := h
    rw [h.declaredRecords]
    simp
  cases hhandled with
  | passed _ _ _ symbols =>
    rw [symbols] at hwrites ⊢
    exact ⟨.inl, fun h => h.elim id hwrites⟩
  | @taken held rule outcome hconvert opened symbols output =>
    by_cases hrule : rule = "dict_literal".toList
    · subst hrule
      obtain ⟨record', pairs, hwritten⟩ :=
        Passage.TakenBy.exists_writesRecord ⟨hconvert, opened, symbols, output⟩
      constructor
      · intro hmem
        rw [hwritten.declaredRecords, Names.mem_add] at hmem
        rcases hmem with hmem | rfl
        · exact .inl hmem
        · exact .inr ⟨pairs, _, hwritten⟩
      · rintro (hmem | h)
        · rw [hwritten.declaredRecords, Names.mem_add]
          exact .inl hmem
        · exact hwrites h
    · have hkeeps : p.converted.symbols.notes.declaredRecords =
          p.entered.symbols.notes.declaredRecords := by
        have hnoted : Indented.Noted (p.context ⟨.indentation, .cambridge⟩ held) rule p.entry.code outcome.notes :=
          (Context.form_of_convert? hconvert).noted
        rw [symbols]
        exact hnoted.records hrule
      rw [hkeeps] at hwrites ⊢
      exact ⟨.inl, fun h => h.elim id hwrites⟩

private theorem Run.survey_passage (line : Line) (following : List Line) (r : Run) :
    let p := r.passage ⟨.indentation, .cambridge⟩ line following
    p.converted.symbols.survey = p.entered.symbols.survey := by
  intro p
  have hhandled : p.Handled ⟨.indentation, .cambridge⟩ line := r.handled_passage _ line following
  cases hhandled with
  | passed _ _ _ symbols => rw [symbols]
  | taken _ _ symbols _ => rw [symbols]

/-! ### Along a run -/

/-- What holds of a run after some lines of a source: the records that they write are declared, and what
they have written for them stays. -/
structure RecordsKept (lines : List Line) (done : List (Line × Passage)) (r : Run) : Prop where
  headers : Kept .cambridge done r
  survey : r.state.symbols.survey = (Symbols.surveyed .indentation lines {}).survey
  declared : ∀ record, record ∈ r.state.symbols.notes.declaredRecords ↔
    ∃ x ∈ done, ∃ pairs start, WritesRecord x record pairs start
  final : ∀ x ∈ done, ∀ record pairs start, WritesRecord x record pairs start → ∀ j text, start ≤ j →
    x.2.converted.output[j]? = some text → Final r.state.blocks r.state.output j text

private theorem WritesRecord.final {line : Line} {following : List Line} {r : Run} {record : Text}
    {pairs : List (Text × Text)} {start : Nat} {done : List (Line × Passage)}
    (h : WritesRecord (line, r.passage ⟨.indentation, .cambridge⟩ line following) record pairs start)
    (hkept : Kept .cambridge done r) {j : Nat} {text : Text} (hj : start ≤ j)
    (htext : (r.passage ⟨.indentation, .cambridge⟩ line following).converted.output[j]? = some text) :
    Final (r.passage ⟨.indentation, .cambridge⟩ line following).left.blocks
      (r.passage ⟨.indentation, .cambridge⟩ line following).left.output j text := by
  obtain ⟨n, hstage⟩ := r.stage_passage .cambridge line following
  obtain ⟨hblocks, houtput, _⟩ := r.left_indented .cambridge line following
  have hnesting := r.sameNesting_passage ⟨.indentation, .cambridge⟩ line following
  have hheaders := hkept.headers
  rw [← r.met_passage ⟨.indentation, .cambridge⟩ line following] at hheaders
  have hentered := hheaders.stage hstage
  have hlength : (r.passage ⟨.indentation, .cambridge⟩ line following).entered.output.length ≤ start :=
    h.length_le_start
  rw [hblocks, h.opened, Option.none_or, hnesting.blocks, houtput]
  refine ⟨htext, fun routine hr => ?_⟩
  obtain ⟨b, hb, hbr⟩ := mem_routinesOf.mp hr
  have hlt := hentered.lt_length hb hbr
  omega

theorem RecordsKept.step {lines : List Line} {done : List (Line × Passage)} {r : Run}
    (h : RecordsKept lines done r) (line : Line) (following : List Line) :
    RecordsKept lines (done ++ [(line, r.passage ⟨.indentation, .cambridge⟩ line following)])
      (r.step ⟨.indentation, .cambridge⟩ line following) := by
  obtain ⟨n, hstage⟩ := r.stage_passage .cambridge line following
  have hsymbols := (r.left_indented .cambridge line following).2.2
  have hmet := r.met_passage ⟨.indentation, .cambridge⟩ line following
  have hleft := r.left_passage ⟨.indentation, .cambridge⟩ line following
  have hdeclared := r.declaredRecords_passage line following
  dsimp only at hdeclared
  refine ⟨h.headers.step line following, ?_, fun record => ?_, ?_⟩
  · rw [← hleft, hsymbols, r.survey_passage, hstage.symbols, hmet, h.survey]
  · rw [← hleft, hsymbols, hdeclared, hstage.symbols, hmet, h.declared]
    simp only [List.mem_append, List.mem_singleton, or_and_right, exists_or, exists_eq_left]
  · intro x hx record pairs start hwrites j text hj htext
    rw [← hleft]
    rcases List.mem_append.mp hx with hx | hx
    · have hfinal := h.final x hx record pairs start hwrites j text hj htext
      rw [← hmet] at hfinal
      exact .leave .cambridge line following r (hfinal.stage hstage)
    · obtain rfl := List.mem_singleton.mp hx
      exact hwrites.final h.headers hj htext

theorem recordsKept_start (lines : List Line) :
    RecordsKept lines [] (Run.start ⟨.indentation, .cambridge⟩ lines) := by
  refine ⟨kept_start .cambridge lines, rfl, fun record => ?_, by simp⟩
  have hnone : (Run.start ⟨.indentation, .cambridge⟩ lines).state.symbols.notes.declaredRecords = [] :=
    (Symbols.learns_surveyIndented {} _).records
  simp [hnone]

namespace Run

/-- The lines of the journal are those of the source. -/
theorem mem_of_mem_journalOf {o : Options} {lines : List Line} {x : Line × Passage}
    (h : x ∈ journalOf o lines) : x.1 ∈ lines :=
  (List.of_mem_zip (show (x.1, x.2) ∈ _ from h)).1

theorem isCode_of_writesRecord {line : Line} {following : List Line} {r : Run} {record : Text}
    {pairs : List (Text × Text)} {start : Nat}
    (h : WritesRecord (line, r.passage ⟨.indentation, .cambridge⟩ line following) record pairs start) :
    line.isCode = true ∧ Indented.dictionary? line.code = some (record, pairs) := by
  have hdict := h.dictionary
  cases hl : line.isCode with
  | false =>
    rw [passage_of_not_code _ hl] at hdict
    have hnone : Indented.dictionary? [] = none := by decide +kernel
    cases hnone.symm.trans hdict
  | true =>
    have hpasses := Indentation.passes_passage .cambridge hl following r
    refine ⟨rfl, ?_⟩
    rwa [hpasses.entry, Indentation.code_enter] at hdict

end Run

private theorem mem_keys_fieldsWritten {lines : List Line} {line : Line} (hline : line ∈ lines)
    (hcode : line.isCode = true) {record : Text} {pairs : List (Text × Text)}
    (hdict : Indented.dictionary? line.code = some (record, pairs)) :
    ∀ p ∈ pairs, p.1 ∈ (firstSeen (fieldsWritten lines record)).map Prod.fst := by
  intro p hp
  rw [mem_keys_firstSeen]
  have hmem : ⟨record, p.1, _⟩ ∈ (lines.filter Line.isCode).flatMap fun l => FieldWrite.ofCode l.code :=
    List.mem_flatMap.mpr
      ⟨line, List.mem_filter.mpr ⟨hline, hcode⟩, Indented.mem_ofCode_of_dictionary? hdict p hp⟩
  have hfield := List.mem_filter (p := fun w : FieldWrite => w.record = record).mpr
    ⟨hmem, decide_eq_true rfl⟩
  exact List.mem_map.mpr ⟨_, List.mem_map_of_mem hfield, rfl⟩

section

variable {lines : List Line} {i : Nat} {x : Line × Passage} {record : Text}

theorem Run.recordsKept_before (hi : (journalOf ⟨.indentation, .cambridge⟩ lines)[i]? = some x) :
    ∃ following r, x.2 = r.passage ⟨.indentation, .cambridge⟩ x.1 following ∧
      RecordsKept lines ((journalOf ⟨.indentation, .cambridge⟩ lines).take i) r := by
  obtain ⟨_, hbefore⟩ := journalOf_induction
    (fun done line following r (h : RecordsKept lines done r) => h.step line following)
    (recordsKept_start lines)
  exact hbefore i x.1 x.2 hi

theorem Run.declaredRecords_iff (hi : (journalOf ⟨.indentation, .cambridge⟩ lines)[i]? = some x) :
    record ∈ x.2.entered.symbols.notes.declaredRecords ↔
      ∃ j < i, ∃ y pairs start, (journalOf ⟨.indentation, .cambridge⟩ lines)[j]? = some y ∧
        WritesRecord y record pairs start := by
  obtain ⟨following, r, hx, hkept⟩ := recordsKept_before hi
  obtain ⟨n, hstage⟩ := r.stage_passage .cambridge x.1 following
  rw [hx, hstage.symbols, r.met_passage, hkept.declared]
  constructor
  · rintro ⟨y, hy, pairs, start, hwrites⟩
    obtain ⟨j, hj⟩ := List.getElem?_of_mem hy
    have hlt : j < i := by
      have hlt := (List.getElem?_eq_some_iff.mp hj).1
      rw [List.length_take] at hlt
      omega
    rw [List.getElem?_take_of_lt hlt] at hj
    exact ⟨j, hlt, y, pairs, start, hj, hwrites⟩
  · rintro ⟨j, hlt, y, pairs, start, hj, hwrites⟩
    refine ⟨y, List.mem_of_getElem? (i := j) ?_, pairs, start, hwrites⟩
    rw [List.getElem?_take_of_lt hlt, hj]

variable {pairs : List (Text × Text)} {start : Nat}

namespace WritesRecord

/-- The fields of a line are among those that the source writes. -/
theorem mem_keys (hx : WritesRecord x record pairs start)
    (hi : (Run.journalOf ⟨.indentation, .cambridge⟩ lines)[i]? = some x) :
    ∀ p ∈ pairs, p.1 ∈ (firstSeen (fieldsWritten lines record)).map Prod.fst := by
  obtain ⟨following, r, hpassage, _⟩ := Run.recordsKept_before hi
  obtain ⟨line, p⟩ := x
  dsimp only at hpassage
  subst hpassage
  obtain ⟨hcode, hdict⟩ := Run.isCode_of_writesRecord hx
  exact mem_keys_fieldsWritten (Run.mem_of_mem_journalOf (List.mem_of_getElem? hi)) hcode hdict

private theorem written (hx : WritesRecord x record pairs start)
    (hi : (Run.journalOf ⟨.indentation, .cambridge⟩ lines)[i]? = some x) :
    x.2.converted.output.drop start = attachComment (x.1.comment.getD [])
      ((if record ∈ x.2.entered.symbols.notes.declaredRecords then []
        else Indented.recordBlock (Style.cambridge.indent x.2.entered.depth) record
          (firstSeen (fieldsWritten lines record))) ++ x.2.assignments record pairs) := by
  obtain ⟨following, r, hpassage, hkept⟩ := Run.recordsKept_before hi
  obtain ⟨n, hstage⟩ := r.stage_passage .cambridge x.1 following
  have hsurvey : x.2.entered.symbols.survey = (Symbols.surveyed .indentation lines {}).survey := by
    rw [hpassage, hstage.symbols, r.met_passage, hkept.survey]
  have hfields := Symbols.entries_fieldsOf_surveyed lines record
  rw [← hsurvey] at hfields
  rw [hx.drop_output, hfields]
  intro p hp
  rw [Table.has_iff, hfields]
  exact hx.mem_keys hi p hp

private theorem drop_output_prefix (hx : WritesRecord x record pairs start)
    (hi : (Run.journalOf ⟨.indentation, .cambridge⟩ lines)[i]? = some x) :
    x.2.converted.output.drop start <+:
      (Run.ofLines ⟨.indentation, .cambridge⟩ lines).state.output.drop start := by
  obtain ⟨hend, _⟩ := Run.journalOf_induction
    (fun done line following r (h : RecordsKept lines done r) => h.step line following)
    (recordsKept_start lines)
  rw [List.prefix_iff_getElem?]
  intro j hj
  have hline : x.2.converted.output[start + j]? = some (x.2.converted.output.drop start)[j] := by
    rw [← List.getElem?_drop, List.getElem?_eq_getElem hj]
  have hfinal := hend.final x (List.mem_of_getElem? hi) record pairs start hx (start + j) _
    (Nat.le_add_right ..) hline
  rw [List.getElem?_drop, (Run.final_ofLines .cambridge lines (hfinal.closeMany _ _)).line]

private theorem lt_start (hx : WritesRecord x record pairs start)
    (hi : (Run.journalOf ⟨.indentation, .cambridge⟩ lines)[i]? = some x) {i' : Nat}
    {x' : Line × Passage} {pairs' : List (Text × Text)} {start' : Nat} (hlt : i' < i)
    (hi' : (Run.journalOf ⟨.indentation, .cambridge⟩ lines)[i']? = some x')
    (hx' : WritesRecord x' record pairs' start') {j : Nat} (hj : start' ≤ j)
    (hlength : j < x'.2.converted.output.length) : j < start := by
  obtain ⟨following, r, hpassage, hkept⟩ := Run.recordsKept_before hi
  obtain ⟨n, hstage⟩ := r.stage_passage .cambridge x.1 following
  have hmem : x' ∈ (Run.journalOf ⟨.indentation, .cambridge⟩ lines).take i :=
    List.mem_of_getElem? ((List.getElem?_take_of_lt hlt).trans hi')
  have hfinal := hkept.final x' hmem record pairs' start' hx' j _ hj (List.getElem?_eq_getElem hlength)
  rw [← r.met_passage ⟨.indentation, .cambridge⟩ x.1 following] at hfinal
  have hentered := (hfinal.stage hstage).lt_length
  rw [← hpassage] at hentered
  have hstart := hx.length_le_start
  omega

end WritesRecord

end

/-- A line that writes fields of a record stands after the one declaration of its type, which has the
fields that the survey of the whole source found: those that dictionaries or keys write, each once, in
the order of the lines and with the type of the first value. Every other line of the record writes its
assignments only, so there is one such declaration, and every field that is written is declared. -/
theorem record_types_cover_fields (lines : List Line) {i : Nat} {x : Line × Passage} {record : Text}
    {pairs : List (Text × Text)} {start : Nat}
    (hi : (Run.journalOf ⟨.indentation, .cambridge⟩ lines)[i]? = some x)
    (hx : WritesRecord x record pairs start) :
    let journal := Run.journalOf ⟨.indentation, .cambridge⟩ lines
    let output := (Run.ofLines ⟨.indentation, .cambridge⟩ lines).state.output
    let fields := firstSeen (fieldsWritten lines record)
    let block (y : Line × Passage) :=
      Indented.recordBlock (Style.cambridge.indent y.2.entered.depth) record fields
    ((Symbols.surveyed .indentation lines {}).survey.fieldsOf record).entries = fields ∧
      (∀ p ∈ pairs, p.1 ∈ fields.map Prod.fst) ∧
      ∃ i₀ x₀ pairs₀ start₀, i₀ ≤ i ∧ journal[i₀]? = some x₀ ∧
        WritesRecord x₀ record pairs₀ start₀ ∧
        ∀ i' x' pairs' start', journal[i']? = some x' → WritesRecord x' record pairs' start' →
          x'.2.converted.output.drop start' = attachComment (x'.1.comment.getD [])
            ((if i' = i₀ then block x' else []) ++ x'.2.assignments record pairs') ∧
          x'.2.converted.output.drop start' <+: output.drop start' ∧
          (i' ≠ i₀ → start₀ + (block x₀).length ≤ start') := by
  intro journal output fields block
  refine ⟨Symbols.entries_fieldsOf_surveyed lines record, hx.mem_keys hi, ?_⟩
  -- the first line that writes the record declares it
  have hexists : ∃ i x pairs start, journal[i]? = some x ∧ WritesRecord x record pairs start :=
    ⟨i, x, pairs, start, hi, hx⟩
  classical
  obtain ⟨x₀, pairs₀, start₀, hi₀, hx₀⟩ := Nat.find_spec hexists
  have hfirst {i' : Nat} {x' : Line × Passage} {pairs' : List (Text × Text)} {start' : Nat}
      (hi' : journal[i']? = some x') (hx' : WritesRecord x' record pairs' start') :
      Nat.find hexists ≤ i' :=
    Nat.find_min' hexists ⟨x', pairs', start', hi', hx'⟩
  generalize Nat.find hexists = i₀ at *
  refine ⟨i₀, x₀, pairs₀, start₀, hfirst hi hx, hi₀, hx₀, ?_⟩
  have hdeclared {i' : Nat} {x' : Line × Passage} {pairs' : List (Text × Text)} {start' : Nat}
      (hi' : journal[i']? = some x') (hx' : WritesRecord x' record pairs' start') :
      record ∈ x'.2.entered.symbols.notes.declaredRecords ↔ i' ≠ i₀ := by
    rw [Run.declaredRecords_iff hi']
    constructor
    · rintro ⟨j, hj, y, pairs, start, hy, hwrites⟩
      have hle := hfirst hy hwrites
      omega
    · intro hne
      exact ⟨i₀, Nat.lt_of_le_of_ne (hfirst hi' hx') (Ne.symm hne), x₀, pairs₀, start₀, hi₀, hx₀⟩
  intro i' x' pairs' start' hi' hx'
  refine ⟨?_, hx'.drop_output_prefix hi', fun hne => ?_⟩
  · have hwritten := hx'.written hi'
    simpa only [hdeclared hi' hx', ne_eq, ite_not] using hwritten
  · -- the last line of the declaration is final before the next line of the record
    have hlength := congrArg List.length (hx₀.written hi₀)
    rw [if_neg ((hdeclared hi₀ hx₀).not.mpr (not_not.mpr rfl)), length_attachComment,
      List.length_append, List.length_drop] at hlength
    change _ = (block x₀).length + _ at hlength
    have hpos : 0 < (block x₀).length := Nat.succ_pos _
    have hlast := hx'.lt_start hi' (Nat.lt_of_le_of_ne (hfirst hi' hx') (Ne.symm hne)) hi₀ hx₀
      (j := start₀ + (block x₀).length - 1) (by omega) (by omega)
    omega

/-- A field that a later dictionary writes, and one that only a key writes. -/
theorem record_types_cover_fields_later :
    let o : Options := ⟨.indentation, .cambridge⟩
    let lines : List Line :=
      [⟨1, .code, [], 0, "p = \x7b\"x\": 1\x7d", some "a point"⟩,
       ⟨2, .code, [], 0, "p[\"tag\"] = \"start\"", none⟩,
       ⟨3, .code, [], 0, "p = \x7b\"y\": 2.5, \"x\": \"far\"\x7d", none⟩]
    let pairs : List (Text × Text) := [("y", "2.5"), ("x", "\"far\"")]
    let fields : List (Text × Text) := [("x", "INTEGER"), ("tag", "STRING"), ("y", "REAL")]
    ∃ x, (Run.journalOf o lines)[2]? = some x ∧ WritesRecord x "p" pairs 9 ∧
      (∀ p ∈ pairs, p.1 ∈ fields.map Prod.fst) ∧
      ((Symbols.surveyed .indentation lines {}).survey.fieldsOf "p").entries = fields ∧
      ∃ i₀ ≤ 2, ∃ x₀ pairs₀ start₀, (Run.journalOf o lines)[i₀]? = some x₀ ∧
        x₀.2.converted.output.drop start₀ = attachComment (x₀.1.comment.getD [])
          (Indented.recordBlock (Style.cambridge.indent x₀.2.entered.depth) "p" fields ++
            x₀.2.assignments "p" pairs₀) ∧
        x₀.2.converted.output.drop start₀ <+: (Run.ofLines o lines).state.output.drop start₀ := by
  intro o lines pairs fields
  have hcode : (Run.journalOf o lines)[2]?.map (fun x => Indented.dictionary? x.2.entry.code) =
      some (some ("p".toList, pairs)) := by
    decide +kernel
  have htaken : (Run.journalOf o lines)[2]?.bind (fun x =>
      ((x.2.context o 0).convert? x.2.entry.code).map fun c =>
        (c.1, (x.2.before 0).output.length, decide (x.2.opened = c.2.opens ∧
          x.2.converted.symbols = { x.2.entered.symbols with notes := c.2.notes } ∧
          x.2.converted.output =
            (x.2.before 0).output ++ attachComment (x.1.comment.getD []) c.2.lines))) =
      some ("dict_literal".toList, 9, true) := by
    decide +kernel
  obtain ⟨x, hi, hx⟩ := Option.bind_eq_some_iff.mp htaken
  obtain ⟨⟨rule, outcome⟩, hconvert, hx⟩ := Option.map_eq_some_iff.mp hx
  simp only [Prod.mk.injEq, decide_eq_true_eq] at hx
  obtain ⟨rfl, hstart, hopened, hsymbols, houtput⟩ := hx
  rw [hi] at hcode
  have hwrites : WritesRecord x "p" pairs 9 :=
    ⟨⟨0, outcome, ⟨hconvert, hopened, hsymbols, houtput⟩, hstart.symm⟩, Option.some.inj hcode⟩
  obtain ⟨hfields, hkeys, i₀, x₀, pairs₀, start₀, hle, hi₀, hx₀, hlines⟩ :=
    record_types_cover_fields lines hi hwrites
  have hwritten : firstSeen (fieldsWritten lines "p") = fields := by decide +kernel
  obtain ⟨hblock, hkept, _⟩ := hlines i₀ x₀ pairs₀ start₀ hi₀ hx₀
  rw [if_pos rfl] at hblock
  simp only [hwritten] at hfields hkeys hblock
  exact ⟨x, hi, hwrites, hkeys, hfields, i₀, hle, x₀, pairs₀, start₀, hi₀, hblock, hkept⟩

end Pseudocode
