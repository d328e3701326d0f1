import Pseudocode.Proofs.CallSites
import Pseudocode.Proofs.RecordSurvey
import Pseudocode.Rule.Book

/-! # Routines in the survey

The survey reads the header of a routine with a pattern of its own. It notes every routine of an indented
source. In a braced source it notes a routine whose header stands at the beginning of its line, names no
class, and has a result type without white space and parameters without a semicolon; what is noted stays
noted. -/

namespace Pseudocode

open Text Pattern

/-! ### What is noted stays noted -/

namespace Symbols

private theorem routines_surveyStatement (scope : ClassScope) (code : Text) (s : Survey) :
    (surveyStatement scope code s).routines = s.routines := by
  rcases surveyStatement_cases (π := Survey.routines) (fun _ _ _ _ => rfl) (fun _ _ => rfl) scope code s with
    ⟨m, c, _, _, h⟩ | ⟨_, h⟩
  · rw [h]
    rfl
  · exact h

variable {n : Text}

private theorem mem_routines_surveyIndentedLine {s : Symbols} (h : n ∈ s.survey.routines) (scope : ClassScope)
    (line : Line) : n ∈ (surveyIndentedLine scope line s).2.survey.routines := by
  unfold surveyIndentedLine
  dsimp only
  split
  · exact h
  split
  · exact Names.mem_add.mpr (.inl h)
  split
  · exact h
  · exact (routines_surveyStatement ..).symm ▸ h

private theorem mem_routines_surveyBracedCode {s : Survey} (h : n ∈ s.routines) (scopes : ClassScopes)
    (depth : Nat) (code : Text) : n ∈ (surveyBracedCode scopes depth code s).2.routines := by
  unfold surveyBracedCode
  split
  · exact h
  split
  · dsimp only
    split
    · exact h
    · exact Names.mem_add.mpr (.inl h)
  split
  · dsimp only
    split <;> exact h
  split <;> exact h

end Symbols

/-! ### What a line tells -/

open Symbols in
/-- The survey finds the header of a routine in a line. -/
def Convention.Announces (conv : Convention) (line : Line) (n : Text) : Prop :=
  match conv with
  | .indentation =>
    classLead.lead? line.code = none ∧ ∃ m, defLead.lead? line.code = some m ∧ m.group 1 = n
  | .braces =>
    classMention.find? line.code = none ∧
      ∃ m, methodHeader.whole? line.code = some m ∧ m.group 1 = n ∧ isOneOf controlWords n = false

namespace Symbols

variable {n : Text}

private theorem mem_routines_surveyIndented {lines : List Line} {line : Line} (hline : line ∈ lines)
    (h : Convention.indentation.Announces line n) (s : Symbols) :
    n ∈ (s.surveyIndented lines).survey.routines := by
  obtain ⟨hclass, m, hm, hn⟩ := h
  have hadds (scope : ClassScope) (s : Symbols) :
      n ∈ (surveyIndentedLine scope line s).2.survey.routines := by
    simp only [surveyIndentedLine, hclass, hm, hn]
    exact Names.mem_add.mpr (.inr rfl)
  unfold surveyIndented
  generalize (none : ClassScope) = scope
  induction lines generalizing scope s with
  | nil => cases hline
  | cons first lines ih =>
    rcases List.mem_cons.mp hline with rfl | hline
    · refine List.foldlRecOn (motive := fun acc : ClassScope × Symbols => n ∈ acc.2.survey.routines) lines _
        (hadds scope s) fun acc hacc line _ => ?_
      exact mem_routines_surveyIndentedLine hacc ..
    · exact ih hline _ _

private theorem mem_routines_surveyBraced {lines : List Line} {line : Line} (hline : line ∈ lines)
    (h : Convention.braces.Announces line n) (s : Symbols) :
    n ∈ (s.surveyBraced lines).survey.routines := by
  obtain ⟨hclass, m, hm, hn, hcontrol⟩ := h
  have hadds (scopes : ClassScopes) (depth : Nat) (s : Survey) :
      n ∈ (surveyBracedCode scopes depth line.code s).2.routines := by
    simp only [surveyBracedCode, hclass, hm, hn, hcontrol]
    exact Names.mem_add.mpr (.inr rfl)
  unfold surveyBraced
  dsimp only
  generalize (([], 0) : ClassScopes × Nat) = scopes
  generalize s.survey = s
  induction lines generalizing scopes s with
  | nil => cases hline
  | cons first lines ih =>
    rcases List.mem_cons.mp hline with rfl | hline
    · refine List.foldlRecOn (motive := fun acc : (ClassScopes × Nat) × Survey => n ∈ acc.2.routines) lines _
        (hadds scopes.1 scopes.2 s) fun acc hacc line _ => ?_
      exact mem_routines_surveyBracedCode hacc ..
    · exact ih hline _ _

theorem mem_routines_surveyed {conv : Convention} {lines : List Line} {line : Line} (hline : line ∈ lines)
    (hcode : line.isCode = true) (h : conv.Announces line n) (s : Symbols) :
    n ∈ (s.surveyed conv lines).survey.routines := by
  have hmem : line ∈ lines.filter Line.isCode := List.mem_filter.mpr ⟨hline, hcode⟩
  cases conv with
  | indentation => exact mem_routines_surveyIndented hmem h s
  | braces => exact mem_routines_surveyBraced hmem h s

end Symbols

/-! ### Groups of the leading parts -/

namespace Pattern

/-- Whether a group belongs to a pattern. -/
def captures (i : Nat) : Pattern → Bool
  | seq p q => p.captures i || q.captures i
  | either p q => p.captures i || q.captures i
  | many p => p.captures i
  | group j p => i == j || p.captures i
  | _ => false

/-- Whether a group belongs to one of the last parts of a sequence. -/
def capturesLast (i : Nat) : Nat → Pattern → Bool
  | n + 1, seq p q => p.capturesLast i n || q.captures i
  | _, _ => false

variable {p : Pattern} {s : Text} {g : Groups} {i : Nat}

theorem Reads.lookup_eq_none (h : Reads p s g) (hp : p.captures i = false) : g.lookup i = none := by
  induction h with
  | nothing | text | one | most | fewest | done | wordEdge => rfl
  | seq _ _ ihp ihq =>
    obtain ⟨hp, hq⟩ : _ ∧ _ := by simpa [captures] using hp
    rw [List.lookup_append, ihp hp, ihq hq]
    rfl
  | left q _ ih =>
    obtain ⟨hp, _⟩ : _ ∧ _ := by simpa [captures] using hp
    exact ih hp
  | right p _ ih =>
    obtain ⟨_, hq⟩ : _ ∧ _ := by simpa [captures] using hp
    exact ih hq
  | again _ _ ihp ihm =>
    rw [List.lookup_append, ihp hp, ihm hp]
    rfl
  | group j _ ih =>
    obtain ⟨hj, hp⟩ : (i == j) = false ∧ _ := by simpa [captures] using hp
    rw [List.lookup_cons, hj]
    exact ih hp

/-- A reading begins with a leading part of the pattern, in which its groups are found unless they belong
to a later part. -/
theorem Reads.leading_lookup (h : Reads p s g) {n : Nat} (hi : p.capturesLast i n = false) :
    ∃ s₁ s₂ g₁, s = s₁ ++ s₂ ∧ Reads (p.leading n) s₁ g₁ ∧ g.lookup i = g₁.lookup i := by
  fun_induction Pattern.leading n p generalizing s g with
  | case1 n p q ih =>
    obtain ⟨hp, hq⟩ : _ ∧ _ := by simpa [capturesLast] using hi
    cases h with
    | @seq _ _ _ t _ g₂ hreads hlast =>
      obtain ⟨s₁, s₂, g₁, rfl, hlead, hlookup⟩ := ih hreads hp
      refine ⟨s₁, s₂ ++ t, g₁, List.append_assoc .., hlead, ?_⟩
      rw [List.lookup_append, hlast.lookup_eq_none hq, hlookup]
      rfl
  | case2 => exact ⟨s, [], g, (List.append_nil s).symm, h, rfl⟩

end Pattern

/-! ### Headers that the rules take -/

/-- The last word before the first parenthesis of a text. -/
structure WordBeforeParen (n s : Text) : Prop where
  word : ∀ c ∈ n, isWordChar c = true
  split : ∃ before blanks after, s = before ++ n ++ blanks ++ '(' :: after ∧ '(' ∉ before ∧
    EndsIn (fun c => !isWordChar c) before ∧ ∀ c ∈ blanks, isBlank c = true

theorem not_paren_of_isBlank {s : Text} (h : ∀ c ∈ s, isBlank c = true) : '(' ∉ s :=
  fun hc => absurd (h _ hc) (by decide)

private theorem not_paren_of_isWordChar {s : Text} (h : ∀ c ∈ s, isWordChar c = true) : '(' ∉ s :=
  fun hc => absurd (h _ hc) (by decide)

private theorem WordBeforeParen.eq {n n' s : Text} (h : WordBeforeParen n s) (h' : WordBeforeParen n' s)
    (hn : n ≠ []) (hn' : n' ≠ []) : n = n' := by
  obtain ⟨hw, a, b, t, rfl, ha, hend, hb⟩ := h
  obtain ⟨hw', a', b', t', heq, ha', hend', hb'⟩ := h'
  have hparen {a n b : Text} (ha : '(' ∉ a) (hw : ∀ c ∈ n, isWordChar c = true)
      (hb : ∀ c ∈ b, isBlank c = true) : '(' ∉ a ++ n ++ b := by
    simp [ha, not_paren_of_isWordChar hw, not_paren_of_isBlank hb]
  obtain ⟨heq, _⟩ := eq_of_paren (hparen ha hw hb) (hparen ha' hw' hb') heq
  -- the white space before the parenthesis is the same, because a word stands before it
  have hhead {a n : Text} (hn : n ≠ []) (hw : ∀ c ∈ n, isWordChar c = true) :
      (a ++ n).reverse.head?.any isBlank = false := by
    obtain ⟨m, c, rfl⟩ := List.eq_nil_or_concat n |>.resolve_left hn
    cases hc : isBlank c with
    | false => simp [hc]
    | true =>
      have hword := hw c (by simp)
      rw [isWordChar_of_isBlank hc] at hword
      cases hword
  have hreverse : b.reverse ++ (a ++ n).reverse = b'.reverse ++ (a' ++ n').reverse := by
    rw [← List.reverse_append, ← List.reverse_append, heq]
  obtain ⟨_, hword⟩ := eq_of_runs (by simpa using hb) (by simpa using hb') (hhead hn hw) (hhead hn' hw')
    hreverse
  exact (eq_last_word hw hw' hend' hend (List.reverse_inj.mp hword)).2

private theorem endsIn_of_reads_gap1 {s : Text} {g : Groups} (h : Reads gap1 s g) (before : Text) :
    EndsIn (fun c => !isWordChar c) (before ++ s) := by
  obtain ⟨hne, hblank, _⟩ := reads_most1.mp h
  obtain ⟨t, c, rfl⟩ := List.eq_nil_or_concat s |>.resolve_left hne
  rw [List.concat_eq_append, ← List.append_assoc, endsIn_append_singleton,
    isWordChar_of_isBlank (hblank c (by simp))]
  rfl

private theorem exists_wordBeforeParen {p : Pattern} {s : Text} {g : Groups} {i : Nat}
    (h : Reads (p ++ gap1 ++ .group i name ++ gap ++ "(") s g) (hp : p.avoids '(' = true) (rest : Text) :
    ∃ n, g.lookup i = some n ∧ n ≠ [] ∧ WordBeforeParen n (s ++ rest) := by
  obtain ⟨_, _, _, _, rfl, rfl, h₁, hopen⟩ := reads_append.mp h
  obtain ⟨rfl, rfl⟩ := reads_text.mp hopen
  obtain ⟨_, blanks, _, _, rfl, rfl, h₂, hgap⟩ := reads_append.mp h₁
  obtain ⟨hblanks, rfl⟩ := reads_most.mp hgap
  obtain ⟨_, n, _, _, rfl, rfl, h₃, hgroup⟩ := reads_append.mp h₂
  obtain ⟨before, b, _, _, rfl, rfl, hbefore, hb⟩ := reads_append.mp h₃
  obtain ⟨_, rfl, hn⟩ := reads_group.mp hgroup
  obtain ⟨rfl, c, cs, rfl, _, hw⟩ := reads_name hn
  have hparen : '(' ∉ before ++ b := by
    simp [hbefore.avoids hp, not_paren_of_isBlank (reads_most1.mp hb).2.1]
  refine ⟨c :: cs, by simp, by simp, hw, before ++ b, blanks, rest, ?_, hparen,
    endsIn_of_reads_gap1 hb before, hblanks⟩
  simp

theorem lookup_eq_of_header {p p' : Pattern} {s s' rest rest' : Text} {g g' : Groups} {i i' : Nat}
    (h : Reads (p ++ gap1 ++ .group i name ++ gap ++ "(") s g)
    (h' : Reads (p' ++ gap1 ++ .group i' name ++ gap ++ "(") s' g') (hp : p.avoids '(' = true)
    (hp' : p'.avoids '(' = true) (heq : s ++ rest = s' ++ rest') : g.lookup i = g'.lookup i' := by
  obtain ⟨n, hn, hne, hword⟩ := exists_wordBeforeParen h hp rest
  obtain ⟨n', hn', hne', hword'⟩ := exists_wordBeforeParen h' hp' rest'
  rw [heq] at hword
  rw [hn, hn', hword.eq hword' hne hne']

/-! ### Headers in indented sources -/

open Symbols in
/-- The survey notes every routine that the rule for definitions takes. -/
theorem Indented.announces_of_def {line : Line} {m : Match}
    (h : defPattern.whole? line.code = some m) : Convention.indentation.Announces line (m.group 1) := by
  obtain ⟨s, rest, g, hcode, hlead, hgroup⟩ :=
    (reads_of_whole? h).leading_lookup (i := 1) (n := 6) rfl
  obtain ⟨_, _, _, _, rfl, rfl, h₁, hopen⟩ := reads_append.mp hlead
  obtain ⟨_, _, _, _, rfl, rfl, h₂, hblanks⟩ := reads_append.mp h₁
  obtain ⟨_, _, _, _, rfl, rfl, h₃, hname⟩ := reads_append.mp h₂
  obtain ⟨_, _, _, _, rfl, rfl, hdef, hb⟩ := reads_append.mp h₃
  obtain ⟨rfl, rfl⟩ := reads_text.mp hdef
  have hclass : classLead.leads line.code = false :=
    leads_eq_false_of_canBegin (c := 'd') (by decide) rfl (by rw [hcode]; rfl)
  have hsurvey : Reads defLead _ _ :=
    .seq (.seq (.seq (.seq (.seq (.right _ .nothing) hdef) hb) hname) hblanks) hopen
  obtain ⟨m', hm'⟩ := exists_lead? (hsurvey.way rfl [] rest)
  obtain ⟨rest', hcode', hway⟩ := way_of_lead? hm'
  have hlookup := lookup_eq_of_header hway.reads hlead (by decide) (by decide) hcode'.symm
  refine ⟨Option.isNone_iff_eq_none.mp (Option.isSome_eq_false_iff.mp hclass), m', hcode ▸ hm', ?_⟩
  rw [Match.group, Match.group?, Match.group, Match.group?, hgroup, hlookup]

/-! ### Headers in braced sources -/

namespace Braced

theorem wordOr_mono {cs ds : Text} (h : cs.all ds.contains = true) {c : Char} (hc : wordOr cs c = true) :
    wordOr ds c = true := by
  simp only [wordOr, Bool.or_eq_true] at hc ⊢
  exact hc.imp_right fun hc => List.all_eq_true.mp h c (List.contains_iff_mem.mp hc)

private theorem reads_type {t : Text} {g : Groups}
    (h : Reads (most1 (wordOr "<>[]") ++ .many (gap ++ "," ++ gap ++ most1 (wordOr "<>[]"))) t g) :
    t ≠ [] ∧ ∀ c ∈ t, wordOr "<>[]," c = true ∨ isBlank c = true := by
  have hword {s : Text} {g : Groups} (hs : Reads (most1 (wordOr "<>[]")) s g) :
      ∀ c ∈ s, wordOr "<>[]," c = true ∨ isBlank c = true :=
    fun c hc => .inl (wordOr_mono (by decide) ((reads_most1.mp hs).2.1 c hc))
  have hgap {s : Text} {g : Groups} (hs : Reads gap s g) :
      ∀ c ∈ s, wordOr "<>[]," c = true ∨ isBlank c = true := fun c hc => .inr ((reads_most.mp hs).1 c hc)
  have hmany {p : Pattern} {s : Text} {g : Groups} (hs : Reads p s g)
      (hp : p = .many (gap ++ "," ++ gap ++ most1 (wordOr "<>[]"))) :
      ∀ c ∈ s, wordOr "<>[]," c = true ∨ isBlank c = true := by
    induction hs with
    | done => simp
    | again hstep _ _ ih =>
      obtain rfl := Pattern.many.inj hp
      obtain ⟨_, _, _, _, rfl, _, h₁, ht⟩ := reads_append.mp hstep
      obtain ⟨_, _, _, _, rfl, _, h₂, hb₂⟩ := reads_append.mp h₁
      obtain ⟨_, _, _, _, rfl, _, hb₁, hcomma⟩ := reads_append.mp h₂
      obtain ⟨rfl, _⟩ := reads_text.mp hcomma
      simp only [List.forall_mem_append]
      exact ⟨⟨⟨⟨hgap hb₁, List.forall_mem_singleton.mpr (.inl (by decide))⟩, hgap hb₂⟩, hword ht⟩, ih rfl⟩
    | _ => cases hp
  obtain ⟨_, _, _, _, rfl, _, hfirst, hrest⟩ := reads_append.mp h
  exact ⟨List.append_ne_nil_of_left_ne_nil (reads_most1.mp hfirst).1 _,
    List.forall_mem_append.mpr ⟨hword hfirst, hmany hrest rfl⟩⟩

theorem reads_header_end {b₁ throws b₂ : Text} {g : Groups} (hb₁ : ∀ c ∈ b₁, isBlank c = true)
    (hthrows : Reads (opt ("throws" ++ gap1 ++ fewest1 (fun c => wordOr ",." c || isBlank c))) throws g)
    (hb₂ : ∀ c ∈ b₂, isBlank c = true) :
    ∃ b t, b₁ ++ throws ++ b₂ = b ++ t ∧ Reads gap b [] ∧
      Reads (opt ("throws" ++ gap1 ++ most1 (fun c => wordOr ".," c || isBlank c))) t [] := by
  rcases reads_either.mp hthrows with h | h
  · obtain ⟨s, names, _, _, rfl, _, h₁, hnames⟩ := reads_append.mp h
    obtain ⟨hne, hall, _⟩ := reads_most1.mp (reads_fewest1.mp hnames)
    obtain ⟨_, b, _, _, rfl, _, htext, hb⟩ := reads_append.mp h₁
    obtain ⟨rfl, _⟩ := reads_text.mp htext
    obtain ⟨_, _, rfl⟩ := reads_most1.mp hb
    refine ⟨b₁, "throws".toList ++ b ++ (names ++ b₂), by simp, .most hb₁, ?_⟩
    refine .left _ (.seq (g := []) (.seq (.text _) hb) (reads_most1.mpr ⟨by simp [hne], ?_, rfl⟩))
    intro c hc
    rw [Bool.or_eq_true]
    rcases List.mem_append.mp hc with hc | hc
    · exact (Bool.or_eq_true_iff.mp (hall c hc)).imp_left (wordOr_mono (by decide))
    · exact .inr (hb₂ c hc)
  · obtain ⟨rfl, _⟩ := reads_nothing.mp h
    refine ⟨b₁ ++ b₂, [], by simp, .most ?_, .right _ .nothing⟩
    exact List.forall_mem_append.mpr ⟨hb₁, hb₂⟩

/-- The parts of the header of a method with a result type: modifiers, the type, the name, parameters and
exceptions, with white space between them. -/
structure HeaderParts (code type name params : Text) : Prop where
  split : ∃ mods b₁ b₂ b₃ throws b₄, code =
    mods ++ (type ++ b₁) ++ name ++ b₂ ++ "(".toList ++ params ++ ")".toList ++ b₃ ++ throws ++ b₄ ++ "\x7b".toList ∧
    (∃ g, Reads (modifiers ["public", "private", "protected", "static", "final", "abstract", "synchronized"])
      mods g) ∧ Reads gap1 b₁ [] ∧ Reads gap b₂ [] ∧ (∀ c ∈ b₃, isBlank c = true) ∧
    (∃ g, Reads (opt ("throws" ++ gap1 ++ fewest1 (fun c => wordOr ",." c || isBlank c))) throws g) ∧
    ∀ c ∈ b₄, isBlank c = true
  type : type ≠ [] ∧ ∀ c ∈ type, wordOr "<>[]," c = true ∨ isBlank c = true
  name : Reads Pattern.name name []

private theorem headerParts_of_methodPattern {code : Text} {m : Match} (h : methodPattern.whole? code = some m)
    (htype : (m.group? 2).isSome = true) : HeaderParts code (m.group 2) (m.group 3) (m.group 4) := by
  obtain ⟨_, _, _, _, rfl, hg, h₁, hbrace⟩ := reads_append.mp (reads_of_whole? h)
  obtain ⟨_, b₄, _, _, rfl, rfl, h₂, hb₄⟩ := reads_append.mp h₁
  obtain ⟨_, throws, _, gt, rfl, rfl, h₃, hthrows⟩ := reads_append.mp h₂
  obtain ⟨_, b₃, _, _, rfl, rfl, h₄, hb₃⟩ := reads_append.mp h₃
  obtain ⟨_, _, _, _, rfl, rfl, h₅, hclose⟩ := reads_append.mp h₄
  obtain ⟨_, params, _, _, rfl, rfl, h₆, hgroup₄⟩ := reads_append.mp h₅
  obtain ⟨_, _, _, _, rfl, rfl, h₇, hopen⟩ := reads_append.mp h₆
  obtain ⟨_, b₂, _, _, rfl, rfl, h₈, hb₂⟩ := reads_append.mp h₇
  obtain ⟨_, n, _, _, rfl, rfl, h₉, hgroup₃⟩ := reads_append.mp h₈
  obtain ⟨mods, _, _, _, rfl, rfl, hgroup₁, hresult⟩ := reads_append.mp h₉
  obtain ⟨_, rfl, hparams⟩ := reads_group.mp hgroup₄
  obtain ⟨_, rfl, hname⟩ := reads_group.mp hgroup₃
  obtain ⟨_, rfl, hmods⟩ := reads_group.mp hgroup₁
  obtain ⟨rfl, rfl⟩ := reads_text.mp hbrace
  obtain ⟨hblank₄, rfl⟩ := reads_most.mp hb₄
  obtain ⟨hblank₃, rfl⟩ := reads_most.mp hb₃
  obtain ⟨rfl, rfl⟩ := reads_text.mp hclose
  obtain ⟨_, rfl⟩ := reads_most.mp hparams
  obtain ⟨rfl, rfl⟩ := reads_text.mp hopen
  obtain ⟨_, rfl⟩ := reads_most.mp hb₂
  obtain ⟨rfl, _⟩ := reads_name hname
  have hgt {i : Nat} : gt.lookup i = none := hthrows.lookup_eq_none rfl
  rcases reads_either.mp hresult with hresult | hresult
  · obtain ⟨type, b₁, _, _, rfl, rfl, hgroup₂, hb₁⟩ := reads_append.mp hresult
    obtain ⟨_, rfl, hread⟩ := reads_group.mp hgroup₂
    obtain ⟨_, _, rfl⟩ := reads_most1.mp hb₁
    have hgroups : m.group 2 = type ∧ m.group 3 = n ∧ m.group 4 = params := by
      simp [Match.group, Match.group?, hg, List.lookup_append, List.lookup_cons, hgt]
    rw [hgroups.1, hgroups.2.1, hgroups.2.2]
    exact ⟨⟨mods, b₁, b₂, b₃, throws, b₄, rfl, ⟨_, hmods⟩, hb₁, hb₂, hblank₃, ⟨gt, hthrows⟩, hblank₄⟩,
      reads_type hread, hname⟩
  · obtain ⟨rfl, rfl⟩ := reads_nothing.mp hresult
    have hnone := hmods.lookup_eq_none (i := 2) rfl
    simp [Match.group?, hg, List.lookup_append, List.lookup_cons, hgt, hnone] at htype

private theorem exists_whole?_methodHeader {code n : Text} {g : Groups} (h : Reads Symbols.methodHeader code g)
    (hn : g.lookup 1 = some n) : ∃ m, Symbols.methodHeader.whole? code = some m ∧ m.group 1 = n := by
  obtain ⟨m, hm⟩ := exists_whole? (h.way rfl [] [])
  refine ⟨m, hm, ?_⟩
  obtain ⟨_, _, _, hs, hlead, hlookup⟩ := h.leading_lookup (i := 1) (n := 5) rfl
  obtain ⟨_, _, _, hs', hlead', hlookup'⟩ := (reads_of_whole? hm).leading_lookup (i := 1) (n := 5) rfl
  have hgroups := lookup_eq_of_header hlead' hlead (by decide) (by decide) (hs'.symm.trans hs)
  rw [Match.group, Match.group?, hlookup', hgroups, ← hlookup, hn]
  rfl

/-- The survey reads the header of a method whose result type has no white space and whose parameters
have no semicolon. -/
theorem exists_methodHeader {code : Text} {m : Match} (h : methodPattern.whole? code = some m)
    (htype : (m.group? 2).isSome = true) (hblank : ∀ c ∈ m.group 2, isBlank c = false)
    (hsemi : ';' ∉ m.group 4) : ∃ m', Symbols.methodHeader.whole? code = some m' ∧
      m'.group 1 = m.group 3 := by
  obtain ⟨⟨mods, b₁, b₂, b₃, throws, b₄, hcode, ⟨_, hmods⟩, hb₁, hb₂, hb₃, ⟨_, hthrows⟩, hb₄⟩, ⟨hne, hall⟩, hname⟩ :=
    headerParts_of_methodPattern h htype
  have hmost : Reads (most1 (wordOr "<>[],")) (m.group 2) [] :=
    reads_most1.mpr ⟨hne, fun c hc => (hall c hc).resolve_right (by simp [hblank c hc]), rfl⟩
  have hinner : Reads (.most (noneOf ";")) (m.group 4) [] := by
    refine .most fun c hc => ?_
    have hc' : c ≠ ';' := fun h => hsemi (h ▸ hc)
    simpa [noneOf] using hc'
  obtain ⟨b, t, heq, hb, ht⟩ := reads_header_end hb₃ hthrows hb₄
  have hsurvey : Reads Symbols.methodHeader _ _ :=
    .seq (.seq (.seq (.seq (.seq (.seq (.seq (.seq (.seq (.seq hmods hmost) hb₁) (.group 1 hname)) hb₂)
      (.text _)) hinner) (.text _)) hb) ht) (.left _ (.text _))
  have hend := congrArg (· ++ "\x7b".toList) heq
  simp only [List.append_assoc] at hend hcode hsurvey
  rw [hend] at hcode
  rw [hcode]
  exact exists_whole?_methodHeader hsurvey (by simp)

end Braced

end Pseudocode
