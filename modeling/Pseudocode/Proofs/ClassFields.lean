import Pseudocode.Proofs.RecordSurvey

/-! # Fields of classes

The survey of an indented source keeps one class in mind: that of the last class header, until some line
is not indented deeper than this header. A field that is written through the receiver is entered for that
class. So no field goes to a wrong class, but a field whose line comes after the end of an inner class is
lost. -/

namespace Pseudocode

open Text Pattern Symbols

/-! ### Names by key -/

/-- The keys of some pairs in the order in which they first appear, each with its names in that order. -/
def byKey (ps : List (Text × Text)) : List (Text × Names) :=
  (ps.map Prod.fst).eraseDups.map fun k => (k, ((ps.filter fun p => p.1 = k).map Prod.snd).eraseDups)

private theorem map_fst_byKey (ps : List (Text × Text)) :
    (byKey ps).map Prod.fst = (ps.map Prod.fst).eraseDups := by
  simp [byKey, Function.comp_def]

private theorem Names.eraseDups_concat (ns : List Text) (n : Text) :
    (ns ++ [n]).eraseDups = Names.add ns.eraseDups n := by
  rw [List.eraseDups_append, Names.add]
  by_cases h : n ∈ ns <;> simp [List.removeAll, h, List.eraseDups_cons]

namespace Table

/-- Enters a name for a key. -/
def enter (t : Table Names) (p : Text × Text) : Table Names := t.modify p.1 [] fun names => names.add p.2

theorem entries_foldl_enter (ps : List (Text × Text)) :
    (ps.foldl enter ({} : Table Names)).entries = byKey ps := by
  induction ps using List.reverseRecOn with
  | nil => rfl
  | append_singleton ps p ih =>
    obtain ⟨k, n⟩ := p
    rw [List.foldl_concat]
    generalize ps.foldl enter {} = t at ih
    have hhas : t.has k = true ↔ k ∈ ps.map Prod.fst := by
      rw [has_iff, ih, map_fst_byKey, List.mem_eraseDups]
    have hnames (k' : Text) : (((ps ++ [(k, n)]).filter fun p => p.1 = k').map Prod.snd).eraseDups =
        if k' = k then Names.add (((ps.filter fun p => p.1 = k').map Prod.snd).eraseDups) n
        else ((ps.filter fun p => p.1 = k').map Prod.snd).eraseDups := by
      by_cases hk : k' = k
      · simp [hk, Names.eraseDups_concat]
      · simp [hk, Ne.symm hk]
    unfold enter modify byKey
    rw [List.map_append, List.map_singleton, Names.eraseDups_concat, Names.add]
    simp only [hnames, List.contains_iff_mem, List.mem_eraseDups]
    by_cases hk : k ∈ ps.map Prod.fst
    · rw [if_pos (hhas.mpr hk), if_pos hk, ih, byKey, List.map_map]
      refine List.map_congr_left fun k' _ => ?_
      by_cases hk' : k' = k <;> simp [hk']
    · have hnone : ps.filter (fun p => p.1 = k) = [] := by
        rw [List.filter_eq_nil_iff]
        intro p hp h
        exact hk (of_decide_eq_true h ▸ List.mem_map_of_mem hp)
      rw [if_neg (hhas.not.mpr hk), if_neg hk, ih, byKey, List.map_append, List.map_singleton, if_pos rfl, hnone]
      refine congrArg (· ++ _) (List.map_congr_left fun k' hk' => ?_)
      have hne : k' ≠ k := by
        rintro rfl
        exact hk (List.mem_eraseDups.mp hk')
      rw [if_neg hne]

end Table

/-! ### Classes around a line -/

/-- The class whose header a line is. -/
def Line.className? (line : Line) : Option Text := (classLead.lead? line.code).map (·.group 1)

/-- A header stands left of a line and of all lines between them. -/
def Line.Encloses (header : Line) (between : List Line) (line : Line) : Prop :=
  ∀ l ∈ line :: between, header.columns < l.columns

instance (header : Line) (between : List Line) (line : Line) : Decidable (header.Encloses between line) :=
  List.decidableBAll _ _

/-- The class of the nearest header that encloses a line. The lines before it are given nearest first,
after those that have been passed over. -/
def innermostClass? (line : Line) (between : List Line) : List Line → Option Text
  | [] => none
  | header :: before =>
    match header.className? with
    | some cls =>
      if header.Encloses between line then some cls else innermostClass? line (header :: between) before
    | none => innermostClass? line (header :: between) before

/-- The class of the last header before a line, if that header encloses it. -/
def currentClass? (line : Line) (between : List Line) : List Line → Option Text
  | [] => none
  | header :: before =>
    match header.className? with
    | some cls => if header.Encloses between line then some cls else none
    | none => currentClass? line (header :: between) before

theorem innermostClass?_of_currentClass? {line : Line} {between before : List Line} {cls : Text}
    (h : currentClass? line between before = some cls) : innermostClass? line between before = some cls := by
  fun_induction currentClass? line between before with
  | case1 => cases h
  | case2 between header before c hc henclosed => rw [innermostClass?, hc]; exact (if_pos henclosed).trans h
  | case3 => cases h
  | case4 between header before hc ih => rw [innermostClass?, hc]; exact ih h

/-! ### Fields of the receiver -/

/-- The field that a line gives a value, plainly or with an operator. -/
def receiverAssignment : Pattern :=
  oneOf ["self", "this"] ++ "." ++ .group 1 name ++ gap ++ opt (oneOf ["**", "//", "+", "-", "*", "/", "%"])
    ++ "=" ++ opt (.one (· != '=') ++ .most fun _ => true)

def assignedField? (code : Text) : Option Text := (receiverAssignment.whole? code).map (·.group 1)

/-- The field that the survey finds in a line. -/
def surveyedField? (code : Text) : Option Text := (receiverField.lead? code).map (·.group 1)

/-- A field in a class, if both are known. -/
def fieldIn? (cls field : Option Text) : Option (Text × Text) := cls.bind fun c => field.map (c, ·)

/-- The fields that lines give a value, in order, each with the class around its line. The lines before
are given nearest first. -/
def instanceFields (field? : Text → Option Text) (class? : Line → List Line → Option Text)
    (before : List Line) : List Line → List (Text × Text)
  | [] => []
  | line :: lines =>
    (fieldIn? (class? line before) (field? line.code)).toList ++
      instanceFields field? class? (line :: before) lines

theorem instanceFields_congr {field? field'? : Text → Option Text}
    {class? class'? : Line → List Line → Option Text} {before lines : List Line}
    (h : ∀ a line b, lines = a ++ line :: b →
      fieldIn? (class? line (a.reverse ++ before)) (field? line.code) =
        fieldIn? (class'? line (a.reverse ++ before)) (field'? line.code)) :
    instanceFields field? class? before lines = instanceFields field'? class'? before lines := by
  induction lines generalizing before with
  | nil => rfl
  | cons line lines ih =>
    have hline := h [] line lines rfl
    rw [List.reverse_nil, List.nil_append] at hline
    rw [instanceFields, instanceFields, hline, ih]
    intro a l b hl
    have hsplit := h (line :: a) l b (by rw [hl]; rfl)
    rwa [List.reverse_cons, List.append_assoc] at hsplit

namespace Symbols

theorem not_header_of_receiverField {code : Text} {m : Match} (h : receiverField.lead? code = some m) :
    classLead.lead? code = none ∧ defLead.lead? code = none ∧ lambdaLead.lead? code = none := by
  obtain ⟨rest, rfl, hway⟩ := way_of_lead? h
  obtain ⟨s, more, _, htext, hlead⟩ := hway.reads.leading 4
  have hlead : Reads (oneOf ["self", "this"] ++ ".") _ _ := hlead
  obtain ⟨w, _, _, _, rfl, _, hreceiver, hdot⟩ := reads_append.mp hlead
  obtain ⟨rfl, _⟩ := reads_text.mp hdot
  have hreceiver : Reads (oneOf (["self".toList, "this".toList].map .text)) w _ := hreceiver
  obtain ⟨hw, _⟩ := mem_of_reads_oneOf hreceiver
  rw [htext]
  have hnone {p : Pattern} (hempty : p.canBeEmpty = false) (hs : p.canBegin 's' = false)
      (ht : p.canBegin 't' = false) : p.lead? (w ++ ".".toList ++ more ++ rest) = none := by
    have hleads : p.leads (w ++ ".".toList ++ more ++ rest) = false := by
      rcases List.mem_cons.mp hw with rfl | hw
      · exact leads_eq_false_of_canBegin hs hempty rfl
      · obtain rfl := List.mem_singleton.mp hw
        exact leads_eq_false_of_canBegin ht hempty rfl
    exact Option.isNone_iff_eq_none.mp (Option.isSome_eq_false_iff.mp hleads)
  refine ⟨hnone rfl (by decide) (by decide), hnone rfl (by decide) (by decide), ?_⟩
  -- a function bound to a name begins with a name too, but no dot comes after it
  refine Option.eq_none_iff_forall_ne_some.mpr fun m' hm' => ?_
  obtain ⟨rest', hcode, hway'⟩ := way_of_lead? hm'
  obtain ⟨_, more', _, htext', hlead'⟩ := hway'.reads.leading 3
  have hlead' : Reads (.group 1 name ++ gap ++ "=") _ _ := hlead'
  obtain ⟨_, _, _, _, rfl, _, hname, hequals⟩ := reads_append.mp hlead'
  obtain ⟨rfl, _⟩ := reads_text.mp hequals
  obtain ⟨n, b, _, _, rfl, _, hgroup, hgap⟩ := reads_append.mp hname
  obtain ⟨_, _, hn⟩ := reads_group.mp hgroup
  obtain ⟨_, _, _, _, _, hn⟩ := reads_name hn
  have hb := (reads_most.mp hgap).1
  have hw : ∀ c ∈ w, isWordChar c = true := by
    refine List.all_eq_true.mp ?_
    rcases List.mem_cons.mp hw with rfl | hw
    · decide
    · obtain rfl := List.mem_singleton.mp hw
      decide
  rw [htext'] at hcode
  obtain ⟨_, hrest⟩ := eq_of_runs (s := '.' :: (more ++ rest)) (t := b ++ '=' :: (more' ++ rest')) hw hn rfl
    (head?_after_blanks hb fun _ => rfl) (by simpa using hcode)
  cases b with
  | nil => cases hrest
  | cons c b =>
    obtain ⟨rfl, _⟩ := List.cons.inj hrest
    exact absurd (hb '.' (by simp)) (by decide)

/-! ### What the survey enters for classes -/

/-- What the survey keeps in mind after some lines, latest first. -/
def scopeAfter : List Line → ClassScope
  | [] => none
  | line :: before =>
    match line.className? with
    | some cls => some (cls, line.columns)
    | none => (scopeAfter before).before line.columns

theorem scopeAfter_cons (before : List Line) (line : Line) (s : Symbols) :
    (surveyIndentedLine (scopeAfter before) line s).1 = scopeAfter (line :: before) := by
  rw [scopeAfter, Line.className?, surveyIndentedLine]
  cases classLead.lead? line.code with
  | some m => rfl
  | none =>
    cases defLead.lead? line.code with
    | some m => rfl
    | none => cases lambdaLead.lead? line.code <;> rfl

private theorem filter_scopeAfter (line : Line) (between before : List Line) :
    ((scopeAfter before).filter fun c => ∀ l ∈ line :: between, c.2 < l.columns).map Prod.fst =
      currentClass? line between before := by
  fun_induction currentClass? line between before with
  | case1 => rfl
  | case2 between header before c hc henclosed =>
    rw [scopeAfter, hc, Option.filter_some_pos (by simpa [Line.Encloses] using henclosed)]
    rfl
  | case3 between header before c hc henclosed =>
    rw [scopeAfter, hc, Option.filter_some_neg (by simpa [Line.Encloses] using henclosed)]
    rfl
  | case4 between header before hc ih =>
    rw [← ih, scopeAfter, hc, ClassScope.before, Option.filter_filter]
    congr 2
    funext c
    rw [Bool.eq_iff_iff]
    simp
    tauto

private theorem filter_scopeAfter_nil (line : Line) (before : List Line) :
    ((scopeAfter before).before line.columns).map Prod.fst = currentClass? line [] before := by
  rw [← filter_scopeAfter, ClassScope.before]
  congr 2
  funext c
  simp

private theorem fields_surveyStatement (scope : ClassScope) (code : Text) (s : Survey) :
    (surveyStatement scope code s).fields =
      (fieldIn? (scope.map Prod.fst) (surveyedField? code)).toList.foldl Table.enter s.fields := by
  rcases surveyStatement_cases (π := Survey.fields) (fun _ _ _ _ => rfl) (fun _ _ => rfl) scope code s with
    ⟨m, c, hm, rfl, h⟩ | ⟨hnone | rfl, h⟩
  · rw [h, surveyedField?, hm]
    rfl
  · rw [h, surveyedField?, hnone]
    cases scope <;> rfl
  · exact h

private theorem fields_surveyIndentedLine (scope : ClassScope) (line : Line) (s : Symbols) :
    (surveyIndentedLine scope line s).2.survey.fields =
      (fieldIn? ((scope.before line.columns).map Prod.fst) (surveyedField? line.code)).toList.foldl Table.enter
        s.survey.fields := by
  cases hfield : receiverField.lead? line.code with
  | some m =>
    obtain ⟨hclass, hdef, hlambda⟩ := not_header_of_receiverField hfield
    simp only [surveyIndentedLine, hclass, hdef, hlambda]
    exact fields_surveyStatement ..
  | none =>
    have hnone : fieldIn? ((scope.before line.columns).map Prod.fst) (surveyedField? line.code) = none := by
      rw [surveyedField?, hfield]
      cases scope.before line.columns <;> rfl
    rw [hnone]
    unfold surveyIndentedLine
    dsimp only
    split
    · rfl
    split
    · rfl
    split
    · rfl
    · exact (fields_surveyStatement ..).trans (by rw [hnone])

private theorem fields_foldl_surveyIndentedLine (lines before : List Line) (s : Symbols) :
    (lines.foldl (fun acc line => surveyIndentedLine acc.1 line acc.2) (scopeAfter before, s)).2.survey.fields =
      (instanceFields surveyedField? (currentClass? · []) before lines).foldl Table.enter s.survey.fields := by
  induction lines generalizing before s with
  | nil => rfl
  | cons line lines ih =>
    have hpair : surveyIndentedLine (scopeAfter before) line s =
        (scopeAfter (line :: before), (surveyIndentedLine (scopeAfter before) line s).2) :=
      Prod.ext (scopeAfter_cons before line s) rfl
    rw [List.foldl_cons, instanceFields, List.foldl_append, ← filter_scopeAfter_nil,
      ← fields_surveyIndentedLine, ← ih, ← hpair]

end Symbols

/-- The fields of all classes are entered once, in the order of the lines, each for the class of the last
header if that header encloses the line. This is the innermost class unless an inner class has ended
before the line. -/
theorem fields_go_to_current_class (lines : List Line) :
    let code := lines.filter Line.isCode
    let fields := (surveyed .indentation lines {}).survey.fields.entries
    fields = byKey (instanceFields surveyedField? (currentClass? · []) [] code) ∧
      ((∀ before line after, code = before ++ line :: after →
          surveyedField? line.code = assignedField? line.code ∧
            ((assignedField? line.code).isSome → (innermostClass? line [] before.reverse).isSome →
              (currentClass? line [] before.reverse).isSome)) →
        fields = byKey (instanceFields assignedField? (innermostClass? · []) [] code)) := by
  intro code fields
  have hfields : fields = byKey (instanceFields surveyedField? (currentClass? · []) [] code) := by
    rw [← Table.entries_foldl_enter]
    exact congrArg Table.entries (fields_foldl_surveyIndentedLine code [] {})
  refine ⟨hfields, fun h => ?_⟩
  rw [hfields, instanceFields_congr]
  intro before line after hcode
  obtain ⟨hfield, hclass⟩ := h before line after hcode
  rw [List.append_nil, hfield]
  cases hassigned : assignedField? line.code with
  | none => cases currentClass? line [] before.reverse <;> cases innermostClass? line [] before.reverse <;> rfl
  | some field =>
    cases hcurrent : currentClass? line [] before.reverse with
    | some cls => rw [innermostClass?_of_currentClass? hcurrent]
    | none =>
      cases hinnermost : innermostClass? line [] before.reverse with
      | none => rfl
      | some cls => simp [hassigned, hcurrent, hinnermost] at hclass

/-- A class inside a class, after the methods of the outer one. -/
theorem fields_go_to_current_class_nested :
    let lines : List Line :=
      [⟨1, .code, [], 0, "class Bank:", none⟩,
       ⟨2, .code, [], 4, "def __init__(self):", none⟩,
       ⟨3, .code, [], 8, "self.total = 0", none⟩,
       ⟨4, .code, [], 4, "class Account:", none⟩,
       ⟨5, .code, [], 8, "def pay(self, n):", none⟩,
       ⟨6, .code, [], 12, "self.sum += n", none⟩,
       ⟨7, .code, [], 12, "this.total = self.sum", none⟩]
    (surveyed .indentation lines {}).survey.fields.entries =
      [("Bank".toList, ["total".toList]), ("Account".toList, ["sum".toList, "total".toList])] := by
  intro lines
  have hfields := fields_go_to_current_class lines
  have hcode : lines.filter Line.isCode = lines := by decide +kernel
  have hall : ∀ i ∈ List.range lines.length, ∀ line ∈ lines[i]?,
      surveyedField? line.code = assignedField? line.code ∧
        ((assignedField? line.code).isSome → (innermostClass? line [] (lines.take i).reverse).isSome →
          (currentClass? line [] (lines.take i).reverse).isSome) := by
    decide +kernel
  have hassigned : byKey (instanceFields assignedField? (innermostClass? · []) [] lines) =
      [("Bank".toList, ["total".toList]), ("Account".toList, ["sum".toList, "total".toList])] := by
    decide +kernel
  clear_value lines
  rw [hcode] at hfields
  refine (hfields.2 fun before line after h => ?_).trans hassigned
  have hline := hall before.length (by simp [h]) line (by simp [h])
  rwa [h, List.take_left] at hline

/-- After the end of an inner class the survey knows of no class. -/
theorem field_lost_after_inner_class :
    let lines := Line.ofSource .indentation
      "class A:\n    class B:\n        x = 1\n    def f(self):\n        self.y = 1"
    byKey (instanceFields assignedField? (innermostClass? · []) [] (lines.filter Line.isCode)) =
        [("A".toList, ["y".toList])] ∧
      (surveyed .indentation lines {}).survey.fields.entries = [] := by
  decide +kernel

end Pseudocode
