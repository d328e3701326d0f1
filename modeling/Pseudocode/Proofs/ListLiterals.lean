import Pseudocode.Proofs.CountingLoops
import Pseudocode.Proofs.OutsideLiterals
import Pseudocode.Proofs.RecordTypes

/-! # Elements of list literals

A list literal becomes an array: its declaration, then one assignment for each item, in order. The value of an item
is its translation. A text among the items, or a truth value together with another item, makes the array one of
texts, and then every item that is not in quotes is put into them: numbers and truth values, but also variables,
calls and interpolated strings, which are constants from then on. -/

namespace Pseudocode

open Text Pattern

namespace Text

/-! ### Pieces by their separators -/

private theorem le_of_mem_joints {p : Text} {ps : List Text} {i : Nat} (h : i ∈ joints p ps) : p.length ≤ i := by
  cases ps with
  | nil => cases h
  | cons q qs =>
    rcases List.mem_cons.mp h with rfl | h
    · exact Nat.le_refl _
    · obtain ⟨j, _, rfl⟩ := List.mem_map.mp h
      omega

private theorem mem_joints_tail {p q : Text} {qs : List Text} {i : Nat} :
    i + (p.length + 1) ∈ joints p (q :: qs) ↔ i ∈ joints q qs := by
  have hne : i + (p.length + 1) ≠ p.length := by omega
  simp [joints, hne]

theorem joints_inj {sep : Char} {p p' : Text} {ps ps' : List Text}
    (htext : p ++ ps.flatMap (sep :: ·) = p' ++ ps'.flatMap (sep :: ·))
    (h : ∀ i, i ∈ joints p ps ↔ i ∈ joints p' ps') : p = p' ∧ ps = ps' := by
  induction ps generalizing p p' ps' with
  | nil =>
    cases ps' with
    | nil => exact ⟨by simpa using htext, rfl⟩
    | cons q' qs' => cases (h p'.length).mpr List.mem_cons_self
  | cons q qs ih =>
    cases ps' with
    | nil => cases (h p.length).mp List.mem_cons_self
    | cons q' qs' =>
      have hle := le_of_mem_joints ((h p.length).mp List.mem_cons_self)
      have hge := le_of_mem_joints ((h p'.length).mpr List.mem_cons_self)
      obtain ⟨rfl, hrest⟩ := List.append_inj htext (Nat.le_antisymm hge hle)
      rw [List.flatMap_cons, List.flatMap_cons, List.cons_append, List.cons_append] at hrest
      obtain ⟨rfl, rfl⟩ := ih (List.cons.inj hrest).2 fun i => by
        rw [← mem_joints_tail (p := p) (q := q), h, mem_joints_tail]
      exact ⟨rfl, rfl⟩

end Text

/-! ### Types of items -/

namespace DataType

/-- Items that are texts: in quotes of one kind, or interpolated. -/
def isTextItem (item : Text) : Bool := isStringLiteral item || isInterpolated item

def isTruthItem (item : Text) : Bool := isOneOf truthWords (trim item)

theorem isStringLiteral_trim (s : Text) : isStringLiteral (trim s) = isStringLiteral s := by
  rw [isStringLiteral, trim_trim, isStringLiteral]

theorem isInterpolated_trim (s : Text) : isInterpolated (trim s) = isInterpolated s := by
  rw [isInterpolated, trim_trim, isInterpolated]

private theorem not_isTextItem_of_isTruthItem {item : Text} (h : isTruthItem item = true) :
    isTextItem item = false := by
  have hwords : ∀ w ∈ truthWords, isTextItem w = false := by decide
  have htrim : isTextItem (trim item) = isTextItem item := by
    rw [isTextItem, isStringLiteral_trim, isInterpolated_trim, isTextItem]
  rw [← htrim]
  exact hwords _ (isOneOf_iff.mp h)

theorem ofLiteral?_cases (item : Text) :
    ofLiteral? item = (if isTextItem item then some string else if isTruthItem item then some boolean else none) ∨
      isTextItem item = false ∧ isTruthItem item = false ∧
        (ofLiteral? item = some integer ∨ ofLiteral? item = some real) := by
  have htext : (isStringLiteral (trim item) || isInterpolated (trim item)) = isTextItem item := by
    rw [isStringLiteral_trim, isInterpolated_trim, isTextItem]
  unfold ofLiteral?
  simp only [htext]
  cases htext : isTextItem item with
  | true => exact .inl rfl
  | false =>
    have htruth : isOneOf truthWords (trim item) = isTruthItem item := rfl
    rw [htruth]
    cases isTruthItem item with
    | true => exact .inl rfl
    | false =>
      simp only [Bool.false_eq_true, if_false]
      split
      · exact .inr ⟨trivial, trivial, .inl rfl⟩
      · split
        · exact .inr ⟨trivial, trivial, .inr rfl⟩
        · exact .inl rfl

/-- The type that an item counts for: that of a literal, and the integers for anything else. -/
def ofItem (item : Text) : DataType := (ofLiteral? item).getD integer

theorem ofItem_ne_char (item : Text) : ofItem item ≠ char := by
  rw [ofItem]
  rcases ofLiteral?_cases item with h | ⟨_, _, h | h⟩ <;> rw [h]
  · split
    · simp
    · split <;> simp
  · simp
  · simp

private theorem ofItem_eq_string_iff {item : Text} : ofItem item = string ↔ isTextItem item = true := by
  rw [ofItem]
  rcases ofLiteral?_cases item with h | ⟨htext, _, h | h⟩ <;> rw [h]
  · cases isTextItem item <;> cases isTruthItem item <;> simp
  · simp [htext]
  · simp [htext]

private theorem ofItem_eq_boolean_iff {item : Text} : ofItem item = boolean ↔ isTruthItem item = true := by
  rw [ofItem]
  rcases ofLiteral?_cases item with h | ⟨_, htruth, h | h⟩ <;> rw [h]
  · cases htruth : isTruthItem item with
    | false => cases isTextItem item <;> simp
    | true => simp [not_isTextItem_of_isTruthItem htruth]
  · simp [htruth]
  · simp [htruth]

private theorem eq_string_or_eq_boolean {a b : DataType} (ha : a ≠ char) (hb : b ≠ char) (hne : b ≠ a)
    (hnumbers : ¬ (a = integer ∧ b = real ∨ a = real ∧ b = integer)) :
    (a = string ∨ b = string) ∨ a = boolean ∨ b = boolean := by
  cases a <;> cases b <;> simp_all

private theorem go_eq_string_iff {found : DataType} {ts : List DataType} (hchar : char ∉ found :: ts) :
    ofElements.go found ts = string ↔
      string ∈ found :: ts ∨ boolean ∈ found :: ts ∧ ∃ t ∈ found :: ts, t ≠ boolean := by
  induction ts generalizing found with
  | nil => cases found <;> simp_all [ofElements.go]
  | cons t ts ih =>
    rw [ofElements.go]
    split
    · next heq =>
      subst heq
      rw [ih (by simp_all)]
      simp
    · next hne =>
      split
      · next hnumbers =>
        rw [ih (by simp_all)]
        rcases hnumbers with ⟨rfl, rfl⟩ | ⟨rfl, rfl⟩ <;> simp
      · next hnumbers =>
        simp only [List.mem_cons, not_or] at hchar
        rcases eq_string_or_eq_boolean (Ne.symm hchar.1) (Ne.symm hchar.2.1) hne hnumbers with
          (rfl | rfl) | rfl | rfl
        · simp
        · simp
        · simpa using .inr (.inl hne)
        · simpa using .inr (.inl (Ne.symm hne))

/-- A text among the items, or a truth value together with another item. -/
def makesTexts (items : List Text) : Bool :=
  items.any isTextItem || items.any isTruthItem && items.any fun item => !isTruthItem item

/-- Items that are neither in quotes nor a number nor a truth value: variables, calls, interpolated strings. -/
def isExpression (item : Text) : Bool := !isStringLiteral item && (isInterpolated item || (ofLiteral? item).isNone)

theorem ofElements_eq_string_iff (items : List Text) : ofElements items = string ↔ makesTexts items = true := by
  have hmakes : makesTexts items = true ↔ string ∈ items.map ofItem ∨
      boolean ∈ items.map ofItem ∧ ∃ t ∈ items.map ofItem, t ≠ boolean := by
    simp [makesTexts, ofItem_eq_string_iff, ofItem_eq_boolean_iff]
  have hchar : char ∉ items.map ofItem := by simp [ofItem_ne_char]
  rw [hmakes]
  cases items with
  | nil => exact ⟨fun h => absurd h (by decide), by simp⟩
  | cons item items =>
    have hgo : ofElements (item :: items) = ofElements.go (ofItem item) (items.map ofItem) := rfl
    rw [hgo]
    exact go_eq_string_iff hchar

end DataType

/-! ### Declarations of arrays -/

namespace Text

private theorem unsigned64?_ofNat {n : Nat} (h : n < unsignedLimit) : unsigned64? (ofNat n) = some n := by
  have hplus : after? "+" (ofNat n) = none := by
    refine if_neg fun hlead => ?_
    obtain ⟨rest, hrest⟩ := List.isPrefixOf_iff_prefix.mp hlead
    have hdigit := (digits?_eq_some (digits?_ofNat n)).2 '+' (by simp [← hrest])
    exact absurd hdigit (by decide)
  rw [unsigned64?, hplus, Option.getD_none, digits?_ofNat, Option.bind_some, if_pos h]

private theorem replaceAll_absent {c d : Char} (lead cs rest new : Text) (hlead : c ∉ lead) (hd : d ∈ c :: cs)
    (hrest : d ∉ rest) : replaceAll (c :: cs) new (lead ++ rest) = lead ++ rest := by
  induction lead with
  | nil => exact replaceAll_of_not_mem hd hrest new
  | cons e lead ih =>
    rw [List.mem_cons, not_or] at hlead
    simp only [replaceAll] at ih ⊢
    rw [List.cons_append, replaceFrom, if_neg (by simp [List.isPrefixOf, hlead.1]), ih hlead.2]

end Text

theorem Style.arrayDeclaration_cambridge {array : Text} (harray : '{' ∉ array) {n : Nat} (hn : n < unsignedLimit)
    (type : Text) :
    Style.cambridge.arrayDeclaration array (ofNat n) type =
      "DECLARE " ++ array ++ " : ARRAY[0:" ++ ofNat (n - 1) ++ "] OF " ++ type := by
  have htemplate : Style.cambridge.arrayTemplate = "DECLARE ".toList ++ '{' :: ("name\x7d".toList ++
      (" : ARRAY[0:".toList ++ '{' :: ("last\x7d".toList ++ ("] OF ".toList ++ '{' :: ("type\x7d".toList ++ []))))) := by
    decide
  have hbound : '{' ∉ ofNat (n - 1) := fun hmem =>
    absurd ((digits?_eq_some (digits?_ofNat (n - 1))).2 _ hmem) (by decide)
  have hlast : Style.lastIndex (ofNat n) = ofNat (n - 1) := by rw [lastIndex, unsigned64?_ofNat hn]
  have hsize := replaceAll_absent (c := '{') (d := 'z') ("DECLARE ".toList ++ array) "size\x7d" (" : ARRAY[0:".toList ++
    '{' :: ("last\x7d".toList ++ ("] OF ".toList ++ '{' :: ("type\x7d".toList ++ [])))) (ofNat n) (by simpa using harray)
    (by decide) (by decide)
  have hlast' := replaceAll_slot (c := '{') (d := 'l') ("DECLARE ".toList ++ (array ++ " : ARRAY[0:".toList)) "last\x7d"
    ("] OF ".toList ++ '{' :: ("type\x7d".toList ++ [])) (ofNat (n - 1)) (by simpa using harray) (by decide) (by decide)
  have htype := replaceAll_slot (c := '{') (d := 't') ("DECLARE ".toList ++ (array ++ (" : ARRAY[0:".toList ++
    (ofNat (n - 1) ++ "] OF ".toList)))) "type\x7d" [] type (by simpa using ⟨harray, hbound⟩) (by decide) (by decide)
  rw [arrayDeclaration, Setting.trim_of_integer? (integer?_of_digits? (digits?_ofNat n)), hlast]
  change replaceAll ('{' :: "type\x7d".toList) type (replaceAll ('{' :: "last\x7d".toList) (ofNat (n - 1))
    (replaceAll ('{' :: "size\x7d".toList) (ofNat n) (replaceAll ('{' :: "name\x7d".toList) array
      Style.cambridge.arrayTemplate))) = _
  simp only [List.append_assoc] at hsize hlast' htype ⊢
  rw [htemplate, replaceAll_slot (d := 'm') _ _ _ _ (by decide) (by decide) (by decide), hsize, hlast', htype,
    List.append_nil]

/-! ### Translations of items -/

theorem Context.assign_declareOnce (cx : Context) (name type text target value : Text) :
    (cx.declareOnce name type text).2.assign target value = cx.assign target value := by
  unfold declareOnce
  split <;> rfl

theorem Context.expr_declareOnce (cx : Context) (name text e : Text) {type : Text}
    (htype : type ≠ DataType.string.name) :
    (cx.declareOnce name type text).2.expr e = cx.expr e := by
  unfold declareOnce
  split
  · rfl
  · next hnot =>
    have hnone : cx.notes.types.get? name = none := by simpa [Table.has] using hnot
    have hstrings (n : Text) : (cx.notes.addType name type).isString n = cx.notes.isString n := by
      unfold Notes.isString Notes.addType Table.add
      rw [Table.get?_modify]
      split
      · next heq =>
        rw [heq, hnone]
        simpa using htype
      · rfl
    exact Setting.expr_congr cx.toSetting { cx.symbols with notes := cx.notes.addType name type } rfl rfl hstrings e

namespace Indented

/-! ### Lines with a list -/

/-- A line of the form `array = [item, …, item]`. Its pieces stand between those commas that are outside literals and
brackets, however the line is written as code and literals. -/
structure ListLiteral where
  array : Text
  before : Text
  after : Text
  first : Text
  more : List Text
  isName : name.fits array = true
  before_blank : ∀ c ∈ before, isBlank c = true
  after_blank : ∀ c ∈ after, isBlank c = true
  body_inLine : ∀ c ∈ first ++ more.flatMap (',' :: ·), inLine c = true
  body_ne : trim (first ++ more.flatMap (',' :: ·)) ≠ []
  commas : ∀ t : Segments, t.Written → t.text = first ++ more.flatMap (',' :: ·) → ∀ i, i ∈ joints first more ↔
    t.marked[i]? = some (',', true) ∧ net true (outside (t.marked.take i)) = 0

namespace ListLiteral

/-- What stands between the brackets. -/
def body (l : ListLiteral) : Text := l.first ++ l.more.flatMap (',' :: ·)

def code (l : ListLiteral) : Text := l.array ++ (l.before ++ '=' :: (l.after ++ ("[".toList ++ (l.body ++ "]".toList))))

def items (l : ListLiteral) : List Text := (l.first :: l.more).map trim

/-- Whatever stands between the brackets has such pieces. -/
def ofBody (array before after body : Text) (hname : name.fits array = true)
    (hbefore : ∀ c ∈ before, isBlank c = true) (hafter : ∀ c ∈ after, isBlank c = true)
    (hline : ∀ c ∈ body, inLine c = true) (hne : trim body ≠ []) : ListLiteral where
  array := array
  before := before
  after := after
  first := (splitFrom ',' .code 0 body).1
  more := (splitFrom ',' .code 0 body).2
  isName := hname
  before_blank := hbefore
  after_blank := hafter
  body_inLine := by rwa [← splitFrom_eq]
  body_ne := by rwa [← splitFrom_eq]
  commas := by
    rw [← splitFrom_eq]
    intro t ht htext i
    rw [← written_iff.mp ⟨ht, htext⟩, marked_segments, mem_joints_splitFrom (by decide) (by decide), Int.zero_add]

variable (l : ListLiteral)

private theorem splitFrom_body : splitFrom ',' .code 0 l.body = (l.first, l.more) := by
  obtain ⟨hwritten, htext⟩ := written_iff.mpr (rfl : segments l.body = segments l.body)
  have hcommas := l.commas _ hwritten htext
  obtain ⟨hfirst, hmore⟩ := joints_inj (splitFrom_eq ',' .code 0 l.body).symm fun i => by
    rw [mem_joints_splitFrom (by decide) (by decide), hcommas, marked_segments, Int.zero_add]
  exact Prod.ext hfirst hmore

/-- The rule takes the pieces for the items. -/
theorem splitTopLevel_body : splitTopLevel ',' l.body = l.items := by
  rw [splitTopLevel_eq, splitFrom_body]
  refine if_neg fun hnil => l.body_ne ?_
  rw [show l.more = [] from hnil.2]
  simpa using hnil.1

private theorem exists_whole? :
    ∃ m, listPattern.whole? l.code = some m ∧ m.group 1 = l.array ∧ m.group 2 = l.body := by
  have hreads : Reads listPattern l.code [(2, l.body), (1, l.array)] := by
    have hseq : Reads listPattern _ _ :=
      .seq (.seq (.seq (.seq (.seq (.seq (.group 1 (reads_name_of_fits l.isName)) (.most l.before_blank))
        (.text "=".toList)) (.most l.after_blank)) (.text "[".toList)) (.group 2 (.most l.body_inLine)))
        (.text "]".toList)
    simpa [code, body] using hseq
  obtain ⟨m, hm⟩ := Pattern.exists_whole? (hreads.way (by decide) [] [])
  obtain ⟨n, b₁, b₂, body, hcode, hgroups, hn, hb₁, hb₂, _⟩ := reads_bracketed (reads_of_whole? hm)
  -- the name and the white space on both sides of the equals sign end at the same places
  obtain ⟨_, hword⟩ := isWordChar_of_fits l.isName
  obtain ⟨_, _, _, _, _, hword'⟩ := reads_name hn
  obtain ⟨rfl, hrest⟩ := eq_of_runs hword hword' (head?_after_blanks l.before_blank fun _ => by decide)
    (head?_after_blanks hb₁ fun _ => by decide) hcode
  obtain ⟨_, _, hrest⟩ := eq_of_runs_cons l.before_blank hb₁ (by decide) (by decide) hrest
  obtain ⟨_, _, hrest⟩ := eq_of_runs_cons l.after_blank hb₂ (by decide) (by decide) hrest
  refine ⟨m, hm, ?_, ?_⟩
  · rw [Match.group, Match.group?, hgroups]
    rfl
  · rw [Match.group, Match.group?, hgroups]
    exact (List.append_cancel_right hrest).symm

end ListLiteral

/-! ### Elements -/

open DataType (ofElements makesTexts isStringLiteral isExpression)

private theorem elementText_eq (cx : Context) (items : List Text) (item : Text) :
    elementText cx (ofElements items) item =
    if makesTexts items && !isStringLiteral item then "\"" ++ cx.expr item ++ "\"" else cx.expr item := by
  rw [elementText, show decide (ofElements items = .string) = makesTexts items by
    rw [Bool.eq_iff_iff, decide_eq_true_iff, DataType.ofElements_eq_string_iff]]

/-- The declaration of the array, and what is known after it. -/
def declares (cx : Context) (l : ListLiteral) : List Text × Context :=
  cx.declareOnce l.array (DataType.arrayOf (ofElements l.items).name)
    (cx.line (cx.style.arrayDeclaration l.array (ofNat l.items.length) (ofElements l.items).name))

/-- A list is translated as if its array were not declared yet. -/
theorem listRule_code {cx : Context} (hstyle : cx.style = .cambridge) (l : ListLiteral) :
    listRule cx l.code =
      if isComprehension ("[" ++ l.body ++ "]") then none
      else some ((declares cx l).2.writes ((declares cx l).1 ++ l.items.mapIdx fun i item =>
        cx.assign (l.array ++ "[" ++ ofNat i ++ "]") (elementText cx (ofElements l.items) item))) := by
  obtain ⟨m, hm, harray, hbody⟩ := l.exists_whole?
  have hempty : (!cx.style.arrayDeclarations || l.items.isEmpty) = false := by rw [hstyle]; rfl
  have htype : DataType.arrayOf (ofElements l.items).name ≠ DataType.string.name := by
    cases ofElements l.items <;> decide
  rw [computes_listRule.apply_eq]
  simp only [listOutcome?, hm, Option.bind_eq_bind, Option.bind_some, harray, hbody, l.splitTopLevel_body, hempty]
  cases isComprehension ("[" ++ l.body ++ "]") with
  | true => rfl
  | false =>
    simp only [elementText, cx.assign_declareOnce, cx.expr_declareOnce _ _ _ htype]
    rfl

private theorem declares_lines {cx : Context} (hstyle : cx.style = .cambridge) (l : ListLiteral)
    (hcount : l.items.length < unsignedLimit) :
    (declares cx l).1 = if cx.notes.types.has l.array then [] else
      [cx.line ("DECLARE " ++ l.array ++ " : ARRAY[0:" ++ ofNat (l.items.length - 1) ++ "] OF " ++
        (ofElements l.items).name)] := by
  have harray : '{' ∉ l.array := fun hmem => absurd ((isWordChar_of_fits l.isName).2 _ hmem) (by decide)
  rw [declares, hstyle, Style.arrayDeclaration_cambridge harray hcount, Context.declareOnce]
  split <;> rfl

private theorem quoted_ne (s : Text) : '"' :: (s ++ ['"']) ≠ s := by
  intro h
  have hlength : s.length + 1 + 1 = s.length := by simpa using congrArg List.length h
  omega

/-- A list becomes its declaration and one assignment for each item, in order. An item that is not in quotes is put
into them exactly if the array is one of texts. Variables, calls and interpolated strings are no exception: they keep
their translation only in an array of another type. -/
theorem list_items_assigned {cx : Context} (hstyle : cx.style = .cambridge) (l : ListLiteral)
    (hcount : l.items.length < unsignedLimit) :
    (listRule cx l.code = none ↔ isComprehension ("[" ++ l.body ++ "]") = true) ∧
    ∀ outcome, listRule cx l.code = some outcome →
      outcome.opens = none ∧
      ∃ declared assigned, outcome.lines = declared ++ assigned ∧
        declared = (if cx.notes.types.has l.array then [] else
          [cx.line ("DECLARE " ++ l.array ++ " : ARRAY[0:" ++ ofNat (l.items.length - 1) ++ "] OF " ++
            (ofElements l.items).name)]) ∧
        assigned.length = l.items.length ∧
        ∀ i item, l.items[i]? = some item →
          assigned[i]? = some (cx.line (l.array ++ "[" ++ ofNat i ++ "] ← " ++
            if makesTexts l.items && !isStringLiteral item then "\"" ++ cx.expr item ++ "\"" else cx.expr item)) ∧
          (isExpression item = true →
            (assigned[i]? = some (cx.line (l.array ++ "[" ++ ofNat i ++ "] ← " ++ cx.expr item)) ↔
              makesTexts l.items = false)) := by
  have hline (i : Nat) (value : Text) : cx.assign (l.array ++ "[" ++ ofNat i ++ "]") value =
      cx.line (l.array ++ "[" ++ ofNat i ++ "] ← " ++ value) := by
    simp [Context.assign, Style.assignment, hstyle, Style.cambridge]
  rw [listRule_code hstyle]
  refine ⟨by split <;> simp_all, fun outcome houtcome => ?_⟩
  obtain ⟨_, houtcome⟩ := Option.ite_none_left_eq_some.mp houtcome
  obtain rfl := Option.some.inj houtcome
  refine ⟨rfl, _, _, rfl, declares_lines hstyle l hcount, List.length_mapIdx, fun i item hitem => ?_⟩
  have hvalue : (l.items.mapIdx fun i item => cx.assign (l.array ++ "[" ++ ofNat i ++ "]")
      (elementText cx (ofElements l.items) item))[i]? = some (cx.line (l.array ++ "[" ++ ofNat i ++ "] ← " ++
        if makesTexts l.items && !isStringLiteral item then "\"" ++ cx.expr item ++ "\"" else cx.expr item)) := by
    rw [List.getElem?_mapIdx, hitem, Option.map_some, hline, elementText_eq]
  refine ⟨hvalue, fun hexpression => ?_⟩
  obtain ⟨hquotes, _⟩ := Bool.and_eq_true_iff.mp hexpression
  rw [hvalue, hquotes, Bool.and_true]
  cases makesTexts l.items with
  | true => simp [Context.line, quoted_ne]
  | false => simp

/-- A list with a comma in a literal, a comma in brackets, and a call next to a text. -/
def scores : ListLiteral :=
  .ofBody "scores" " " "" "1, \"a, b\", [x, 2], len(n)" (by decide) (List.all_eq_true.mp (by decide))
    (List.all_eq_true.mp (by decide)) (List.all_eq_true.mp (by decide)) (by decide)

theorem list_items_assigned_scores :
    let cx := State.context {} .cambridge .indentation "  "
    cx.style = .cambridge ∧ scores.items.length < unsignedLimit ∧
    scores.code = "scores =[1, \"a, b\", [x, 2], len(n)]".toList ∧
    scores.items = ["1".toList, "\"a, b\"".toList, "[x, 2]".toList, "len(n)".toList] ∧
    ∃ outcome, listRule cx scores.code = some outcome ∧ ∃ declared assigned, outcome.lines = declared ++ assigned ∧
      declared = ["  DECLARE scores : ARRAY[0:3] OF STRING".toList] ∧ assigned.length = 4 ∧
      assigned[1]? = some "  scores[1] ← \"a, b\"".toList ∧
      assigned[3]? = some "  scores[3] ← \"LENGTH(n)\"".toList := by
  have hitems : scores.items = ["1".toList, "\"a, b\"".toList, "[x, 2]".toList, "len(n)".toList] := by decide +kernel
  have hcount : scores.items.length < unsignedLimit := by
    rw [hitems]
    decide
  have hstyle : (State.context {} .cambridge .indentation "  ").style = .cambridge := rfl
  obtain ⟨hnone, hsome⟩ := list_items_assigned hstyle scores hcount
  have hcomprehension : ¬ isComprehension ("[" ++ scores.body ++ "]") = true := by decide +kernel
  obtain ⟨outcome, houtcome⟩ := Option.ne_none_iff_exists'.mp (mt hnone.mp hcomprehension)
  obtain ⟨_, declared, assigned, hlines, hdeclared, hlength, hvalues⟩ := hsome outcome houtcome
  rw [hitems] at hdeclared hlength hvalues
  refine ⟨hstyle, hcount, by decide +kernel, hitems, outcome, houtcome, declared, assigned, hlines, ?_, hlength, ?_, ?_⟩
  · rw [hdeclared]
    decide +kernel
  · rw [(hvalues 1 _ rfl).1]
    decide +kernel
  · rw [(hvalues 3 _ rfl).1]
    decide +kernel

/-- An interpolated string has a translation of its own, and as an item it becomes a constant with quotes in it. -/
theorem interpolated_item_quoted :
    (convert ⟨.indentation, .cambridge⟩ "x = f\"hi \x7bn\x7d\"").output = "x ← \"hi \" & n" ∧
    (convert ⟨.indentation, .cambridge⟩ "xs = [f\"hi \x7bn\x7d\"]").output =
      "DECLARE xs : ARRAY[0:0] OF STRING\nxs[0] ← \"\"hi \" & n\"" := by
  decide +kernel

end Indented

end Pseudocode
