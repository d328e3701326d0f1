import Pseudocode.Proofs.CommentMarks
import Pseudocode.Proofs.PatternReading

/-! # What the rules of indented sources note

Three kinds of lines matter for the headers of routines. A line that returns a value marks the innermost
open routine. A line that defines a routine opens a block with a provisional header. All other lines may
add to what is known of types, and no type that is noted has a slash. -/

namespace Pseudocode

open Text

/-! ### Values of tables -/

namespace Table

variable {α : Type} {P : α → Prop} {t : Table α}

def All (P : α → Prop) (t : Table α) : Prop := ∀ e ∈ t.entries, P e.2

theorem All.modify (h : t.All P) {initial : α} {f : α → α} (hinitial : P (f initial))
    (hf : ∀ v, P v → P (f v)) (k : Text) : (t.modify k initial f).All P := by
  intro e he
  unfold Table.modify at he
  split at he
  · obtain ⟨e', he', rfl⟩ := List.mem_map.mp he
    split
    · exact hf _ (h e' he')
    · exact h e' he'
  · rcases List.mem_append.mp he with he | he
    · exact h e he
    · obtain rfl := List.mem_singleton.mp he
      exact hinitial

theorem All.set (h : t.All P) {v : α} (hv : P v) (k : Text) : (t.set k v).All P :=
  h.modify hv (fun _ _ => hv) k

theorem All.add (h : t.All P) {v : α} (hv : P v) (k : Text) : (t.add k v).All P :=
  h.modify hv (fun _ => id) k

theorem All.get? (h : t.All P) {k : Text} {v : α} (hv : t.get? k = some v) : P v := by
  obtain ⟨before, after, heq, _⟩ := List.lookup_eq_some_iff.mp hv
  exact h (k, v) (by simp [heq])

theorem lookup_cons_eq_ite (e : Text × α) (entries : List (Text × α)) (k : Text) :
    (e :: entries).lookup k = if k = e.1 then some e.2 else entries.lookup k := by
  obtain ⟨key, v⟩ := e
  by_cases hk : k = key
  · simp [hk]
  · simp [List.lookup_cons, beq_false_of_ne hk, hk]

private theorem lookup_map_entries (k : Text) (f : α → α) (entries : List (Text × α)) (k' : Text) :
    (entries.map fun e => if e.1 = k then (k, f e.2) else e).lookup k' =
      if k' = k then (entries.lookup k).map f else entries.lookup k' := by
  induction entries with
  | nil => simp
  | cons e entries ih =>
    rw [List.map_cons, lookup_cons_eq_ite, lookup_cons_eq_ite, lookup_cons_eq_ite, ih]
    by_cases he : e.1 = k
    · simp only [he, ↓reduceIte]
      by_cases hk : k' = k <;> simp [hk]
    · simp only [he, Ne.symm he, ↓reduceIte]
      by_cases hk : k' = k
      · simp [hk, Ne.symm he]
      · simp [hk]

theorem get?_modify (t : Table α) (k : Text) (initial : α) (f : α → α) (k' : Text) :
    (t.modify k initial f).get? k' =
      if k' = k then some (f ((t.get? k).getD initial)) else t.get? k' := by
  unfold modify has
  cases hv : t.get? k with
  | some v =>
    have hlookup : t.entries.lookup k = some v := hv
    simp [get?, lookup_map_entries, hlookup]
  | none =>
    have hlookup : t.entries.lookup k = none := hv
    by_cases hk : k' = k
    · simp [get?, List.lookup_append, hk, hlookup]
    · simp [get?, List.lookup_append, lookup_cons_eq_ite, hk]

theorem get?_set (t : Table α) (k : Text) (v : α) (k' : Text) :
    (t.set k v).get? k' = if k' = k then some v else t.get? k' :=
  t.get?_modify k v (fun _ => v) k'

end Table

/-! ### What is learnt -/

namespace Notes

/-- No type that is noted has a slash. -/
structure Clear (n : Notes) : Prop where
  types : n.types.All ('/' ∉ ·)
  returnTypes : n.returnTypes.All ('/' ∉ ·)

/-- More is known, but of no further routine that it returns a value, and of no further record that it is
declared. -/
structure Learns (n n' : Notes) : Prop where
  returns : n'.returns = n.returns
  clear : n.Clear → n'.Clear
  records : n'.declaredRecords = n.declaredRecords

theorem clear_initial : Clear {} :=
  ⟨List.forall_mem_nil _, List.forall_mem_nil _⟩

namespace Learns

variable {n n' n'' : Notes}

theorem refl (n : Notes) : n.Learns n := ⟨rfl, id, rfl⟩

theorem trans (h : n.Learns n') (h' : n'.Learns n'') : n.Learns n'' :=
  ⟨h'.returns.trans h.returns, h'.clear ∘ h.clear, h'.records.trans h.records⟩

theorem addType (n : Notes) (name : Text) {type : Text} (h : '/' ∉ type) :
    n.Learns (n.addType name type) :=
  ⟨rfl, fun hn => ⟨hn.types.add h name, hn.returnTypes⟩, rfl⟩

theorem addTypeOf (n : Notes) (name expr : Text) : n.Learns (n.addTypeOf name expr) := by
  unfold Notes.addTypeOf
  split
  · next type _ => exact addType n name type.slash_not_mem_name
  · exact refl n

theorem addLambda (n : Notes) (name : Text) : n.Learns (n.addLambda name) :=
  ⟨rfl, fun hn => ⟨hn.types, hn.returnTypes⟩, rfl⟩

theorem addReturnType (n : Notes) (key : Text) {type : Text} (h : '/' ∉ type) :
    n.Learns { n with returnTypes := n.returnTypes.set key type } :=
  ⟨rfl, fun hn => ⟨hn.types, hn.returnTypes.set h key⟩, rfl⟩

theorem declareOnce (cx : Context) (name : Text) {type : Text} (h : '/' ∉ type) (text : Text) :
    cx.notes.Learns (cx.declareOnce name type text).2.notes := by
  unfold Context.declareOnce
  split
  · exact refl cx.notes
  · exact addType cx.notes name h

theorem assignEach (saved : List Text) (cx : Context) (pairs : List (Text × Text)) :
    cx.notes.Learns (Indented.assignEach saved cx pairs).2.notes := by
  induction pairs generalizing cx with
  | nil => exact refl _
  | cons pair pairs ih =>
    obtain ⟨target, value⟩ := pair
    rw [Indented.assignEach]
    exact (addTypeOf cx.notes target _).trans (ih (cx.withNotes _))

end Learns

/-- The innermost routine is marked, with a type that has no slash. -/
theorem Clear.markReturn {n : Notes} (h : n.Clear) (blocks : List Block) {type : Option Text}
    (ht : ∀ t ∈ type, '/' ∉ t) : (n.markReturn blocks type).Clear := by
  unfold Notes.markReturn
  split
  · cases type with
    | none => exact ⟨h.types, h.returnTypes⟩
    | some t => exact ⟨h.types, h.returnTypes.add (ht t rfl) _⟩
  · exact h

theorem declaredRecords_markReturn (n : Notes) (blocks : List Block) (type : Option Text) :
    (n.markReturn blocks type).declaredRecords = n.declaredRecords := by
  unfold markReturn
  split <;> rfl

end Notes

/-- Surveying notes the names of lambdas and nothing else. -/
theorem Symbols.learns_surveyIndented (s : Symbols) (lines : List Line) :
    s.notes.Learns (s.surveyIndented lines).notes := by
  have hline (scope : ClassScope) (line : Line) (s : Symbols) :
      s.notes.Learns (surveyIndentedLine scope line s).2.notes := by
    unfold surveyIndentedLine
    dsimp only
    split
    · exact .refl _
    split
    · exact .refl _
    split
    · exact .addLambda ..
    · exact .refl _
  unfold surveyIndented
  generalize (none : ClassScope) = scope
  induction lines generalizing scope s with
  | nil => exact .refl _
  | cons line lines ih => exact (hline scope line s).trans (ih _ _)

/-- Of what is noted, a translation depends on which names are strings and which are routines. -/
theorem Setting.expr_congr (st : Setting) (symbols : Symbols) (hsurvey : symbols.survey = st.symbols.survey)
    (hlambdas : symbols.notes.lambdas = st.symbols.notes.lambdas)
    (hstrings : ∀ n, symbols.notes.isString n = st.symbols.notes.isString n) (e : Text) :
    ({ st with symbols } : Setting).expr e = st.expr e := by
  have hindex (s : Text) : ({ st with symbols } : Setting).stringIndex s = st.stringIndex s := by
    simp only [stringIndex, hstrings]
    rfl
  have hfield (s : Text) : ({ st with symbols } : Setting).fieldAccess s = st.fieldAccess s := by
    simp only [fieldAccess, hsurvey]
  have hsum (s : Text) : ({ st with symbols } : Setting).concatenate s = st.concatenate s := by
    have hoperand : ({ st with symbols } : Setting).isStringOperand = st.isStringOperand := funext fun s => by
      simp only [isStringOperand, hstrings]
    simp only [concatenate, hoperand]
  have hcode : ({ st with symbols } : Setting).respellCode = st.respellCode := funext fun s => by
    have hcalls (s : Text) : ({ st with symbols } : Setting).routineCalls s = st.routineCalls s := by
      simp only [routineCalls, Symbols.isClass, Symbols.isRoutine, hsurvey, hlambdas]
      rfl
    simp only [respellCode, hcalls]
    rfl
  simp only [expr, hindex, hfield, hsum, hcode]
  rfl

namespace Indented

/-! ### Parameters and results -/

/-- Trimmed text does not begin with white space. -/
theorem isBlank_of_mem_head?_trim {s : Text} {c : Char} (h : c ∈ (trim s).head?) :
    isBlank c = false := by
  have hstart : c ∈ (trimStart s).head? := by
    have hends : trim s <+: trimStart s := by
      unfold trim trimEnd dropEndWhile
      rw [← List.reverse_suffix, List.reverse_reverse]
      exact List.dropWhile_suffix _
    obtain ⟨rest, hrest⟩ := hends
    rw [← hrest, List.head?_append, show (trim s).head? = some c from h]
    rfl
  have hdrop := List.head?_dropWhile_not isBlank s
  rw [show (s.dropWhile isBlank).head? = some c from hstart] at hdrop
  simpa using hdrop

theorem head?_of_mem_parameterNames {list p : Text} (h : p ∈ parameterNames list) :
    ∃ c ∈ p.head?, c ≠ ' ' := by
  obtain ⟨hp, hne⟩ := List.mem_filter.mp h
  obtain ⟨param, _, rfl⟩ := List.mem_map.mp hp
  cases hhead : (parameterName param).head? with
  | none => simp [List.head?_eq_none_iff.mp hhead] at hne
  | some c =>
    refine ⟨c, rfl, ?_⟩
    rintro rfl
    have hblank := isBlank_of_mem_head?_trim hhead
    cases hblank

theorem slash_not_mem_arrayOf (type : DataType) : '/' ∉ DataType.arrayOf type.name := by
  cases type <;> decide

/-- The value that a line returns, if it does. -/
def returned? (code : Text) : Option Text :=
  (returnPattern.whole? code).bind fun m =>
    match trim (m.group 1) with
    | [] => none
    | value => some value

theorem slash_not_mem_returnType? {cx : Context} (h : cx.notes.Clear) (value : Text) :
    ∀ t ∈ returnType? cx value, '/' ∉ t := by
  intro t ht
  unfold returnType? at ht
  rcases Pattern.eq_some_of_orElse ht with ht | ht
  · obtain ⟨type, _, rfl⟩ := Option.map_eq_some_iff.mp ht
    exact type.slash_not_mem_name
  rcases Pattern.eq_some_of_orElse ht with ht | ht
  · exact h.types.get? ht
  · unfold unassignedType? at ht
    split at ht
    · obtain rfl := Option.some.inj ht
      exact DataType.slash_not_mem_name _
    · cases ht

end Indented

end Pseudocode
