import Pseudocode.Proofs.LiteralAssignments
import Pseudocode.Proofs.RuleEffects

/-! # Fields of records

A source writes the fields of a variable in dictionaries and through keys. The survey enters every field
once, in the order of the lines and with the type of the first value. The order in which a line is tried
for classes, routines and instance fields loses none of them, since no such line writes a field. -/

namespace Pseudocode

open Text Pattern

/-- White space begins with no word character, nor does what follows it if there is none. -/
theorem Text.head?_after_blanks {b t : Text} {d : Char} (hb : ∀ c ∈ b, isBlank c = true)
    (hd : b = [] → isWordChar d = false) : (b ++ d :: t).head?.any isWordChar = false := by
  cases b with
  | nil => exact hd rfl
  | cons c b => exact isWordChar_of_isBlank (hb c (by simp))

/-! ### Tables of first entries -/

/-- The first of the entries with each key. -/
def firstSeen : List (Text × Text) → List (Text × Text)
  | [] => []
  | w :: ws => w :: (firstSeen ws).filter fun e => e.1 ≠ w.1

theorem mem_keys_firstSeen {ws : List (Text × Text)} {k : Text} :
    k ∈ (firstSeen ws).map Prod.fst ↔ k ∈ ws.map Prod.fst := by
  induction ws with
  | nil => rfl
  | cons w ws ih =>
    have hfilter : k ∈ ((firstSeen ws).filter fun e => e.1 ≠ w.1).map Prod.fst ↔
        k ∈ ws.map Prod.fst ∧ k ≠ w.1 := by
      rw [← ih]
      simp only [List.mem_map, List.mem_filter, decide_eq_true_eq]
      constructor
      · rintro ⟨e, ⟨he, hne⟩, rfl⟩
        exact ⟨⟨e, he, rfl⟩, hne⟩
      · rintro ⟨⟨e, he, rfl⟩, hne⟩
        exact ⟨e, ⟨he, hne⟩, rfl⟩
    rw [firstSeen, List.map_cons, List.mem_cons, hfilter, List.map_cons, List.mem_cons]
    by_cases hk : k = w.1 <;> simp [hk]

namespace Table

variable {α : Type}

theorem has_iff {t : Table α} {k : Text} : t.has k = true ↔ k ∈ t.entries.map Prod.fst := by
  unfold has get?
  induction t.entries with
  | nil => simp
  | cons e entries ih =>
    rw [lookup_cons_eq_ite, List.map_cons, List.mem_cons]
    by_cases hk : k = e.1 <;> simp [hk, ih, eq_comm]

theorem add_of_has {t : Table α} {k : Text} (h : t.has k = true) (v : α) : t.add k v = t := by
  have hmap : (t.entries.map fun e => if e.1 = k then (k, id e.2) else e) = t.entries := by
    rw [List.map_congr_left (g := id), List.map_id]
    intro e _
    split
    · next he => rw [← he]; rfl
    · rfl
  rw [add, modify, if_pos h, hmap]

private theorem entries_add_of_not_has {t : Table α} {k : Text} (h : t.has k = false) (v : α) :
    (t.add k v).entries = t.entries ++ [(k, v)] := by
  simp [add, modify, h]

theorem entries_foldl_add (ws : List (Text × Text)) (t : Table Text) :
    (ws.foldl (fun t w => t.add w.1 w.2) t).entries =
      t.entries ++ (firstSeen ws).filter fun w => !t.has w.1 := by
  induction ws generalizing t with
  | nil => simp [firstSeen]
  | cons w ws ih =>
    rw [List.foldl_cons, ih, firstSeen, List.filter_cons, List.filter_filter]
    cases hw : t.has w.1 with
    | true =>
      rw [add_of_has hw]
      simp only [Bool.not_true, Bool.false_eq_true, if_false]
      congr 1
      refine List.filter_congr fun e _ => ?_
      by_cases he : e.1 = w.1
      · simp [he, hw]
      · simp [he]
    | false =>
      have hhas (k : Text) : (t.add w.1 w.2).has k = (t.has k || decide (k = w.1)) := by
        rw [Bool.eq_iff_iff, has_iff, entries_add_of_not_has hw]
        simp [has_iff]
      rw [entries_add_of_not_has hw, List.append_assoc]
      simp only [hhas, Bool.not_false, if_true, List.singleton_append, Bool.not_or]
      congr 2
      refine List.filter_congr fun e _ => ?_
      simp

end Table

/-! ### Fields that a line writes -/

/-- A field of a record that gets a value of some type. -/
structure FieldWrite where
  record : Text
  field : Text
  type : Text
  deriving DecidableEq

namespace FieldWrite

/-- A key is a field if it is an identifier; the type is that of a literal. -/
def ofKey? (record key value : Text) : Option FieldWrite :=
  if Name.isIdentifier key then some ⟨record, key, ((DataType.ofLiteral? value).getD .string).name⟩
  else none

/-- An entry of a dictionary, whose key has to be in quotes. -/
def ofItem? (record entry : Text) : Option FieldWrite :=
  (splitAt? ":" entry).bind fun pair =>
    (between? "\"" "\"" (trim pair.1) <|> between? "'" "'" (trim pair.1)).bind fun key =>
      ofKey? record key pair.2

/-- The fields that a line with a dictionary writes. -/
def ofDictionary (code : Text) : List FieldWrite :=
  match Symbols.dictionary.whole? code with
  | some m => (splitTopLevel ',' (m.group 2)).filterMap (ofItem? (m.group 1))
  | none => []

/-- The field that a line writes through its key. -/
def ofKeyWrite (code : Text) : List FieldWrite :=
  match Symbols.keyWrite.whole? code with
  | some m => (ofKey? (m.group 1) ((m.group? 2 <|> m.group? 3).getD []) (m.group 4)).toList
  | none => []

/-- The fields that a line writes. -/
def ofCode (code : Text) : List FieldWrite := ofDictionary code ++ ofKeyWrite code

/-- Enters a field of a record; the type first seen stays. -/
def enter (records : Table (Table Text)) (w : FieldWrite) : Table (Table Text) :=
  records.modify w.record {} fun fields => fields.add w.field w.type

/-- The fields of one record with their types, in the order in which lines write them. -/
def fieldsOf (record : Text) (ws : List FieldWrite) : List (Text × Text) :=
  (ws.filter fun w => w.record = record).map fun w => (w.field, w.type)

end FieldWrite

/-- The fields of a record with their types, in the order in which the code lines write them. -/
def fieldsWritten (lines : List Line) (record : Text) : List (Text × Text) :=
  FieldWrite.fieldsOf record ((lines.filter Line.isCode).flatMap fun l => FieldWrite.ofCode l.code)

/-- The fields that a survey has of a record. -/
def Survey.fieldsOf (s : Survey) (record : Text) : Table Text := (s.records.get? record).getD {}

namespace FieldWrite

private theorem get?_enter (records : Table (Table Text)) (w : FieldWrite) (record : Text) :
    ((enter records w).get? record).getD {} =
      if w.record = record then ((records.get? record).getD {}).add w.field w.type
      else (records.get? record).getD {} := by
  unfold enter
  rw [Table.get?_modify]
  by_cases h : w.record = record
  · subst h
    simp
  · simp [h, Ne.symm h]

theorem entries_foldl_enter (ws : List FieldWrite) (records : Table (Table Text)) (record : Text) :
    ((ws.foldl enter records).get? record).getD {} =
      (fieldsOf record ws).foldl (fun t w => t.add w.1 w.2) ((records.get? record).getD {}) := by
  induction ws generalizing records with
  | nil => rfl
  | cons w ws ih =>
    rw [List.foldl_cons, ih, get?_enter]
    unfold fieldsOf
    by_cases h : w.record = record <;> simp [h]

end FieldWrite

/-! ### Lines that write fields -/

namespace Symbols

theorem reads_dictionary {s : Text} {g : Groups} (h : Reads dictionary s g) :
    ∃ n b₁ a b₂ body, s = n ++ (b₁ ++ (a ++ '=' :: (b₂ ++ '\x7b' :: (body ++ ['\x7d'])))) ∧
      g = [(2, body), (1, n)] ∧ Reads name n [] ∧ (∀ c ∈ b₁, isBlank c = true) ∧
      (a = [] ∨ a.head? = some ':') ∧ (∀ c ∈ b₂, isBlank c = true) := by
  obtain ⟨_, _, _, _, rfl, rfl, h₁, hclose⟩ := reads_append.mp h
  obtain ⟨rfl, rfl⟩ := reads_text.mp hclose
  obtain ⟨_, body, _, _, rfl, rfl, h₂, hbody⟩ := reads_append.mp h₁
  obtain ⟨_, rfl, hbody'⟩ := reads_group.mp hbody
  obtain ⟨_, rfl⟩ := reads_most.mp hbody'
  obtain ⟨_, _, _, _, rfl, rfl, h₃, hopen⟩ := reads_append.mp h₂
  obtain ⟨rfl, rfl⟩ := reads_text.mp hopen
  obtain ⟨_, b₂, _, _, rfl, rfl, h₄, hgap₂⟩ := reads_append.mp h₃
  obtain ⟨hb₂, rfl⟩ := reads_most.mp hgap₂
  obtain ⟨_, _, _, _, rfl, rfl, h₅, hequals⟩ := reads_append.mp h₄
  obtain ⟨rfl, rfl⟩ := reads_text.mp hequals
  obtain ⟨_, a, _, ga, rfl, rfl, h₆, ha⟩ := reads_append.mp h₅
  obtain ⟨n, b₁, _, _, rfl, rfl, hgroup, hgap₁⟩ := reads_append.mp h₆
  obtain ⟨hb₁, rfl⟩ := reads_most.mp hgap₁
  obtain ⟨_, rfl, hn⟩ := reads_group.mp hgroup
  obtain ⟨rfl, _⟩ := reads_name hn
  have ha' : (a = [] ∨ a.head? = some ':') ∧ ga = [] := by
    rcases reads_either.mp ha with ha | ha
    · obtain ⟨_, _, _, _, rfl, rfl, hlead, htype⟩ := reads_append.mp ha
      obtain ⟨_, _, rfl⟩ := reads_most1.mp htype
      obtain ⟨_, _, _, _, rfl, rfl, hcolon, hgap⟩ := reads_append.mp hlead
      obtain ⟨_, rfl⟩ := reads_most.mp hgap
      obtain ⟨rfl, rfl⟩ := reads_text.mp hcolon
      exact ⟨.inr rfl, rfl⟩
    · obtain ⟨rfl, rfl⟩ := reads_nothing.mp ha
      exact ⟨.inl rfl, rfl⟩
  obtain ⟨ha', rfl⟩ := ha'
  exact ⟨n, b₁, a, b₂, body, by simp, rfl, hn, hb₁, ha', hb₂⟩

/-- A name, white space, and a sign after which a field may be written. -/
def BeginsField (code : Text) : Prop :=
  ∃ n b c r, code = n ++ (b ++ c :: r) ∧ (∀ d ∈ n, isWordChar d = true) ∧
    (∀ d ∈ b, isBlank d = true) ∧ (c = ':' ∨ c = '[' ∨
      c = '=' ∧ ∃ b' r', r = b' ++ '\x7b' :: r' ∧ ∀ d ∈ b', isBlank d = true)

theorem beginsField_of_dictionary {code : Text} {g : Groups} (h : Reads dictionary code g) :
    BeginsField code := by
  obtain ⟨n, b₁, a, b₂, body, rfl, rfl, hn, hb₁, ha, hb₂⟩ := reads_dictionary h
  obtain ⟨_, _, _, _, _, hn⟩ := reads_name hn
  cases a with
  | nil => exact ⟨n, b₁, '=', _, rfl, hn, hb₁, .inr (.inr ⟨rfl, b₂, _, rfl, hb₂⟩)⟩
  | cons c a =>
    obtain rfl : c = ':' := by simpa using ha
    exact ⟨n, b₁, ':', _, rfl, hn, hb₁, .inl rfl⟩

theorem beginsField_of_keyWrite {code : Text} {g : Groups} (h : Reads keyWrite code g) :
    BeginsField code := by
  obtain ⟨_, rest, _, rfl, hlead⟩ := h.leading 8
  have hlead : Reads (.group 1 name ++ gap ++ .text "[".toList) _ _ := hlead
  obtain ⟨_, _, _, _, rfl, rfl, hname, hbracket⟩ := reads_append.mp hlead
  obtain ⟨rfl, _⟩ := reads_text.mp hbracket
  obtain ⟨n, b, _, _, rfl, rfl, hgroup, hgap⟩ := reads_append.mp hname
  obtain ⟨_, rfl, hn⟩ := reads_group.mp hgroup
  obtain ⟨_, _, _, _, _, hn⟩ := reads_name hn
  exact ⟨n, b, '[', rest, by simp, hn, (reads_most.mp hgap).1, .inr (.inl rfl)⟩

theorem BeginsField.sign {w b t : Text} {d : Char} (h : BeginsField (w ++ (b ++ d :: t)))
    (hw : ∀ c ∈ w, isWordChar c = true) (hb : ∀ c ∈ b, isBlank c = true) (hd : isBlank d = false)
    (hedge : b = [] → isWordChar d = false) :
    d = ':' ∨ d = '[' ∨ d = '=' ∧ ∃ b' r, t = b' ++ '\x7b' :: r ∧ ∀ c ∈ b', isBlank c = true := by
  obtain ⟨n, b', c, r, heq, hn, hb', hc⟩ := h
  have hsign : isBlank c = false ∧ isWordChar c = false := by
    rcases hc with rfl | rfl | ⟨rfl, _⟩ <;> decide
  obtain ⟨rfl, hrest⟩ := eq_of_runs hw hn (head?_after_blanks hb hedge)
    (head?_after_blanks hb' fun _ => hsign.2) heq
  obtain ⟨rfl, rfl, rfl⟩ := eq_of_runs_cons hb hb' hd hsign.1 hrest
  exact hc

theorem BeginsField.not_words {w b t : Text} {d : Char} (hw : ∀ c ∈ w, isWordChar c = true)
    (hne : b ≠ []) (hb : ∀ c ∈ b, isBlank c = true) (hd : isWordChar d = true) :
    ¬ BeginsField (w ++ (b ++ d :: t)) := by
  intro h
  have hblank : isBlank d = false := by
    by_contra hblank
    rw [isWordChar_of_isBlank (by simpa using hblank)] at hd
    cases hd
  rcases h.sign hw hb hblank (fun h => absurd h hne) with rfl | rfl | ⟨rfl, _⟩ <;> revert hd <;> decide

theorem lead?_classLead {code : Text} (h : BeginsField code) : classLead.lead? code = none := by
  refine Option.eq_none_iff_forall_ne_some.mpr fun m hm => ?_
  obtain ⟨rest, rfl, hway⟩ := way_of_lead? hm
  obtain ⟨_, _, _, _, htext, _, hlead, hgroup⟩ := reads_append.mp hway.reads
  obtain ⟨_, _, hname⟩ := reads_group.mp hgroup
  obtain ⟨_, d, t, rfl, hd, _⟩ := reads_name hname
  obtain ⟨_, b, _, _, rfl, _, hword, hgap⟩ := reads_append.mp hlead
  obtain ⟨rfl, _⟩ := reads_text.mp hword
  obtain ⟨hne, hb, _⟩ := reads_most1.mp hgap
  rw [htext] at h
  refine BeginsField.not_words (w := "class".toList) (t := t ++ rest)
    (List.all_eq_true.mp (by decide)) hne hb hd ?_
  simpa using h

theorem lead?_defLead {code : Text} (h : BeginsField code) : defLead.lead? code = none := by
  refine Option.eq_none_iff_forall_ne_some.mpr fun m hm => ?_
  obtain ⟨rest, rfl, hway⟩ := way_of_lead? hm
  obtain ⟨s, more, _, htext, hlead⟩ := hway.reads.leading 2
  rw [htext] at h
  have hlead : Reads (opt ("async" ++ gap1) ++ "def" ++ gap1 ++ .group 1 name) _ _ := hlead
  obtain ⟨_, _, _, _, rfl, _, hdef, hgroup⟩ := reads_append.mp hlead
  obtain ⟨_, _, hname⟩ := reads_group.mp hgroup
  obtain ⟨_, d, t, rfl, hd, _⟩ := reads_name hname
  obtain ⟨_, b, _, _, rfl, _, hword, hgap⟩ := reads_append.mp hdef
  obtain ⟨hne, hb, _⟩ := reads_most1.mp hgap
  obtain ⟨_, _, _, _, rfl, _, hasync, hword⟩ := reads_append.mp hword
  obtain ⟨rfl, _⟩ := reads_text.mp hword
  rcases reads_either.mp hasync with hasync | hasync
  · obtain ⟨_, b', _, _, rfl, _, hword', hgap'⟩ := reads_append.mp hasync
    obtain ⟨rfl, _⟩ := reads_text.mp hword'
    obtain ⟨hne', hb', _⟩ := reads_most1.mp hgap'
    refine BeginsField.not_words (w := "async".toList) (d := 'd')
      (List.all_eq_true.mp (by decide)) hne' hb' (by decide) ?_
      (t := "ef".toList ++ (b ++ d :: (t ++ more ++ rest)))
    simpa using h
  · obtain ⟨rfl, _⟩ := reads_nothing.mp hasync
    refine BeginsField.not_words (w := "def".toList) (t := t ++ more ++ rest)
      (List.all_eq_true.mp (by decide)) hne hb hd ?_
    simpa using h

theorem lead?_lambdaLead {code : Text} (h : BeginsField code) : lambdaLead.lead? code = none := by
  refine Option.eq_none_iff_forall_ne_some.mpr fun m hm => ?_
  obtain ⟨rest, rfl, hway⟩ := way_of_lead? hm
  obtain ⟨s, more, _, htext, hlead⟩ := hway.reads.leading 1
  rw [htext] at h
  have hlead : Reads (.group 1 name ++ gap ++ "=" ++ gap ++ "lambda") _ _ := hlead
  obtain ⟨_, _, _, _, rfl, _, h₁, hword⟩ := reads_append.mp hlead
  obtain ⟨rfl, _⟩ := reads_text.mp hword
  obtain ⟨_, b', _, _, rfl, _, h₂, hgap'⟩ := reads_append.mp h₁
  obtain ⟨_, _, _, _, rfl, _, h₃, hequals⟩ := reads_append.mp h₂
  obtain ⟨rfl, _⟩ := reads_text.mp hequals
  obtain ⟨n, b, _, _, rfl, _, hgroup, hgap⟩ := reads_append.mp h₃
  obtain ⟨_, _, hname⟩ := reads_group.mp hgroup
  obtain ⟨_, _, _, _, _, hn⟩ := reads_name hname
  have hb := (reads_most.mp hgap).1
  have hb' := (reads_most.mp hgap').1
  have hsign := BeginsField.sign (w := n) (b := b) (d := '=')
    (t := b' ++ 'l' :: ("ambda".toList ++ more ++ rest)) (by simpa using h) hn hb (by decide)
    fun _ => by decide
  rcases hsign with hd | hd | ⟨_, b'', r, heq, hb''⟩
  · cases hd
  · cases hd
  · obtain ⟨_, hd, _⟩ := eq_of_runs_cons hb' hb'' (by decide) (by decide) heq
    cases hd

theorem lead?_receiverField {code : Text} (h : BeginsField code) : receiverField.lead? code = none := by
  refine Option.eq_none_iff_forall_ne_some.mpr fun m hm => ?_
  obtain ⟨rest, rfl, hway⟩ := way_of_lead? hm
  obtain ⟨s, more, _, htext, hlead⟩ := hway.reads.leading 4
  rw [htext] at h
  have hlead : Reads (oneOf ["self", "this"] ++ ".") _ _ := hlead
  obtain ⟨w, _, _, _, rfl, _, hreceiver, hdot⟩ := reads_append.mp hlead
  obtain ⟨rfl, _⟩ := reads_text.mp hdot
  have hw : ∀ c ∈ w, isWordChar c = true := by
    refine List.all_eq_true.mp ?_
    rcases reads_either.mp hreceiver with hself | hself <;> obtain ⟨rfl, _⟩ := reads_text.mp hself <;> decide
  have hsign := BeginsField.sign (w := w) (b := []) (d := '.') (t := more ++ rest) (by simpa using h) hw
    (by simp) (by decide) (by decide)
  rcases hsign with hd | hd | ⟨hd, _⟩ <;> cases hd

/-! ### What a statement leaves alone -/

section

variable {α : Type} {π : Survey → α}

theorem addTargets_keeps (hname : ∀ s n, π (s.addName n) = π s) (code : Text) (s : Survey) :
    π (addTargets code s) = π s := by
  unfold addTargets
  split
  · exact hname ..
  split
  · next target _ _ =>
    induction splitTopLevel ',' (trim (upTo ":" (trim target))) generalizing s with
    | nil => rfl
    | cons t ts ih =>
      rw [List.foldl_cons, ih]
      split
      · exact hname ..
      · rfl
  · rfl

variable (hfield : ∀ s record key type, π (s.addRecordField record key type) = π s)

include hfield

theorem addField_keeps (record key value : Text) (s : Survey) : π (addField record key value s) = π s := by
  unfold addField
  split
  · exact hfield ..
  · rfl

private theorem addFields_keeps (record body : Text) (s : Survey) : π (addFields record body s) = π s := by
  unfold addFields
  induction splitTopLevel ',' body generalizing s with
  | nil => rfl
  | cons pair pairs ih =>
    rw [List.foldl_cons, ih]
    split
    · split
      · exact addField_keeps hfield ..
      · rfl
    · rfl

theorem surveyStatement_cases (hname : ∀ s n, π (s.addName n) = π s) (scope : ClassScope) (code : Text)
    (s : Survey) :
    (∃ m c, receiverField.lead? code = some m ∧ scope = some c ∧
      surveyStatement scope code s = s.addClassField c.1 (m.group 1)) ∨
    (receiverField.lead? code = none ∨ scope = none) ∧ π (surveyStatement scope code s) = π s := by
  unfold surveyStatement
  split
  · next m cls column hm => exact .inl ⟨m, (cls, column), hm, rfl, rfl⟩
  · next hnone =>
    refine .inr ⟨?_, ?_⟩
    · by_contra hsome
      obtain ⟨hm, hscope⟩ := not_or.mp hsome
      obtain ⟨m, hm⟩ := Option.ne_none_iff_exists'.mp hm
      obtain ⟨c, hc⟩ := Option.ne_none_iff_exists'.mp hscope
      exact hnone m c.1 c.2 hm hc
    · cases dictionary.whole? code <;> cases keyWrite.whole? code <;>
        simp only [addTargets_keeps hname, addField_keeps hfield, addFields_keeps hfield]

end

/-! ### What the survey enters -/

theorem records_addField (record key value : Text) (s : Survey) :
    (addField record key value s).records =
      (FieldWrite.ofKey? record key value).toList.foldl FieldWrite.enter s.records := by
  unfold addField FieldWrite.ofKey?
  split <;> rfl

private theorem records_addFields (record body : Text) (s : Survey) :
    (addFields record body s).records =
      ((splitTopLevel ',' body).filterMap (FieldWrite.ofItem? record)).foldl FieldWrite.enter
        s.records := by
  unfold addFields
  induction splitTopLevel ',' body generalizing s with
  | nil => rfl
  | cons entry entries ih =>
    rw [List.foldl_cons, ih, List.filterMap_cons, FieldWrite.ofItem?]
    cases splitAt? ":" entry with
    | none => rfl
    | some pair =>
      simp only [Option.bind_some]
      cases between? "\"" "\"" (trim pair.1) <|> between? "'" "'" (trim pair.1) with
      | none => rfl
      | some key =>
        simp only [Option.bind_some, records_addField]
        cases FieldWrite.ofKey? record key pair.2 <;> rfl

private theorem records_addTargets (code : Text) (s : Survey) : (addTargets code s).records = s.records :=
  addTargets_keeps (fun _ _ => rfl) code s

theorem beginsField_of_ofCode {code : Text} (h : FieldWrite.ofCode code ≠ []) : BeginsField code := by
  unfold FieldWrite.ofCode FieldWrite.ofDictionary FieldWrite.ofKeyWrite at h
  cases hdict : dictionary.whole? code with
  | some m => exact beginsField_of_dictionary (reads_of_whole? hdict)
  | none =>
    cases hkey : keyWrite.whole? code with
    | some m => exact beginsField_of_keyWrite (reads_of_whole? hkey)
    | none => simp [hdict, hkey] at h

private theorem records_surveyStatement (scope : ClassScope) (code : Text) (s : Survey) :
    (surveyStatement scope code s).records =
      (FieldWrite.ofCode code).foldl FieldWrite.enter s.records := by
  unfold surveyStatement
  split
  · next _ _ hm =>
    by_cases hw : FieldWrite.ofCode code = []
    · rw [hw]
      rfl
    · rw [lead?_receiverField (beginsField_of_ofCode hw)] at hm
      cases hm
  · rw [records_addTargets, FieldWrite.ofCode, List.foldl_append]
    unfold FieldWrite.ofKeyWrite FieldWrite.ofDictionary
    cases dictionary.whole? code <;> cases keyWrite.whole? code <;>
      simp only [records_addField, records_addFields, List.foldl_nil]

private theorem records_surveyIndentedLine (scope : ClassScope) (line : Line) (s : Symbols) :
    (surveyIndentedLine scope line s).2.survey.records =
      (FieldWrite.ofCode line.code).foldl FieldWrite.enter s.survey.records := by
  by_cases hw : FieldWrite.ofCode line.code = []
  · rw [hw]
    unfold surveyIndentedLine
    simp only [List.foldl_nil]
    split
    · rfl
    · split
      · rfl
      · split
        · rfl
        · exact (records_surveyStatement _ _ _).trans (by rw [hw]; rfl)
  · have hbegins := beginsField_of_ofCode hw
    unfold surveyIndentedLine
    simp only [lead?_classLead hbegins, lead?_defLead hbegins, lead?_lambdaLead hbegins]
    exact records_surveyStatement _ _ _

private theorem records_surveyIndented (lines : List Line) (s : Symbols) :
    (s.surveyIndented lines).survey.records =
      (lines.flatMap fun l => FieldWrite.ofCode l.code).foldl FieldWrite.enter s.survey.records := by
  unfold surveyIndented
  generalize none = scope
  induction lines generalizing scope s with
  | nil => rfl
  | cons l lines ih =>
    rw [List.foldl_cons, ih, records_surveyIndentedLine, List.flatMap_cons, List.foldl_append]

/-- The survey of an indented source has the fields that its lines write, each once, in the order of the
lines and with the type of the first value. -/
theorem entries_fieldsOf_surveyed (lines : List Line) (record : Text) :
    ((surveyed .indentation lines {}).survey.fieldsOf record).entries =
      firstSeen (fieldsWritten lines record) := by
  unfold Survey.fieldsOf surveyed fieldsWritten
  rw [records_surveyIndented, FieldWrite.entries_foldl_enter, Table.entries_foldl_add]
  simp [Table.has, Table.get?]

end Symbols

end Pseudocode
