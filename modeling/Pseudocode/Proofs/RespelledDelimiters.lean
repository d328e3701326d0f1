import Pseudocode.Proofs.CapitalNames
import Pseudocode.Proofs.PowerCalls

/-! # Quotes and brackets in respelled code

Operators, words and calls are spelled anew without a quote being added or lost. In an indented source the
brackets stay too, in the same order. -/

namespace Pseudocode

open Text Pattern Arithmetic

/-- Quotes and brackets. -/
def delimiters : Text := "\"'()[]\x7b\x7d"

/-- Characters of a class stay if they do so in every match. -/
theorem Pattern.filter_replace {p : Pattern} {f : Match → Text} {q : Char → Bool}
    (h : ∀ a t b g, Way p a t b g → (f ⟨a, t, g⟩).filter q = t.filter q) (s : Text) :
    (p.replace f s).filter q = s.filter q := by
  let R (_ t u : Text) : Prop := u.filter q = t.filter q
  have hall : R [] s (p.replace f s) := by
    refine replace_induction (fun _ => rfl) (fun a c t u ih => ?_) (fun a t b g u _ hway ih => ?_)
    · change (c :: u).filter q = (c :: t).filter q
      rw [List.filter_cons, List.filter_cons, ih]
    · change (f _ ++ u).filter q = (t ++ b).filter q
      rw [List.filter_append, List.filter_append, h _ t b g hway, ih]
  exact hall

section

variable {q : Char → Bool} (hq : ∀ c, q c = true → c ∈ delimiters)

include hq

theorem filter_eq_nil {s : Text} (hs : ∀ x ∈ delimiters, x ∉ s) : s.filter q = [] :=
  List.filter_eq_nil_iff.mpr fun c hc h => hs c (hq c h) hc

theorem filter_text {s : Text} (hs : delimiters.all (fun x => !s.contains x) = true) : s.filter q = [] :=
  filter_eq_nil hq fun x hx => by simpa using List.all_eq_true.mp hs x hx

theorem filter_blanks {b : Text} (hb : ∀ c ∈ b, isBlank c = true) : b.filter q = [] := by
  refine filter_eq_nil hq fun x hx hm => ?_
  have hnone : delimiters.all (fun x => !isBlank x) = true := by decide
  simpa [hb x hm] using List.all_eq_true.mp hnone x hx

theorem filter_word {w : Text} (hw : ∀ c ∈ w, isWordChar c = true) : w.filter q = [] := by
  refine filter_eq_nil hq fun x hx hm => ?_
  have hnone : delimiters.all (fun x => !isWordChar x) = true := by decide
  simpa [hw x hm] using List.all_eq_true.mp hnone x hx

theorem filter_pascalCase {w : Text} (hw : ∀ c ∈ w, isWordChar c = true) :
    (Name.pascalCase w).filter q = [] := by
  have hmarks : delimiters.all marks.contains = true := by decide
  have hnone : delimiters.all (fun x => !isWordChar x) = true := by decide
  refine filter_eq_nil hq fun x hx => Name.not_mem_pascalCase ?_ fun hm => ?_
  · simpa using List.all_eq_true.mp hmarks x hx
  · simpa [hw x hm] using List.all_eq_true.mp hnone x hx

/-- Matches without quotes and brackets may be replaced by such text. -/
theorem filter_replace_of_avoids {p : Pattern} (hp : delimiters.all (fun x => p.avoids x) = true)
    {f : Match → Text} (hf : ∀ m, (f m).filter q = []) (s : Text) :
    (p.replace f s).filter q = s.filter q := by
  refine filter_replace (fun a t b g hway => ?_) s
  rw [hf, filter_eq_nil hq fun x hx => hway.reads.avoids (List.all_eq_true.mp hp x hx)]

end

namespace Setting

variable {st : Setting} {d : Dialect} (hst : st.style = d.style) {q : Char → Bool}
  (hq : ∀ c, q c = true → c ∈ delimiters)

include hst hq in
theorem filter_kw (k : Keyword) : (st.kw k).filter q = [] := by
  have hall : delimiters.all (fun x => !(d.style.keyword k).contains x) = true := by
    cases d <;> cases k <;> decide
  rw [kw, hst]
  exact filter_text hq hall

include hq in
theorem filter_respell {op : String} (hop : delimiters.all (fun x => !op.toList.contains x) = true) {new : Text}
    (hnew : new.filter q = []) (s : Text) : (respell op new s).filter q = s.filter q := by
  have hspace : q ' ' = false := by
    by_contra h
    exact absurd (hq ' ' (Bool.not_eq_false _ ▸ h)) (by decide)
  refine filter_replace (fun a t b g hway => ?_) s
  obtain ⟨b₁, b₂, rfl, hb₁, hb₂⟩ := reads_sign hway.reads
  simp [hspace, hnew, filter_blanks hq hb₁, filter_blanks hq hb₂, filter_text hq hop]

include hq in
theorem filter_respellWord {w : String} (hw : delimiters.all (fun x => (word w).avoids x) = true) {new : Text}
    (hnew : new.filter q = []) (s : Text) : (respellWord w new s).filter q = s.filter q :=
  filter_replace_of_avoids hq hw (fun _ => hnew) s

include hst hq

theorem filter_comparisons (s : Text) : (st.comparisons s).filter q = s.filter q := by
  simp only [comparisons]
  rw [filter_respell hq (by decide) (filter_text hq (by decide)),
    filter_respell hq (by decide) (filter_text hq (by decide)),
    filter_respell hq (by decide) (filter_text hq (by decide)),
    filter_respell hq (by decide) (filter_text hq (by decide)),
    filter_respell hq (by decide) (filter_kw hst hq _)]

theorem filter_pythonArithmetic (s : Text) : (st.pythonArithmetic s).filter q = s.filter q := by
  rw [pythonArithmetic, filter_respell hq (by decide) (filter_kw hst hq _),
    filter_respell hq (by decide) (filter_text hq (by decide))]

theorem filter_pythonLogic (s : Text) : (st.pythonLogic s).filter q = s.filter q := by
  simp only [pythonLogic]
  rw [filter_replace, filter_respellWord hq (by decide) (filter_kw hst hq _),
    filter_respellWord hq (by decide) (filter_kw hst hq _),
    filter_respellWord hq (by decide) (filter_kw hst hq _),
    filter_respellWord hq (by decide) (filter_kw hst hq _),
    filter_respellWord hq (by decide) (filter_kw hst hq _)]
  intro a t b g hway
  obtain ⟨_, _, _, _, rfl, _, hedge, htext⟩ := reads_append.mp hway.reads
  obtain ⟨rfl, _⟩ := reads_text.mp htext
  cases hedge
  have hlen : "len".toList.filter q = [] := filter_text hq (by decide)
  change (st.kw .lengthWord ++ "(".toList).filter q = ("len".toList ++ "(".toList).filter q
  rw [List.filter_append, List.filter_append, filter_kw hst hq, hlen]

theorem filter_stringCalls (s : Text) : (st.stringCalls s).filter q = s.filter q := by
  refine filter_replace (fun a t b g hway => ?_) s
  obtain ⟨u, _, _, _, rfl, _, hlead, hparens⟩ := reads_append.mp hway.reads
  obtain ⟨rfl, _⟩ := reads_text.mp hparens
  have hu : u.filter q = [] := by
    have hall : delimiters.all (fun x => Pattern.avoids x (.wordEdge ++ .group 1 shortDottedName ++ "."
        ++ .group 2 (oneOf ["upper", "lower", "toUpperCase", "toLowerCase", "length"]))) = true := by
      decide
    exact filter_eq_nil hq fun x hx => hlead.avoids (List.all_eq_true.mp hall x hx)
  have hreceiver : (Match.group ⟨a, u ++ "()".toList, g⟩ 1).filter q = [] := by
    have hall : delimiters.all (fun x => stringMethod.groupAvoids 1 x) = true := by decide
    exact filter_eq_nil hq fun x hx =>
      Reads.not_mem_group (m := ⟨a, u ++ "()".toList, g⟩) hway.reads (List.all_eq_true.mp hall x hx)
  dsimp only
  rw [List.filter_append, List.filter_append, List.filter_append, List.filter_append, hreceiver,
    filter_kw hst hq, hu, List.nil_append, List.append_nil, List.nil_append, ← List.filter_append]
  rfl

theorem filter_newObject (s : Text) : (st.newObject s).filter q = s.filter q := by
  unfold newObject
  split
  · refine filter_replace (fun a t b g hway => ?_) s
    obtain ⟨b₁, w, b₂, rfl, hgroup, hb₁, _, hw, hb₂, _⟩ :=
      reads_creation (m := ⟨a, t, g⟩) hway.reads
    have hspace : " ".toList.filter q = [] := filter_text hq (by decide)
    have hnew : "new".toList.filter q = [] := filter_text hq (by decide)
    rw [hgroup]
    simp only [List.filter_append, filter_kw hst hq, hspace, hnew, filter_word hq hw, filter_blanks hq hb₁,
      filter_blanks hq hb₂, List.nil_append]
    rfl
  · rfl

theorem filter_routineCalls (s : Text) : (st.routineCalls s).filter q = s.filter q := by
  unfold routineCalls
  split
  · refine filter_replace (fun a t b g hway => ?_) s
    obtain ⟨w, rfl, hgroup, hw⟩ := reads_namedCall (m := ⟨a, t, g⟩) hway.reads
    have hspace : " ".toList.filter q = [] := filter_text hq (by decide)
    have hparen : "(".toList = ['('] := rfl
    dsimp only
    rw [hgroup]
    split
    · simp only [List.filter_append, filter_kw hst hq, hspace, filter_word hq hw, List.nil_append, hparen]
    · split
      · simp only [List.filter_append, filter_pascalCase hq hw, filter_word hq hw, List.nil_append, hparen]
      · rfl
  · rfl

/-- Indented sources keep their quotes and brackets. -/
theorem filter_respellCode (hpython : st.isPython = true) (s : Text) :
    (st.respellCode s).filter q = s.filter q := by
  unfold respellCode
  split
  · rfl
  · rw [filter_routineCalls hst hq, filter_newObject hst hq, filter_stringCalls hst hq,
      filter_pythonLogic hst hq, filter_comparisons hst hq, filter_pythonArithmetic hst hq]

end Setting

/-! ### Braced sources -/

namespace Setting

variable {st : Setting} {d : Dialect} (hst : st.style = d.style)

theorem mem_delimiters_of_isQuote (c : Char) (h : isQuote c = true) : c ∈ delimiters := by
  rcases Bool.or_eq_true_iff.mp h with h | h <;>
  · obtain rfl := eq_of_beq h
    decide

private theorem isQuote_javaArithmetic (s : Text) : (javaArithmetic s).filter isQuote = s.filter isQuote := by
  have hcalls (calls : List (Text × Text)) (hcalls : ∀ call ∈ calls, call.1 ≠ [] ∧
      call.1.filter isQuote = [] ∧ call.2.filter isQuote = []) (s : Text) :
      (calls.foldl (fun s call => replaceAll call.1 call.2 s) s).filter isQuote = s.filter isQuote := by
    induction calls generalizing s with
    | nil => rfl
    | cons call calls ih =>
      obtain ⟨⟨hne, hold, hnew⟩, hrest⟩ := List.forall_mem_cons.mp hcalls
      rw [List.foldl_cons, ih hrest, replaceAll_eq hne]
      refine filter_replace (fun a t b g hway => ?_) s
      obtain ⟨rfl, _⟩ := reads_text.mp hway.reads
      rw [hold, hnew]
  have hpower (a t b : Text) (g : Groups) (hway : Way power a t b g) :
      (powerText ⟨a, t, g⟩).filter isQuote = t.filter isQuote := by
    obtain ⟨b₁, x, b₂, b₃, y, b₄, rfl, rfl, hb₁, hb₂, hb₃, hb₄, _⟩ := exists_of_reads_power hway.reads
    have hgap {b : Text} (hb : IsGap b) : b.filter isQuote = [] := filter_blanks mem_delimiters_of_isQuote hb
    have hlead : powerLead.filter isQuote = [] := by decide
    have hend : List.filter isQuote [')'] = [] := by decide
    have hcomma : isQuote ',' = false := by decide
    have hsign : " ^ ".toList.filter isQuote = [] := by decide
    simp only [powerText, powerCall, Match.group, Match.group?, List.filter_append, List.filter_cons, hcomma,
      hgap hb₁, hgap hb₂, hgap hb₃, hgap hb₄, hlead, hend, hsign, List.append_nil, List.nil_append]
    rfl
  have hthis (s : Text) : (Pattern.replace (.wordEdge ++ "this.") (fun _ => "self.") s).filter isQuote =
      s.filter isQuote :=
    filter_replace_of_avoids mem_delimiters_of_isQuote (by decide) (fun _ => by decide) s
  simp only [javaArithmetic]
  rw [hthis, hcalls _ (by decide)]
  exact filter_replace hpower s

include hst

private theorem isQuote_javaLogic (s : Text) : (st.javaLogic s).filter isQuote = s.filter isQuote := by
  have hq := mem_delimiters_of_isQuote
  have hnot (s : Text) : (Pattern.replace ("!" ++ gap) (fun _ => st.kw .notWord ++ " ") s).filter isQuote =
      s.filter isQuote := by
    refine filter_replace_of_avoids hq (by decide) (fun _ => ?_) s
    rw [List.filter_append, filter_kw hst hq]
    decide
  simp only [javaLogic]
  rw [filter_respellWord hq (by decide) (filter_kw hst hq _),
    filter_respellWord hq (by decide) (filter_kw hst hq _), hnot,
    filter_respell hq (by decide) (filter_kw hst hq _), filter_respell hq (by decide) (filter_kw hst hq _)]

private theorem isQuote_lengthField (s : Text) : (st.lengthField s).filter isQuote = s.filter isQuote := by
  have hq := mem_delimiters_of_isQuote
  have havoids : delimiters.all (fun x => Pattern.avoids x (.wordEdge ++ .group 1 shortDottedName ++ ".length"
      ++ .wordEdge) && Pattern.groupAvoids 1 x (.wordEdge ++ .group 1 shortDottedName ++ ".length"
      ++ .wordEdge)) = true := by
    decide
  refine filter_replace (fun a t b g hway => ?_) s
  have hall (x : Char) (hx : x ∈ delimiters) := Bool.and_eq_true_iff.mp (List.all_eq_true.mp havoids x hx)
  have hreceiver : (Match.group ⟨a, t, g⟩ 1).filter isQuote = [] :=
    filter_eq_nil hq fun x hx => Reads.not_mem_group (m := ⟨a, t, g⟩) hway.reads (hall x hx).2
  rw [filter_eq_nil hq fun x hx => hway.reads.avoids (hall x hx).1]
  simp only [List.filter_append, filter_kw hst hq, hreceiver]
  decide

/-- No quote is added or lost when code is respelled. -/
theorem isQuote_respellCode (s : Text) : (st.respellCode s).filter isQuote = s.filter isQuote := by
  have hq := mem_delimiters_of_isQuote
  cases hpython : st.isPython with
  | true => exact filter_respellCode hst hq hpython s
  | false =>
    unfold respellCode
    split
    · rfl
    · rw [if_neg (by simp [hpython]), filter_routineCalls hst hq, filter_newObject hst hq,
        isQuote_lengthField hst, filter_stringCalls hst hq, isQuote_javaLogic hst, filter_comparisons hst hq,
        isQuote_javaArithmetic]

theorem no_quote_respellCode {s : Text} (hs : ∀ c ∈ s, isQuote c = false) :
    ∀ c ∈ st.respellCode s, isQuote c = false := by
  have hnone : s.filter isQuote = [] := by simpa using hs
  have hfilter := (isQuote_respellCode hst s).trans hnone
  simpa using hfilter

end Setting

end Pseudocode
