import Pseudocode.Proofs.ArithmeticSpelling
import Pseudocode.Proofs.RuleRuns

/-! # Compound assignments

The value of a compound assignment is put together as text and spelled like any other expression. Its
words and signs are the variable, the operator and those of the right side, so it is read as the operator
applied to the whole right side exactly if all outer operators there bind tighter. -/

namespace Pseudocode

open Text Pattern Arithmetic

/-! ### Signs of sources and dialects -/

/-- The operators of a source, which are also those of its compound assignments. -/
def Convention.signs : Convention → List (Text × Op)
  | .indentation =>
    [("**", .pow), ("//", .intDiv), ("+", .add), ("-", .sub), ("*", .mul), ("/", .div), ("%", .mod)]
  | .braces => [("+", .add), ("-", .sub), ("*", .mul), ("/", .div), ("%", .mod)]

def Convention.ops (conv : Convention) (s : Text) : Option Op := conv.signs.lookup s

/-- The operators of a dialect. -/
def Style.ops (st : Style) (s : Text) : Option Op :=
  [("+".toList, Op.add), ("-", .sub), ("*", .mul), ("/", .div), (st.keyword .modWord, .mod),
    (st.keyword .divWord, .intDiv), ("^", .pow)].lookup s

namespace Convention

theorem mem_signs_of_ops {conv : Convention} {s : Text} {o : Op} (h : conv.ops s = some o) :
    (s, o) ∈ conv.signs := by
  obtain ⟨before, after, heq, _⟩ := List.lookup_eq_some_iff.mp h
  rw [heq]
  simp

theorem sign_apart {conv : Convention} {s : Text} (h : s ∈ conv.signs.map Prod.fst) :
    ∃ c cs, s = c :: cs ∧ wordOr "." c = false ∧ isBlank c = false ∧ c ≠ '[' ∧ '=' ∉ s := by
  have hall : ∀ s ∈ conv.signs.map Prod.fst, s.head?.any (fun c => !wordOr "." c && !isBlank c &&
      c != '[') = true ∧ '=' ∉ s := by
    cases conv <;> decide
  obtain ⟨hhead, hassign⟩ := hall s h
  cases s with
  | nil => cases hhead
  | cons c cs =>
    obtain ⟨⟨hword, hblank⟩, hbracket⟩ : (wordOr "." c = false ∧ isBlank c = false) ∧ c ≠ '[' := by
      simpa using hhead
    exact ⟨c, cs, rfl, hword, hblank, hbracket, hassign⟩

end Convention

theorem carriesSigns_spell (d : Dialect) (conv : Convention) :
    CarriesSigns conv.ops d.style.ops (spell d.style conv) := by
  refine ⟨fun s o hs => ?_, fun w hw => ?_, ?_, ?_⟩
  · have hall : ∀ p ∈ conv.signs, d.style.ops (spell d.style conv p.1) = some p.2 := by
      cases d <;> cases conv <;> decide
    exact hall _ (Convention.mem_signs_of_ops hs)
  · have hne {s : Text} (hs : ¬ IsWord s) : w ≠ s := by
      rintro rfl
      exact hs hw
    simp only [spell, hne (show ¬ IsWord "%".toList by decide), hne (show ¬ IsWord "**".toList by decide),
      hne (show ¬ IsWord "//".toList by decide), and_false, if_false]
  · cases d <;> cases conv <;> decide
  · cases d <;> cases conv <;> decide

/-! ### The parts of a compound assignment -/

/-- A compound assignment up to its right side. -/
def compoundLead (conv : Convention) : Pattern :=
  .group 1 target ++ gap ++ .group 2 (oneOf ((conv.signs.map Prod.fst).map .text)) ++ "=" ++ gap

private theorem reads_compoundLead {conv : Convention} {s : Text} {g : Groups} (h : Reads (compoundLead conv) s g) :
    ∃ x b op b', s = x ++ (b ++ (op ++ '=' :: b')) ∧ g = [(2, op), (1, x)] ∧ Reads target x [] ∧
      (∀ c ∈ b, isBlank c = true) ∧ op ∈ conv.signs.map Prod.fst ∧ (∀ c ∈ b', isBlank c = true) := by
  obtain ⟨_, b', _, _, rfl, rfl, h₁, hgap'⟩ := reads_append.mp h
  obtain ⟨_, _, _, _, rfl, rfl, h₂, htext⟩ := reads_append.mp h₁
  obtain ⟨rfl, rfl⟩ := reads_text.mp htext
  obtain ⟨_, op, _, _, rfl, rfl, h₃, hgroup⟩ := reads_append.mp h₂
  obtain ⟨_, rfl, hsign⟩ := reads_group.mp hgroup
  obtain ⟨hop, rfl⟩ := mem_of_reads_oneOf hsign
  obtain ⟨x, b, _, _, rfl, rfl, hgroup', hgap⟩ := reads_append.mp h₃
  obtain ⟨_, rfl, hx⟩ := reads_group.mp hgroup'
  obtain ⟨hb, rfl⟩ := reads_most.mp hgap
  obtain ⟨hb', rfl⟩ := reads_most.mp hgap'
  obtain ⟨rfl, _⟩ := reads_target hx
  exact ⟨x, b, op, b', by simp, by simp, hx, hb, hop, hb'⟩

section

variable {conv : Convention} {x b op : Text} (hx : name.fits x = true)
  (hb : ∀ c ∈ b, isBlank c = true) (hop : op ∈ conv.signs.map Prod.fst)

include hx hb hop

theorem reads_compoundLead_of_name :
    Reads (compoundLead conv) (x ++ (b ++ (op ++ ['=']))) [(2, op), (1, x)] := by
  have hseq : Reads (compoundLead conv) (x ++ b ++ op ++ "=".toList ++ []) [(2, op), (1, x)] :=
    .seq (.seq (.seq (.seq (.group 1 (reads_target_of_fits hx)) (.most hb))
      (.group 2 (reads_oneOf_of_mem hop))) (.text _)) (.most (List.forall_mem_nil _))
  simpa using hseq

theorem eq_of_reads_compoundLead {s rest e : Text} {g : Groups} (h : Reads (compoundLead conv) s g)
    (heq : s ++ rest = x ++ (b ++ (op ++ '=' :: e))) :
    g = [(2, op), (1, x)] ∧ ∃ b', e = b' ++ rest ∧ ∀ c ∈ b', isBlank c = true := by
  obtain ⟨x', b₁, op', b', rfl, rfl, htarget, hb₁, hop', hb'⟩ := reads_compoundLead h
  obtain ⟨c, cs, rfl, hword, hblank, hbracket, hassign⟩ := Convention.sign_apart hop
  obtain ⟨c', cs', rfl, hword', hblank', _, hassign'⟩ := Convention.sign_apart hop'
  obtain ⟨_, d, sub, rfl, hd, hsub⟩ := reads_target htarget
  have hafter {b : Text} {c : Char} (hb : ∀ e ∈ b, isBlank e = true) (hc : wordOr "." c = false)
      (t : Text) : (b ++ c :: t).head?.any (wordOr ".") = false := by
    cases b with
    | nil => exact hc
    | cons e b => exact eq_false_of_isBlank (p := wordOr ".") (by decide +kernel) (hb e (by simp))
  have heq : d ++ (sub ++ (b₁ ++ c' :: (cs' ++ '=' :: (b' ++ rest)))) =
      x ++ (b ++ c :: (cs ++ '=' :: e)) := by
    simpa using heq
  -- the target ends where the name does, since no subscript follows
  obtain ⟨rfl, hrest⟩ := eq_of_runs (p := wordOr ".") hd
    (fun c hc => by simp [wordOr, (isWordChar_of_fits hx).2 c hc])
    (by
      rcases hsub with rfl | hsub
      · exact hafter hb₁ hword' _
      · rw [List.head?_append, hsub]
        exact (by decide : wordOr "." '[' = false))
    (hafter hb hword _) heq
  obtain rfl : sub = [] := by
    refine hsub.resolve_right fun hsub => ?_
    have hhead := congrArg List.head? hrest
    rw [List.head?_append, hsub] at hhead
    cases b with
    | nil => exact hbracket (Option.some.inj hhead).symm
    | cons e b =>
      obtain rfl : '[' = e := Option.some.inj hhead
      exact absurd (hb '[' (by simp)) (by decide)
  obtain ⟨_, rfl, hsign⟩ := eq_of_runs_cons hb₁ hb hblank' hblank hrest
  have hnot {c : Char} {cs : Text} (h : '=' ∉ c :: cs) : ∀ e ∈ cs, (e != '=') = true := by
    intro e he
    simp only [bne_iff_ne, ne_eq]
    rintro rfl
    exact h (List.mem_cons_of_mem _ he)
  obtain ⟨rfl, _, he⟩ := eq_of_runs_cons (hnot hassign') (hnot hassign) rfl rfl hsign
  rw [List.append_nil]
  exact ⟨rfl, b', he.symm, hb'⟩

end

/-! ### What is written -/

/-- The rule for compound assignments. -/
def Convention.compoundRule : Convention → Converter
  | .indentation => Indented.compoundRule
  | .braces => Braced.compoundRule

/-- How a statement ends. -/
def Convention.statementEnd : Convention → Text
  | .indentation => []
  | .braces => ";"

/-- A line that applies an operator to a variable and a right side. -/
def Convention.compoundLine (conv : Convention) (x b op e : Text) : Text :=
  x ++ (b ++ (op ++ '=' :: (e ++ conv.statementEnd)))

section

variable {cx : Context} {x b op e : Text} (hx : name.fits x = true) (hb : ∀ c ∈ b, isBlank c = true)
  (hne : e ≠ []) (he : ∀ c ∈ e, inLine c = true)

include hx hb hne he

private theorem Indented.compoundRule_compoundLine (hop : op ∈ Convention.indentation.signs.map Prod.fst) :
    ∃ v, lexemes v = lexemes e ∧ compoundRule cx (Convention.indentation.compoundLine x b op e) =
      some (cx.writes [cx.assign (cx.expr x) (cx.expr (x ++ " " ++ op ++ " " ++ v))]) := by
  have hreads : Reads compoundPattern (x ++ (b ++ (op ++ ['='])) ++ e) [(3, e), (2, op), (1, x)] :=
    .seq (reads_compoundLead_of_name hx hb hop) (.group 3 (reads_most1.mpr ⟨hne, he, rfl⟩))
  obtain ⟨m, hm⟩ := exists_whole? (hreads.way rfl [] [])
  obtain ⟨s, v, _, _, hline, hgroups, hs, hgroup⟩ := reads_append.mp (reads_of_whole? hm)
  obtain ⟨_, rfl, hv⟩ := reads_group.mp hgroup
  obtain ⟨_, _, rfl⟩ := reads_most1.mp hv
  have heq : s ++ v = x ++ (b ++ (op ++ '=' :: e)) := by
    rw [← hline]
    simp
  obtain ⟨rfl, b', rfl, hb'⟩ := eq_of_reads_compoundLead hx hb hop hs heq
  refine ⟨trim v, by rw [lexemes_trim, lexemes_append_left hb'], ?_⟩
  have hcode : Convention.indentation.compoundLine x b op (b' ++ v) = x ++ (b ++ (op ++ ['='])) ++ (b' ++ v) := by
    simp [Convention.compoundLine, Convention.statementEnd]
  rw [hcode, compoundRule, Converter.reading_apply, hm, Option.bind_eq_bind, Option.bind_some]
  simp only [Match.group, Match.group?, hgroups]
  rfl

private theorem Braced.compoundRule_compoundLine (hop : op ∈ Convention.braces.signs.map Prod.fst) :
    ∃ v, lexemes v = lexemes e ∧ compoundRule cx (Convention.braces.compoundLine x b op e) =
      some (cx.writes [cx.assign (cx.expr x) (cx.expr (x ++ " " ++ op ++ " " ++ v))]) := by
  have hreads : Reads compoundPattern (x ++ (b ++ (op ++ ['='])) ++ e ++ [] ++ ";".toList)
      [(3, e), (2, op), (1, x)] :=
    .seq (.seq (.seq (reads_compoundLead_of_name hx hb hop)
      (.group 3 (reads_fewest1.mpr (reads_most1.mpr ⟨hne, he, rfl⟩)))) (.most (List.forall_mem_nil _))) (.text _)
  obtain ⟨m, hm⟩ := exists_whole? (hreads.way rfl [] [])
  obtain ⟨_, _, _, _, hline, hgroups, h₁, htext⟩ := reads_append.mp (reads_of_whole? hm)
  obtain ⟨rfl, rfl⟩ := reads_text.mp htext
  obtain ⟨_, b'', _, _, rfl, rfl, h₂, hgap⟩ := reads_append.mp h₁
  obtain ⟨hb'', rfl⟩ := reads_most.mp hgap
  obtain ⟨s, v, _, _, rfl, rfl, hs, hgroup⟩ := reads_append.mp h₂
  obtain ⟨_, rfl, hv⟩ := reads_group.mp hgroup
  obtain ⟨_, _, rfl⟩ := reads_most1.mp (reads_fewest1.mp hv)
  have heq : s ++ (v ++ b'') = x ++ (b ++ (op ++ '=' :: e)) := by
    rw [List.append_nil, List.append_left_inj] at hline
    simpa using hline.symm
  obtain ⟨rfl, b', rfl, hb'⟩ := eq_of_reads_compoundLead hx hb hop hs heq
  refine ⟨v, by rw [lexemes_append_left hb', lexemes_append_right hb''], ?_⟩
  have hcode : Convention.braces.compoundLine x b op (b' ++ (v ++ b'')) =
      x ++ (b ++ (op ++ ['='])) ++ (b' ++ (v ++ b'')) ++ [] ++ ";".toList := by
    simp [Convention.compoundLine, Convention.statementEnd]
  rw [hcode, compoundRule, Converter.reading_apply, hm, Option.bind_eq_bind, Option.bind_some]
  simp only [Match.group, Match.group?, hgroups]
  rfl

end

theorem compoundRule_compoundLine {cx : Context} {x b op e : Text} (hx : name.fits x = true)
    (hb : ∀ c ∈ b, isBlank c = true) (hop : op ∈ cx.convention.signs.map Prod.fst) (hne : e ≠ [])
    (he : ∀ c ∈ e, inLine c = true) :
    ∃ v, lexemes v = lexemes e ∧ cx.convention.compoundRule cx (cx.convention.compoundLine x b op e) =
      some (cx.writes [cx.assign (cx.expr x) (cx.expr (x ++ " " ++ op ++ " " ++ v))]) := by
  cases hconv : cx.convention with
  | indentation => exact Indented.compoundRule_compoundLine hx hb hne he (hconv ▸ hop)
  | braces => exact Braced.compoundRule_compoundLine hx hb hne he (hconv ▸ hop)

/-! ### What the value denotes -/

theorem Convention.sign_plain {conv : Convention} {op : Text} (h : op ∈ conv.signs.map Prod.fst) :
    lexemes op = [op] ∧ (∀ c ∈ op, isForeign c = false) ∧ op ∉ reserved conv ∧ ¬ IsWord op ∧
      op ≠ ['('] := by
  have hall : ∀ op ∈ conv.signs.map Prod.fst, lexemes op = [op] ∧ op.any isForeign = false ∧
      op ∉ reserved conv ∧ ¬ IsWord op ∧ op ≠ ['('] := by
    cases conv <;> decide
  simpa using hall op h

theorem Convention.ops_plain {conv : Convention} {s : Text} {o : Op} (h : conv.ops s = some o) :
    s ∈ conv.signs.map Prod.fst :=
  List.mem_map.mpr ⟨_, mem_signs_of_ops h, rfl⟩

theorem expr_word {st : Setting} {d : Dialect} (hst : st.style = d.style) {x : Text} (hx : IsWord x)
    (hwords : x ∉ reserved st.convention)
    (hstrings : ∀ p, st.symbols.notes.isString p = true → ∃ l ∈ lexemes p, l ≠ x) : st.expr x = x := by
  have hlexemes : lexemes x = [x] := lexemes_of_word hx.1 hx.2
  have hplain : Plain (reserved st.convention) x := by
    refine plain_of_lexemes ?_ ?_ ?_
    · simp [hlexemes, hx]
    · rw [hlexemes]
      intro w hw hm
      exact hwords (List.mem_singleton.mp hm ▸ hw)
    · rw [hlexemes]
      exact .singleton _
  have hkeeps {op : String} {new : Text} (hop : op.toList.any (fun c => !isWordChar c) = true) :
      Setting.respell op new x = x :=
    replace_of_needs (p := gap ++ (op : Pattern) ++ gap) (q := fun c => !isWordChar c)
      (Bool.or_eq_true_iff.mpr (.inl (Bool.or_eq_true_iff.mpr (.inr hop))))
      (fun c hc => by simp [hx.2 c hc])
  rw [expr_eq hst hplain (by simp [hlexemes]) (by simpa [hlexemes] using hstrings),
    trim_eq_self fun c hc => isBlank_of_isWordChar (hx.2 c hc), spellAll, Setting.pythonArithmetic,
    hkeeps (by decide), hkeeps (by decide), ite_self, hkeeps (by decide)]

section

variable {conv : Convention} {x op e v : Text} {o : Op} {t : Tree} (hx : IsWord x)
  (hop : conv.ops op = some o) (ht : Denotes conv.ops e t)
  (hwords : ∀ w ∈ reserved conv, w ∉ x :: lexemes e) (hv : lexemes v = lexemes e)

include hx hop hv

theorem lexemes_compoundValue :
    lexemes (x ++ " " ++ op ++ " " ++ v) = x :: op :: lexemes e := by
  obtain ⟨hlexemes, _⟩ := Convention.sign_plain (Convention.ops_plain hop)
  have hsign : lexemes (op ++ ' ' :: v) = op :: lexemes v := by
    rw [lexemes_append, hlexemes, lexemes_cons_of_isBlank (by decide)]
    · rfl
    · intro c _ d hd
      obtain rfl : ' ' = d := Option.some.inj hd
      exact joins_of_isBlank c (by decide)
  have hvalue : x ++ " ".toList ++ op ++ " ".toList ++ v = x ++ ' ' :: (op ++ ' ' :: v) := by simp
  rw [hvalue, lexemes_word_append hx, hsign, hv]

include ht hwords

private theorem plain_compoundValue : Plain (reserved conv) (x ++ " " ++ op ++ " " ++ v) := by
  obtain ⟨_, hsign, hreserved, hword, hparen⟩ := Convention.sign_plain (Convention.ops_plain hop)
  have hlexemes := lexemes_compoundValue hx hop hv
  refine plain_of_lexemes ?_ ?_ ?_ <;> rw [hlexemes]
  · intro l hl
    rcases List.mem_cons.mp hl with rfl | hl
    · exact .inl hx
    rcases List.mem_cons.mp hl with rfl | hl
    · exact .inr hsign
    rcases ht.mem_cases hl with hl | rfl | rfl | ⟨o, ho⟩
    · exact .inl hl
    · exact .inr (List.forall_mem_singleton.mpr (by decide))
    · exact .inr (List.forall_mem_singleton.mpr (by decide))
    · exact .inr (Convention.sign_plain (Convention.ops_plain ho)).2.1
  · intro w hw hm
    have hm : w = x ∨ w = op ∨ w ∈ lexemes e := by simpa using hm
    rcases hm with rfl | rfl | hm
    · exact hwords w hw List.mem_cons_self
    · exact hreserved hw
    · exact hwords w hw (List.mem_cons_of_mem _ hm)
  · have hops (s : Text) (o : Op) (ho : conv.ops s = some o) : ¬ IsWord s ∧ s ≠ ['('] :=
      (Convention.sign_plain (Convention.ops_plain ho)).2.2.2
    exact List.isChain_cons_cons.mpr ⟨fun h => hparen h.2,
      List.isChain_cons.mpr ⟨fun _ _ h => hword h.1, ht.isChain hops⟩⟩

end

/-- A compound assignment writes the operator between the variable and its right side, each word and sign
in the spelling of the dialect. So the value is read as the operator applied to the variable and the whole
right side exactly if all operators that the right side has outside parentheses bind tighter. No reserved
word and no variable that is noted as a string may take part. -/
theorem compound_assignment_denotes {cx : Context} {d : Dialect} (hst : cx.style = d.style)
    {x b op e : Text} {o : Op} {t : Tree} (hx : name.fits x = true) (hb : ∀ c ∈ b, isBlank c = true)
    (hop : cx.convention.ops op = some o) (he : ∀ c ∈ e, inLine c = true)
    (ht : Denotes cx.convention.ops e t) (hwords : ∀ w ∈ reserved cx.convention, w ∉ x :: lexemes e)
    (hstrings : ∀ p, cx.notes.isString p = true → ∃ l ∈ lexemes p, l ∉ x :: op :: lexemes e) :
    ∃ value, cx.convention.compoundRule cx (cx.convention.compoundLine x b op e) =
        some (cx.writes [cx.assign x value]) ∧
      lexemes value = (x :: op :: lexemes e).map (spell d.style cx.convention) ∧
      (Denotes d.style.ops value (.node o (.leaf x) t) ↔
        Parses cx.convention.ops (o.level + 1) (lexemes e) t) := by
  have hsigns := Convention.ops_plain hop
  have hspell := carriesSigns_spell d cx.convention
  have hword : IsWord x := isWordChar_of_fits hx
  have hne : e ≠ [] := by
    rintro rfl
    exact ht.ne_nil rfl
  obtain ⟨v, hv, hrule⟩ := compoundRule_compoundLine hx hb hsigns hne he
  have hlexemes := lexemes_compoundValue hword hop hv
  have hplain := plain_compoundValue hword hop ht hwords hv
  have htarget : cx.expr x = x := by
    refine expr_word hst hword (fun h => hwords x h List.mem_cons_self) fun p hp => ?_
    obtain ⟨l, hl, hnot⟩ := hstrings p hp
    exact ⟨l, hl, fun heq => hnot (heq ▸ List.mem_cons_self)⟩
  have hvalue : lexemes (cx.expr (x ++ " " ++ op ++ " " ++ v)) =
      (x :: op :: lexemes e).map (spell d.style cx.convention) := by
    rw [expr_eq hst hplain (by rw [hlexemes]; simp) (by rwa [hlexemes]), lexemes_spellAll hst,
      lexemes_trim, hlexemes, hst]
  refine ⟨_, by rw [hrule, htarget], hvalue, ?_⟩
  have hsign := hspell.sign op o hop
  rw [Denotes, hvalue, List.map_cons, List.map_cons, hspell.word x hword, Parses.node_iff hword hsign]
  exact ⟨ht.of_respell hspell, fun h => h.respell hspell⟩

/-- A power binds tighter than the product that it becomes part of. -/
theorem compound_assignment_denotes_power :
    let cx : Context :=
      { style := .cambridge, convention := .indentation, symbols := {}, blocks := [], written := 0,
        indent := [] }
    let t : Tree := .node .pow (.node .add (.leaf "a") (.leaf "b")) (.leaf "2")
    Denotes Convention.indentation.ops " (a + b) ** 2" t ∧
      ∃ value, Indented.compoundRule cx "x *= (a + b) ** 2" = some (cx.writes [cx.assign "x" value]) ∧
        lexemes value = [['x'], ['*'], ['('], ['a'], ['+'], ['b'], [')'], ['^'], ['2']] ∧
        Denotes Style.cambridge.ops value (.node .mul (.leaf "x") t) := by
  intro cx t
  have hlexemes : lexemes " (a + b) ** 2" = [['('], ['a'], ['+'], ['b'], [')'], ['*', '*'], ['2']] := by
    decide
  have hparses {k : Nat} (hk : k ≤ 2) :
      Parses Convention.indentation.ops k (lexemes " (a + b) ** 2") t := by
    rw [hlexemes]
    exact .binary (a := [['('], ['a'], ['+'], ['b'], [')']]) (b := [['2']]) (by decide) hk
      (.group (.binary (a := [['a']]) (b := [['b']]) (s := ['+']) (o := .add) (by decide) (by decide)
        (.word (by decide)) (.word (by decide)))) (.word (by decide))
  obtain ⟨value, hrule, hvalue, hdenotes⟩ := @compound_assignment_denotes cx .cambridge rfl
    "x" " " "*" " (a + b) ** 2" .mul t (by decide) (List.all_eq_true.mp (by decide)) (by decide)
    (List.all_eq_true.mp (by decide)) (hparses (by decide)) (by decide) (fun p hp => by cases hp)
  refine ⟨hparses (by decide), value, hrule, ?_, hdenotes.mpr (hparses (by decide))⟩
  rw [hvalue, hlexemes]
  decide

/-- A sum on the right side of a product is torn apart. -/
theorem compound_assignment_regroups :
    let o : Options := ⟨.indentation, .cambridge⟩
    let t : Tree := .node .add (.leaf "a") (.leaf "b")
    Denotes Convention.indentation.ops "a + b" t ∧
      (Run.ofLines o [⟨1, .code, [], 0, "x *= a + b", none⟩]).state.output = ["x ← x * a + b".toList] ∧
      ¬ Denotes Style.cambridge.ops "x * a + b" (.node .mul (.leaf "x") t) := by
  intro o t
  refine ⟨?_, by decide +kernel, fun h => ?_⟩
  · exact .binary (a := [['a']]) (b := [['b']]) (s := ['+']) (by decide) (by decide)
      (.word (by decide)) (.word (by decide))
  · have hlexemes : lexemes "x * a + b" = [['x'], ['*'], ['a'], ['+'], ['b']] := by decide
    rw [Denotes, hlexemes] at h
    have hsum := (Parses.node_iff (by decide) (by decide)).mp h
    exact absurd (hsum.level_le (by decide)) (by decide)

end Pseudocode
