import Pseudocode.Proofs.CapitalNames
import Pseudocode.Proofs.Journal

/-! # Where the comment of a written line begins

A settled header is put between the indentation and the comment of the provisional line, and both are
found again by looking at its text. The comment is found where it was attached if the header before it
holds no mark of a comment and no beginning of one that the comment would complete. Parameters apart,
all parts of a header are free of slashes. -/

namespace Pseudocode

namespace Text

/-! ### First occurrences -/

theorem splitAt?_eq_none_iff {needle : Text} (hn : needle ≠ []) {s : Text} :
    splitAt? needle s = none ↔ ¬ needle <:+: s := by
  induction s with
  | nil => simp [splitAt?, hn]
  | cons c cs ih =>
    rw [splitAt?, List.infix_cons_iff]
    by_cases hp : needle <+: c :: cs
    · simp [hp]
    · simp [hp, ih]

theorem splitAt?_append {needle : Text} (hn : needle ≠ []) {s : Text}
    (h : ¬ needle <:+: s ++ needle.dropLast) (t : Text) :
    splitAt? needle (s ++ needle ++ t) = some (s, t) := by
  induction s with
  | nil =>
    obtain ⟨d, ds, rfl⟩ := List.exists_cons_of_ne_nil hn
    have hp : (d :: ds).isPrefixOf (d :: (ds ++ t)) = true :=
      List.isPrefixOf_iff_prefix.mpr (List.prefix_append (d :: ds) t)
    simp [splitAt?, hp]
  | cons c s ih =>
    have hp : ¬ needle <+: c :: (s ++ needle ++ t) := by
      intro hp
      apply h
      have hshort : c :: s ++ needle.dropLast <+: c :: (s ++ needle ++ t) := by
        obtain ⟨last, hlast⟩ := List.dropLast_prefix needle
        refine ⟨last ++ t, ?_⟩
        nth_rewrite 2 [← hlast]
        simp
      apply List.IsPrefix.isInfix
      apply List.prefix_of_prefix_length_le hp hshort
      have hpos := List.length_pos_iff.mpr hn
      simp only [List.length_append, List.length_cons, List.length_dropLast]
      omega
    have hrest : ¬ needle <:+: s ++ needle.dropLast := fun hi => h (List.infix_cons hi)
    rw [List.cons_append, List.cons_append, splitAt?, if_neg (by simpa using hp), ih hrest]
    rfl

/-- An occurrence does not reach over a character that the needle does not have. -/
theorem infix_append_cons_iff {needle : Text} {c : Char} (hc : c ∉ needle) {s t : Text} :
    needle <:+: s ++ c :: t ↔ needle <:+: s ∨ needle <:+: t := by
  constructor
  · intro h
    induction s with
    | nil =>
      rcases List.infix_cons_iff.mp h with hp | hi
      · obtain ⟨rest, hrest⟩ := hp
        cases needle with
        | nil => exact .inl List.nil_infix
        | cons d ds =>
          obtain ⟨rfl, _⟩ := List.cons.inj hrest
          simp at hc
      · exact .inr hi
    | cons d s ih =>
      rcases List.infix_cons_iff.mp h with hp | hi
      · left
        obtain ⟨rest, hrest⟩ := hp
        change needle ++ rest = (d :: s) ++ c :: t at hrest
        rcases List.append_eq_append_iff.mp hrest with ⟨u, hs, _⟩ | ⟨u, hs, ht⟩
        · exact ⟨[], u, by simpa using hs.symm⟩
        · cases u with
          | nil => exact ⟨[], [], by simpa using hs⟩
          | cons e u =>
            obtain ⟨rfl, _⟩ := List.cons.inj ht
            simp [hs] at hc
      · rcases ih hi with hs | ht
        · exact .inl (List.infix_cons hs)
        · exact .inr ht
  · rintro (h | h)
    · exact h.trans (List.prefix_append s (c :: t)).isInfix
    · exact h.trans (List.suffix_append_of_suffix (List.suffix_cons c t)).isInfix

end Text

open Text

/-! ### Marks of comments -/

/-- A text holds no mark of a comment, and none begins in it that a comment after it completes. -/
def NoMark (s : Text) : Prop := ¬ commentTail <:+: s ++ commentTail.dropLast

theorem NoMark.unmarked {s : Text} (h : NoMark s) : ¬ commentTail <:+: s :=
  fun hi => h (hi.trans (List.prefix_append _ _).isInfix)

theorem noMark_of_not_mem {s : Text} (h : '/' ∉ s) : NoMark s := by
  rintro ⟨before, after, heq⟩
  have hcount := congrArg (List.count '/') heq
  simp only [List.count_append, List.count_eq_zero_of_not_mem h,
    show List.count '/' commentTail = 2 from rfl,
    show List.count '/' commentTail.dropLast = 2 from rfl] at hcount
  have hlast := congrArg List.getLast? heq
  simp only [List.getLast?_append, show commentTail.getLast? = some ' ' from rfl,
    show commentTail.dropLast.getLast? = some '/' from rfl] at hlast
  cases ha : after.getLast? with
  | none => simp [ha] at hlast
  | some c =>
    have hc : c = '/' := by simpa [ha] using hlast
    have hpos := List.count_pos_iff.mpr (hc ▸ List.mem_of_getLast? ha)
    omega

theorem noMark_append_cons_iff {c : Char} (hc : c ∉ commentTail) {s t : Text} :
    NoMark (s ++ c :: t) ↔ ¬ commentTail <:+: s ∧ NoMark t := by
  unfold NoMark
  rw [List.append_assoc, List.cons_append, infix_append_cons_iff hc, not_or]

private theorem Line.commentSuffix_cases (line : Line) :
    line.commentSuffix = [] ∨ ∃ text, line.commentSuffix = commentTail ++ text := by
  unfold Line.commentSuffix
  split
  · exact .inr ⟨_, rfl⟩
  · exact .inl rfl

private theorem NoMark.commentOf {s : Text} (h : NoMark s) (line : Line) :
    commentOf (s ++ line.commentSuffix) = line.commentSuffix := by
  have hne : commentTail ≠ [] := by decide
  rcases line.commentSuffix_cases with hnone | ⟨text, hsome⟩
  · rw [hnone, List.append_nil, Pseudocode.commentOf, (splitAt?_eq_none_iff hne).mpr h.unmarked]
  · rw [hsome, ← List.append_assoc, Pseudocode.commentOf, splitAt?_append hne h]

/-- What is put in place of a header stands after its indentation. -/
theorem patchHeader_spaces_append {n : Nat} {old : Text} {c : Char} (hc : old.head? = some c)
    (hs : c ≠ ' ') (new rest : Text) :
    patchHeader new (spaces n ++ old ++ rest) =
      spaces n ++ new ++ commentOf (spaces n ++ old ++ rest) := by
  obtain ⟨old, rfl⟩ := List.head?_eq_some_iff.mp hc
  have hall : ∀ d ∈ spaces n, (d == ' ') = true := by
    intro d hd
    simpa using List.eq_of_mem_replicate hd
  have hindent : (spaces n ++ c :: old ++ rest).takeWhile (· == ' ') = spaces n := by
    rw [List.append_assoc, List.takeWhile_append_of_pos hall]
    simp [hs]
  rw [patchHeader, hindent]

/-- What is put in place of a header stands between the indentation and the comment. -/
theorem patchHeader_eq {n : Nat} {old : Text} {c : Char} (hc : old.head? = some c) (hs : c ≠ ' ')
    (h : NoMark (spaces n ++ old)) (new : Text) (line : Line) :
    patchHeader new (spaces n ++ old ++ line.commentSuffix) =
      spaces n ++ new ++ line.commentSuffix := by
  rw [patchHeader_spaces_append hc hs, h.commentOf]

/-! ### Parts of headers -/

theorem DataType.slash_not_mem_name (type : DataType) : '/' ∉ type.name := by
  cases type <;> decide

theorem DataType.slash_not_mem_ofParameters (types : List DataType) :
    '/' ∉ ofParameters (types.map DataType.name) := by
  unfold ofParameters
  split
  · next t ht =>
    obtain ⟨type, _, rfl⟩ := List.mem_map.mp (List.mem_of_find?_eq_some ht)
    exact type.slash_not_mem_name
  · cases types with
    | nil => exact DataType.integer.slash_not_mem_name
    | cons type types => exact type.slash_not_mem_name

/-! ### Headers -/

namespace Routine

/-- A routine as a header of the source gives it: the name is a word, and parameters begin with
something else than a space. -/
structure Plain (r : Routine) : Prop where
  name : '/' ∉ r.name
  params : ∀ p ∈ r.params, ∃ c ∈ p.head?, c ≠ ' '

/-- What stands before the parameters. -/
def lead (st : Style) (r : Routine) (returns : Bool) : Text :=
  r.visibility st ++ keyword st (r.kind st returns) ++ " " ++ r.spelledName st

def parameterList (st : Style) (r : Routine) : Text :=
  join ", " ((r.writtenParams st).map (parameterText st))

/-- What stands after the parameters. -/
def result (st : Style) (r : Routine) (returns : Bool) (type : Option Text) : Text :=
  if r.kind st returns = .function && st.typedParameters then
    " " ++ st.keyword .returnsWord ++ " " ++
      type.getD (DataType.ofParameters ((r.writtenParams st).map fun p => (DataType.ofName p).name))
  else []

theorem header_eq (st : Style) (r : Routine) (returns : Bool) (type : Option Text) :
    r.header st returns type =
      r.lead st returns ++ '(' :: (r.parameterList st ++ ')' :: r.result st returns type) := by
  unfold header lead parameterList result
  dsimp only
  split
  · simp
  · simp

theorem head?_lead (d : Dialect) (r : Routine) (returns : Bool) :
    ∃ c ∈ (r.lead d.style returns).head?, c ≠ ' ' := by
  unfold lead visibility keyword
  cases d with
  | ib => split_ifs <;> exact ⟨_, rfl, by decide⟩
  | cambridge => split_ifs <;> exact ⟨_, rfl, by decide⟩

theorem slash_not_mem_lead (d : Dialect) {r : Routine} (h : r.Plain) (returns : Bool) :
    '/' ∉ r.lead d.style returns := by
  have hvisibility : '/' ∉ r.visibility d.style := by
    unfold visibility
    cases d <;> split_ifs <;> decide
  have hkeyword : '/' ∉ keyword d.style (r.kind d.style returns) := by
    unfold keyword
    cases d <;> split_ifs <;> decide
  have hname : '/' ∉ r.spelledName d.style := by
    unfold spelledName
    split_ifs
    · cases d <;> decide
    · exact Name.not_mem_pascalCase (by decide) h.name
    · exact h.name
  simp [lead, hvisibility, hkeyword, hname]

private theorem slash_not_mem_result (d : Dialect) (r : Routine) (returns : Bool) {type : Option Text}
    (h : ∀ t ∈ type, '/' ∉ t) : '/' ∉ r.result d.style returns type := by
  unfold result
  split
  · have hword : '/' ∉ d.style.keyword .returnsWord := by cases d <;> decide
    have htype : '/' ∉ type.getD (DataType.ofParameters
        ((r.writtenParams d.style).map fun p => (DataType.ofName p).name)) := by
      cases type with
      | some t => exact h t rfl
      | none =>
        have hguess := DataType.slash_not_mem_ofParameters
          ((r.writtenParams d.style).map DataType.ofName)
        rwa [List.map_map] at hguess
    simp [hword, htype]
  · simp

theorem join_cons_cons (p q : Text) (params : List Text) :
    join ", " (p :: q :: params) = p ++ ',' :: ' ' :: join ", " (q :: params) := by
  simp [join, List.intercalate]

private theorem head?_join {p : Text} {c : Char} (hc : c ∈ p.head?) (params : List Text) :
    (join ", " (p :: params)).head? = some c := by
  cases params with
  | nil => simpa [join, List.intercalate] using hc
  | cons q params =>
    rw [join_cons_cons, List.head?_append, show p.head? = some c from hc]
    rfl

/-- No mark reaches from one parameter into the next: the comma between them is in no mark, and a
parameter does not begin with a space. -/
theorem not_infix_join {params : List Text} (hhead : ∀ p ∈ params, ∃ c ∈ p.head?, c ≠ ' ')
    (h : ∀ p ∈ params, ¬ commentTail <:+: p) : ¬ commentTail <:+: join ", " params := by
  induction params with
  | nil => decide
  | cons p params ih =>
    obtain ⟨_, hhead⟩ := List.forall_mem_cons.mp hhead
    obtain ⟨hp, h⟩ := List.forall_mem_cons.mp h
    cases params with
    | nil => simpa [join, List.intercalate] using hp
    | cons q params =>
      rw [join_cons_cons, infix_append_cons_iff (by decide), List.infix_cons_iff, not_or, not_or]
      refine ⟨hp, ?_, ih hhead h⟩
      rintro ⟨rest, hrest⟩
      obtain ⟨c, hc, hs⟩ := hhead q (by simp)
      have hfirst := congrArg (fun s : Text => s.tail.head?) hrest
      simp only [List.tail_cons, head?_join hc] at hfirst
      exact hs (Option.some.inj hfirst).symm

theorem noMark_header (d : Dialect) {r : Routine} (h : r.Plain)
    (hparams : ∀ p ∈ r.writtenParams d.style, ¬ commentTail <:+: parameterText d.style p)
    (returns : Bool) {type : Option Text} (htype : ∀ t ∈ type, '/' ∉ t) (n : Nat) :
    NoMark (spaces n ++ r.header d.style returns type) := by
  have hlist : ¬ commentTail <:+: r.parameterList d.style := by
    apply not_infix_join
    · intro p hp
      obtain ⟨q, hq, rfl⟩ := List.mem_map.mp hp
      obtain ⟨c, hc, hs⟩ := h.params q (List.mem_of_mem_filter hq)
      refine ⟨c, ?_, hs⟩
      unfold parameterText
      split
      · rw [List.append_assoc, List.head?_append, show q.head? = some c from hc]
        rfl
      · exact hc
    · intro p hp
      obtain ⟨q, hq, rfl⟩ := List.mem_map.mp hp
      exact hparams q hq
  have hlead : ¬ commentTail <:+: spaces n ++ r.lead d.style returns := by
    apply (noMark_of_not_mem _).unmarked
    simp [spaces, slash_not_mem_lead d h returns]
  rw [header_eq, ← List.append_assoc, noMark_append_cons_iff (by decide),
    noMark_append_cons_iff (by decide)]
  exact ⟨hlead, hlist, noMark_of_not_mem (slash_not_mem_result d r returns htype)⟩

theorem head?_header (d : Dialect) (r : Routine) (returns : Bool) (type : Option Text) :
    ∃ c, (r.header d.style returns type).head? = some c ∧ c ≠ ' ' := by
  obtain ⟨c, hc, hs⟩ := head?_lead d r returns
  refine ⟨c, ?_, hs⟩
  rw [header_eq, List.head?_append, show (r.lead d.style returns).head? = some c from hc]
  rfl

end Routine

end Pseudocode
