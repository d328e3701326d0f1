import Pseudocode.Proofs.SegmentMapping
import Pseudocode.Proofs.VariableOccurrences

/-! # Values in the places of variables

An expression is read as its characters, with the value of a variable in the place of each occurrence. What is
read depends on the variables that occur, and a variable that is renamed is read under its new name. -/

namespace Pseudocode.Indented

open Text

variable {V : Type*}

theorem isWord_of_isIdentifier {x : Text} (h : Name.isIdentifier x = true) :
    x ≠ [] ∧ ∀ c ∈ x, isNameChar c = true := by
  refine ⟨?_, Name.isNameChar_of_mem h⟩
  rintro rfl
  cases h

/-- A word of code: the value of a variable, or the characters of an attribute or a number. -/
def wordItems (env : Text → V) (before : Option Char) (word : Text) : List (V ⊕ Char) :=
  if Name.isIdentifier word && before != some '.' then [.inl (env word)] else word.map .inr

/-- Code without literals. `word` is the word that is being read, and `before` the character before it. -/
def itemsFrom (env : Text → V) : Option Char → Text → Text → List (V ⊕ Char)
  | before, word, [] => wordItems env before word
  | before, word, c :: cs =>
    if isNameChar c then itemsFrom env before (word ++ [c]) cs
    else wordItems env before word ++ .inr c :: itemsFrom env (some c) [] cs

/-- The literals of an expression and the code after each of them. -/
def restItems (env : Text → V) (rest : List (Literal × Text)) : List (V ⊕ Char) :=
  rest.flatMap fun x => x.1.text.map .inr ++ itemsFrom env none [] x.2

/-- An expression with the values of its variables in their places. -/
def items (env : Text → V) (e : Text) : List (V ⊕ Char) :=
  itemsFrom env none [] (segments e).lead ++ restItems env (segments e).rest

private theorem itemsFrom_append (env : Text → V) (before : Option Char) {v w : Text}
    (hw : ∀ c ∈ w, isNameChar c = true)
    (s : Text) : itemsFrom env before v (w ++ s) = itemsFrom env before (v ++ w) s := by
  induction w generalizing v with
  | nil => simp
  | cons c w ih =>
    obtain ⟨hc, hw⟩ := List.forall_mem_cons.mp hw
    rw [List.cons_append, itemsFrom, if_pos hc, ih hw, List.append_assoc]
    rfl

/-! ### Renaming -/

section

variable {x y : Text} (hx : Name.isIdentifier x = true) (hy : Name.isIdentifier y = true)

include hx hy

private theorem wordItems_renamedWord (env : Text → V) (before : Option Char) (w : Text) :
    wordItems env before (renamedWord x y before w) = wordItems (Function.update env x (env y)) before w := by
  by_cases hword : w = x ∧ before ≠ some '.'
  · obtain ⟨rfl, hbefore⟩ := hword
    simp [renamedWord, wordItems, hbefore, hx, hy]
  · have hkept : renamedWord x y before w = w := if_neg (by simpa using hword)
    rw [hkept, wordItems, wordItems]
    refine ite_congr rfl (fun hvar => ?_) fun _ => rfl
    obtain ⟨_, hbefore⟩ : Name.isIdentifier w = true ∧ before ≠ some '.' := by simpa using hvar
    rw [Function.update_of_ne fun heq => hword ⟨heq, hbefore⟩]

omit hx in
theorem isNameChar_renamedWord {before : Option Char} {w : Text} (hw : ∀ c ∈ w, isNameChar c = true) :
    ∀ c ∈ renamedWord x y before w, isNameChar c = true := by
  unfold renamedWord
  split
  · exact Name.isNameChar_of_mem hy
  · exact hw

private theorem itemsFrom_renameFrom (env : Text → V) (before : Option Char) {w : Text}
    (hw : ∀ c ∈ w, isNameChar c = true)
    (s : Text) :
    itemsFrom env before [] (renameFrom x y before w s) = itemsFrom (Function.update env x (env y)) before w s := by
  have hword {before : Option Char} {w : Text} (hw : ∀ c ∈ w, isNameChar c = true) (t : Text) :
      itemsFrom env before [] (renamedWord x y before w ++ t) =
        itemsFrom env before (renamedWord x y before w) t :=
    itemsFrom_append env before (isNameChar_renamedWord hy hw) t
  induction s generalizing before w with
  | nil =>
    rw [renameFrom, ← List.append_nil (renamedWord x y before w), hword hw]
    exact wordItems_renamedWord hx hy env before w
  | cons c s ih =>
    rw [renameFrom, itemsFrom]
    split
    · next hc => exact ih before (List.forall_mem_append.mpr ⟨hw, List.forall_mem_singleton.mpr hc⟩)
    · next hc =>
      rw [hword hw, itemsFrom, if_neg hc, ih (some c) (List.forall_mem_nil _)]
      exact congrArg (· ++ _) (wordItems_renamedWord hx hy env before w)

omit hx in
private theorem isQuote_renameFrom {before : Option Char} {w s : Text} (hw : ∀ c ∈ w, isNameChar c = true)
    (hs : ∀ c ∈ s, isQuote c = false) : ∀ c ∈ renameFrom x y before w s, isQuote c = false := by
  have hword {before : Option Char} {w : Text} (hw : ∀ c ∈ w, isNameChar c = true) :
      ∀ c ∈ renamedWord x y before w, isQuote c = false :=
    fun c hc => isQuote_of_isNameChar (isNameChar_renamedWord hy hw c hc)
  induction s generalizing before w with
  | nil => exact hword hw
  | cons c s ih =>
    obtain ⟨hc, hs⟩ := List.forall_mem_cons.mp hs
    rw [renameFrom]
    split
    · next hname => exact ih (List.forall_mem_append.mpr ⟨hw, List.forall_mem_singleton.mpr hname⟩) hs
    · exact List.forall_mem_append.mpr
        ⟨hword hw, List.forall_mem_cons.mpr ⟨hc, ih (List.forall_mem_nil _) hs⟩⟩

theorem items_rename (env : Text → V) (e : Text) :
    items env (rename x y e) = items (Function.update env x (env y)) e := by
  have hsegments : segments (rename x y e) = (segments e).map false (renameFrom x y none []) :=
    segments_mapCode (renameFrom_nil (isWord_of_isIdentifier hx) y)
      (fun u hu => isQuote_renameFrom hy (List.forall_mem_nil _) hu) false e
  have hcode (s : Text) := itemsFrom_renameFrom hx hy env none (List.forall_mem_nil _) s
  rw [items, items, hsegments, Segments.map, hcode, restItems, restItems, List.flatMap_map]
  exact congrArg _ (List.flatMap_congr fun l _ => congrArg _ (hcode l.2))

end

/-! ### Variables that occur -/

section

variable {env env' : Text → V} {u w s t : Text} {before : Option Char}

private theorem wordItems_congr (hcode : Mode.code.after u = .code) (hstart : u.getLast?.any isNameChar = false)
    (hdot : before = some '.' ↔ u.getLast? = some '.') (hw : ∀ c ∈ w, isNameChar c = true)
    (hs : s.head?.any isNameChar = false) (h : ∀ x, OccursFrom u x (w ++ s) → env x = env' x) :
    wordItems env before w = wordItems env' before w := by
  refine ite_congr rfl (fun hvar => ?_) fun _ => rfl
  obtain ⟨hid, hbefore⟩ : Name.isIdentifier w = true ∧ before ≠ some '.' := by simpa using hvar
  have hat : OccursAt u w s :=
    ⟨(isWord_of_isIdentifier hid).1, hw, hcode, hstart, fun heq => hbefore (hdot.mpr heq), hs⟩
  rw [h w ⟨[], s, rfl, by simpa using hat⟩]

theorem itemsFrom_congr (hcode : Mode.code.after u = .code) (hstart : u.getLast?.any isNameChar = false)
    (hdot : before = some '.' ↔ u.getLast? = some '.') (hw : ∀ c ∈ w, isNameChar c = true)
    (hs : ∀ c ∈ s, isQuote c = false) (ht : t.head?.any isNameChar = false)
    (h : ∀ x, OccursFrom u x (w ++ (s ++ t)) → env x = env' x) :
    itemsFrom env before w s = itemsFrom env' before w s := by
  induction s generalizing u w before with
  | nil => exact wordItems_congr hcode hstart hdot hw ht h
  | cons c s ih =>
    obtain ⟨hc, hs⟩ := List.forall_mem_cons.mp hs
    rw [itemsFrom, itemsFrom]
    split
    · next hname =>
      have hword : ∀ d ∈ w ++ [c], isNameChar d = true :=
        List.forall_mem_append.mpr ⟨hw, List.forall_mem_singleton.mpr hname⟩
      exact ih hcode hstart hdot hword hs fun x hx => h x (by simpa using hx)
    · next hname =>
      have hafter : Mode.code.after (u ++ (w ++ [c])) = .code := by
        rw [Mode.after_append, hcode, Mode.after_append,
          after_of_no_quote fun d hd => isQuote_of_isNameChar (hw d hd), after_of_no_quote (by simpa using hc)]
      have hlater : ∀ x, OccursFrom (u ++ (w ++ [c])) x ([] ++ (s ++ t)) → env x = env' x := by
        rintro x ⟨a, b, heq, hat⟩
        exact h x ⟨w ++ c :: a, b, by simpa using heq, by simpa using hat⟩
      rw [wordItems_congr hcode hstart hdot hw (by simpa using hname) h,
        ih hafter (by simpa using hname) (by simp) (List.forall_mem_nil _) hs hlater]

private theorem restItems_congr {rest : List (Literal × Text)} (hcode : Mode.code.after u = .code)
    (hrest : SoundRest rest)
    (h : ∀ x, OccursFrom u x (restText rest) → env x = env' x) : restItems env rest = restItems env' rest := by
  induction rest generalizing u with
  | nil => rfl
  | cons l rest ih =>
    obtain ⟨hl, hquote, hunclosed, hrest⟩ := hrest
    have hlater : ∀ x, OccursFrom (u ++ l.1.text) x ([] ++ (l.2 ++ restText rest)) → env x = env' x := by
      rintro x ⟨a, b, heq, hat⟩
      refine h x ⟨l.1.text ++ a, b, ?_, by simpa using hat⟩
      rw [restText, List.flatMap_cons, List.append_assoc, List.append_assoc, ← heq]
      rfl
    rw [restItems, restItems, List.flatMap_cons, List.flatMap_cons]
    cases hclosed : l.1.closed with
    | false =>
      obtain ⟨hempty, rfl⟩ := hunclosed hclosed
      rw [hempty]
      rfl
    | true =>
      obtain ⟨hafter, hstart, hdot⟩ := hl.after_closed hcode hclosed
      have hnext : Mode.code.after (u ++ l.1.text ++ l.2) = .code := by
        rw [Mode.after_append, hafter, after_of_no_quote hquote]
      have hrestItems : restItems env rest = restItems env' rest := by
        refine ih hnext hrest ?_
        rintro x ⟨a, b, heq, hat⟩
        exact hlater x ⟨l.2 ++ a, b, by simp [heq], by simpa using hat⟩
      rw [itemsFrom_congr hafter hstart hdot (List.forall_mem_nil _) hquote (any_head?_restText hrest) hlater]
      exact congrArg _ hrestItems

theorem items_congr {e : Text} (h : ∀ x, Occurs x e → env x = env' x) : items env e = items env' e := by
  have htext := text_segments e
  have hcode : Mode.code.after (segments e).lead = .code := after_of_no_quote (isQuote_lead e)
  have hlead : ∀ x, OccursFrom [] x ([] ++ ((segments e).lead ++ restText (segments e).rest)) → env x = env' x := by
    rw [List.nil_append, ← htext]
    exact h
  have hrest : ∀ x, OccursFrom (segments e).lead x (restText (segments e).rest) → env x = env' x := by
    rintro x ⟨a, b, heq, hat⟩
    exact hlead x ⟨(segments e).lead ++ a, b, by simp [heq], by simpa using hat⟩
  rw [items, items, restItems_congr hcode (soundRest_segments e) hrest,
    itemsFrom_congr rfl rfl (by simp) (List.forall_mem_nil _) (isQuote_lead e)
      (any_head?_restText (soundRest_segments e)) hlead]

end

end Pseudocode.Indented
