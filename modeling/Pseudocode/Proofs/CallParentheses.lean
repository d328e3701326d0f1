import Pseudocode.Proofs.LiteralsKept

/-! # The parentheses of a call

The arguments of a call are found by reading backwards from its last parenthesis, and string literals play
no part in this. So a call is found exactly if all its parentheses are nested, those in literals included;
one parenthesis in a literal without its partner is enough to lose the call. -/

namespace Pseudocode

open Text Pattern

namespace Text

/-! ### Depth of parentheses -/

/-- The number of open parentheses after one more character. A parenthesis that closes none is refused. -/
def depthAfter (depth : Nat) (c : Char) : Option Nat :=
  if c = '(' then some (depth + 1)
  else if c = ')' then if depth = 0 then none else some (depth - 1)
  else some depth

/-- The number of open parentheses before a character. -/
def depthBefore (c : Char) (depth : Nat) : Option Nat :=
  if c = '(' then if depth = 0 then none else some (depth - 1)
  else if c = ')' then some (depth + 1)
  else some depth

/-- Every parenthesis has its partner, wherever it stands. -/
def ParensNested (s : Text) : Prop := s.foldlM depthAfter 0 = some 0

instance (s : Text) : Decidable (ParensNested s) := inferInstanceAs (Decidable (_ = _))

private theorem depthAfter_eq_some_iff {depth depth' : Nat} {c : Char} :
    depthAfter depth c = some depth' ↔ depthBefore c depth' = some depth := by
  unfold depthAfter depthBefore
  split
  · cases depth' <;> simp [eq_comm]
  split
  · cases depth <;> simp [eq_comm]
  · simp [eq_comm]

theorem foldlM_depthAfter_eq_some_iff {s : Text} {depth depth' : Nat} :
    s.foldlM depthAfter depth = some depth' ↔ s.foldrM depthBefore depth' = some depth := by
  induction s generalizing depth with
  | nil => simp [eq_comm]
  | cons c s ih =>
    rw [List.foldlM_cons, List.foldrM_cons, Option.bind_eq_bind, Option.bind_eq_some_iff, Option.bind_eq_some_iff]
    simp only [ih, depthAfter_eq_some_iff, and_comm]

private theorem depthAfter_add {depth depth' : Nat} {c : Char} (h : depthAfter depth c = some depth') (n : Nat) :
    depthAfter (depth + n) c = some (depth' + n) := by
  unfold depthAfter at h ⊢
  split at h
  · next hc =>
    obtain rfl := Option.some.inj h
    rw [if_pos hc, Nat.add_right_comm]
  split at h
  · next hopen hclose =>
    cases depth with
    | zero => cases h
    | succ depth =>
      obtain rfl := Option.some.inj h
      rw [if_neg hopen, if_pos hclose, if_neg (by omega)]
      exact congrArg some (by omega)
  · next hopen hclose =>
    obtain rfl := Option.some.inj h
    rw [if_neg hopen, if_neg hclose]

theorem ParensNested.foldlM {s : Text} (h : ParensNested s) (n : Nat) : s.foldlM depthAfter n = some n := by
  have hadd {s : Text} {depth depth' : Nat} (h : s.foldlM depthAfter depth = some depth') :
      s.foldlM depthAfter (depth + n) = some (depth' + n) := by
    induction s generalizing depth with
    | nil =>
      obtain rfl := Option.some.inj h
      rfl
    | cons c s ih =>
      rw [List.foldlM_cons, Option.bind_eq_bind, Option.bind_eq_some_iff] at h ⊢
      obtain ⟨next, hnext, hs⟩ := h
      exact ⟨next + n, depthAfter_add hnext n, ih hs⟩
  simpa using hadd h

/-! ### The search for the last call -/

theorem openParenFrom_cons (c : Char) (depth : Nat) (tail rest : Text) :
    openParenFrom (depth + 1) tail (c :: rest) =
      (depthBefore c depth).elim (some (rest.reverse, tail)) fun depth' =>
        openParenFrom (depth' + 1) (c :: tail) rest := by
  rw [openParenFrom, depthBefore]
  by_cases hopen : c = '('
  · subst hopen
    cases depth with
    | zero => rfl
    | succ depth =>
      have hne : (((depth + 1 : Nat) : Int) + 1 == 1) = false := by
        rw [beq_eq_false_iff_ne]
        omega
      rw [hne]
      simp
  · by_cases hclose : c = ')' <;> simp [hopen, hclose]

private theorem eq_of_depthBefore_eq_none {c : Char} {depth : Nat} (h : depthBefore c depth = none) : c = '(' := by
  unfold depthBefore at h
  split at h
  · next hc => exact hc
  · split at h <;> cases h

private theorem openParenFrom_append (s : Text) (depth : Nat) (tail rest : Text) :
    (∀ depth', s.foldrM depthBefore depth = some depth' →
      openParenFrom (depth + 1) tail (s.reverse ++ rest) = openParenFrom (depth' + 1) (s ++ tail) rest) ∧
    (s.foldrM depthBefore depth = none → ∃ a b, s = a ++ '(' :: b ∧
      openParenFrom (depth + 1) tail (s.reverse ++ rest) = some (rest.reverse ++ a, b ++ tail)) := by
  induction s generalizing rest with
  | nil =>
    refine ⟨fun depth' h => ?_, fun h => ?_⟩
    · obtain rfl := Option.some.inj h
      rfl
    · cases h
  | cons c s ih =>
    obtain ⟨hpass, hstop⟩ := ih (c :: rest)
    rw [List.foldrM_cons, List.reverse_cons, List.append_assoc, List.singleton_append]
    cases hs : s.foldrM depthBefore depth with
    | none =>
      obtain ⟨a, b, rfl, hscan⟩ := hstop hs
      refine ⟨fun depth' h => ?_, fun _ => ⟨c :: a, b, rfl, ?_⟩⟩
      · cases h
      · rw [hscan, List.reverse_cons, List.append_assoc, List.singleton_append]
    | some inner =>
      rw [hpass inner hs, openParenFrom_cons, Option.bind_eq_bind, Option.bind_some]
      cases hc : depthBefore c inner with
      | none =>
        obtain rfl := eq_of_depthBefore_eq_none hc
        refine ⟨fun depth' h => ?_, fun _ => ⟨[], s, rfl, ?_⟩⟩
        · cases h
        · simp
      | some outer =>
        refine ⟨fun depth' h => ?_, fun h => ?_⟩
        · obtain rfl := Option.some.inj h
          rfl
        · cases h

private theorem openParenFrom_of_not_mem {s : Text} (h : '(' ∉ s) (depth : Int) (tail : Text) :
    openParenFrom depth tail s = none := by
  induction s generalizing depth tail with
  | nil => rfl
  | cons c s ih =>
    obtain ⟨hc, hs⟩ : '(' ≠ c ∧ '(' ∉ s := by simpa using h
    simp only [openParenFrom, Ne.symm hc, decide_false, Bool.false_and, Bool.false_eq_true, if_false]
    exact ih hs _ _

/-- A call as it is written. -/
def callText (callee args : Text) : Text := callee ++ '(' :: (args ++ [')'])

/-- The last parenthesis of a call is matched by the one after its name, by one among its arguments, or by
none. -/
theorem splitLastParens?_callText {callee : Text} (hcallee : '(' ∉ callee) (args : Text) :
    (ParensNested args → splitLastParens? (callText callee args) = some (callee, args ++ [')'])) ∧
    (¬ ParensNested args → splitLastParens? (callText callee args) = none ∨
      ∃ a b, args = a ++ '(' :: b ∧
        splitLastParens? (callText callee args) = some (callee ++ '(' :: a, b ++ [')'])) := by
  have hscan : splitLastParens? (callText callee args) =
      openParenFrom ((0 : Nat) + 1) [')'] (args.reverse ++ '(' :: callee.reverse) := by
    simp [splitLastParens?, callText, openParenFrom]
  obtain ⟨hpass, hstop⟩ := openParenFrom_append args 0 [')'] ('(' :: callee.reverse)
  rw [hscan, ParensNested, foldlM_depthAfter_eq_some_iff]
  cases hargs : args.foldrM depthBefore 0 with
  | none =>
    obtain ⟨a, b, rfl, hfound⟩ := hstop hargs
    refine ⟨fun h => ?_, fun _ => .inr ⟨a, b, rfl, by simpa using hfound⟩⟩
    cases h
  | some depth =>
    rw [hpass depth hargs]
    rw [openParenFrom_cons]
    cases depth with
    | zero => exact ⟨fun _ => by simp [depthBefore], fun h => absurd rfl h⟩
    | succ depth =>
      refine ⟨fun h => ?_, fun _ => .inl (openParenFrom_of_not_mem (by simpa using hcallee) _ _)⟩
      cases h

/-! ### Literals with nested parentheses -/

private theorem depthAfter_of_isQuote {c : Char} (h : isQuote c = true) (depth : Nat) :
    depthAfter depth c = some depth := by
  have hopen : c ≠ '(' := by
    rintro rfl
    cases h
  have hclose : c ≠ ')' := by
    rintro rfl
    cases h
  rw [depthAfter, if_neg hopen, if_neg hclose]

private theorem foldlM_depthAfter_literal {l : Literal} (hl : l.Sound) (h : ParensNested l.body) (depth : Nat) :
    l.text.foldlM depthAfter depth = some depth := by
  have hquote := depthAfter_of_isQuote hl.quote depth
  rw [Literal.text, List.foldlM_cons, hquote, Option.bind_eq_bind, Option.bind_some, List.foldlM_append,
    h.foldlM, Option.bind_eq_bind, Option.bind_some]
  split
  · rw [List.foldlM_cons, hquote]
    rfl
  · rfl

private theorem foldlM_depthAfter_unquoted {s : Text} (h : ∀ l ∈ literals s, ParensNested l.body) (depth : Nat) :
    s.foldlM depthAfter depth = (unquoted s).foldlM depthAfter depth := by
  have hrest (rest : List (Literal × Text)) (hsound : SoundRest rest)
      (h : ∀ x ∈ rest, ParensNested x.1.body) (depth : Nat) :
      (restText rest).foldlM depthAfter depth = (rest.flatMap Prod.snd).foldlM depthAfter depth := by
    induction rest generalizing depth with
    | nil => rfl
    | cons x rest ih =>
      obtain ⟨hx, hrest⟩ := List.forall_mem_cons.mp h
      rw [restText, List.flatMap_cons, List.append_assoc, List.foldlM_append,
        foldlM_depthAfter_literal hsound.1 hx, Option.bind_eq_bind, Option.bind_some, List.flatMap_cons,
        List.foldlM_append, List.foldlM_append]
      exact congrArg _ (funext fun d => ih hsound.2.2.2 hrest d)
  rw [unquoted_eq_segments]
  conv_lhs => rw [text_segments s]
  rw [List.foldlM_append, List.foldlM_append]
  refine congrArg _ (funext fun d => hrest _ (soundRest_segments s) (fun x hx => ?_) d)
  exact h x.1 (List.mem_map_of_mem hx)

theorem ParensNested.of_unquoted {s : Text} (h : ParensNested (unquoted s))
    (hliterals : ∀ l ∈ literals s, ParensNested l.body) : ParensNested s :=
  (foldlM_depthAfter_unquoted hliterals 0).trans h

private theorem byteLength_lt_append_cons (s t : Text) (c : Char) : byteLength s < byteLength (s ++ c :: t) := by
  induction s with
  | nil =>
    have hsize := Char.utf8Size_pos c
    exact Nat.lt_add_right _ hsize
  | cons d s ih => exact Nat.add_lt_add_left ih d.utf8Size

end Text

/-! ### Calls that are found -/

section

variable {callee : Text} (hcallee : '(' ∉ callee) (args : Text)

include hcallee

theorem callArguments?_callText : callArguments? (callText callee args) = some args ↔ ParensNested args := by
  have htrim : trimEnd (callText callee args) = callText callee args := by
    simp [callText, trimEnd, dropEndWhile, show isBlank ')' = false by decide]
  have hends : endsWith ")" (callText callee args) = true := by
    rw [endsWith, List.isSuffixOf_iff_suffix]
    exact ⟨callee ++ '(' :: args, by simp [callText]⟩
  rw [callArguments?, htrim, if_pos hends]
  obtain ⟨hnested, hbroken⟩ := splitLastParens?_callText hcallee args
  refine ⟨fun hfound => ?_, fun h => by simp [hnested h]⟩
  by_contra hnot
  rcases hbroken hnot with hnone | ⟨a, b, rfl, hinner⟩
  · rw [hnone] at hfound
    cases hfound
  · -- only the end of the arguments is found
    rw [hinner] at hfound
    have hlength := congrArg (Option.map List.length) hfound
    simp at hlength
    omega

private theorem byteLength_splitLastParens?_callText :
    (splitLastParens? (callText callee args)).map (fun r => byteLength r.1) = some (byteLength callee) ↔
      ParensNested args := by
  obtain ⟨hnested, hbroken⟩ := splitLastParens?_callText hcallee args
  refine ⟨fun hfound => ?_, fun h => by rw [hnested h]; rfl⟩
  by_contra hnot
  rcases hbroken hnot with hnone | ⟨a, b, rfl, hinner⟩
  · rw [hnone] at hfound
    cases hfound
  · rw [hinner] at hfound
    exact absurd (Option.some.inj hfound) (Nat.ne_of_gt (byteLength_lt_append_cons callee a '('))

end

namespace Indented

private theorem not_mem_of_callee_fits {s : Text} (h : callee.fits s = true) : '(' ∉ s := by
  obtain ⟨m, hm⟩ := Option.isSome_iff_exists.mp h
  exact (reads_of_whole? hm).avoids (by decide)

private theorem callRule_callText {name : Text} (hname : callee.fits name = true) (args : Text) (cx : Context) :
    callRule cx (callText name args) =
      if ParensNested args then some (cx.callStatement (callText name args)) else none := by
  have hparen := not_mem_of_callee_fits hname
  obtain ⟨hnested, hbroken⟩ := splitLastParens?_callText hparen args
  rw [callRule, Converter.reading_apply]
  split
  · next h =>
    rw [(callArguments?_callText hparen args).mpr h, hnested h]
    dsimp only [Option.bind_eq_bind, Option.bind_some]
    rw [guard_of_pos hname]
    rfl
  · next h =>
    rcases hbroken h with hnone | ⟨a, b, _, hinner⟩
    · rw [hnone]
      simp
    · have hfits : callee.fits (name ++ '(' :: a) = false := by
        by_contra hfits
        exact not_mem_of_callee_fits (by simpa using hfits) (by simp)
      rw [hinner]
      dsimp only [Option.bind_eq_bind, Option.bind_some]
      rw [guard_of_neg (by simp [hfits])]
      cases callArguments? (callText name args) <;> rfl

end Indented

/-- A call is found exactly if its parentheses are nested, those in literals included. For this it is
enough that they are nested outside literals and in each literal. -/
theorem calls_found_by_all_parens (callee args : Text) (hcallee : '(' ∉ callee) :
    (callArguments? (callText callee args) = some args ↔ ParensNested args) ∧
    ((splitLastParens? (callText callee args)).map (fun r => byteLength r.1) = some (byteLength callee) ↔
      ParensNested args) ∧
    (∀ cx, Indented.callee.fits callee = true → Indented.callRule cx (callText callee args) =
      if ParensNested args then some (cx.callStatement (callText callee args)) else none) ∧
    (ParensNested (unquoted args) → (∀ l ∈ literals args, ParensNested l.body) → ParensNested args) :=
  ⟨callArguments?_callText hcallee args, byteLength_splitLastParens?_callText hcallee args,
    fun cx hfits => Indented.callRule_callText hfits args cx, ParensNested.of_unquoted⟩

/-- A call among the arguments and one that is only quoted. -/
theorem calls_found_by_all_parens_title :
    let args : Text := "\"f(x)\", g(y)"
    '(' ∉ "plot.title".toList ∧ ParensNested args ∧
      callArguments? (callText "plot.title" args) = some args ∧
      ∀ cx, Indented.callRule cx (callText "plot.title" args) =
        some (cx.callStatement "plot.title(\"f(x)\", g(y))") := by
  intro args
  have hname : '(' ∉ "plot.title".toList := by decide
  obtain ⟨hfound, _, htaken, hquoted⟩ := calls_found_by_all_parens "plot.title" args hname
  have hnested : ParensNested args := hquoted (by decide) (by decide)
  refine ⟨hname, hnested, hfound.mpr hnested, fun cx => ?_⟩
  rw [htaken cx (by decide +kernel), if_pos hnested]
  rfl

/-- A smiley in a literal. -/
theorem call_lost_by_literal :
    let args : Text := "\":)\""
    let line : Line := ⟨1, .code, [], 0, callText "say" args, none⟩
    ParensNested (unquoted args) ∧ callArguments? (callText "say" args) = none ∧
      splitLastParens? (callText "say" args) = none ∧ Indented.callee.fits "say" = true ∧
      (Run.ofLines ⟨.indentation, .cambridge⟩ [line]).state.output =
        ["// Unsupported: say(\":)\")".toList] := by
  decide +kernel

end Pseudocode
