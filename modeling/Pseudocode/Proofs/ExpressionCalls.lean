import Mathlib.Data.List.Forall2
import Pseudocode.Proofs.ArithmeticSpelling
import Pseudocode.Proofs.CallSites

/-! # Calls in expressions

An expression is put together first: its interpolated strings, subscripts and concatenations take their
form. Then the code between its string literals is respelled, stretch by stretch. The calls of a routine in
these stretches come out as calls of the name that its header has, one after another. -/

namespace Pseudocode

open Text Pattern

/-! ### Whole stretches of code -/

/-- Words that the dialects spell in their own way wherever they stand. -/
def Convention.ownWords : Convention → List Text
  | .indentation => Convention.indentation.logicWords ++ ["len".toList]
  | .braces => Convention.braces.logicWords

/-- Methods for which the dialects have functions of their own. -/
def Convention.ownMethods : Convention → List Text
  | .indentation => stringMethods
  | .braces => stringMethods ++ ["pow".toList, "sqrt", "abs", "max", "min", "round", "random"]

/-- The calls of a routine may stand after a dot, if no method of this name is spelled otherwise. -/
def Convention.mayDot (conv : Convention) (n : Text) : Bool := !isOneOf conv.ownMethods n

/-- What stands before a call of a routine: nothing that joins its name, and no power. -/
structure Convention.CallEdge (conv : Convention) (n before : Text) : Prop where
  last : EndsIn (mayPrecede (conv.mayDot n)) before
  power : conv = .braces → ∀ v, v <:+ before → Setting.power.fits v = false

theorem isWordChar_of_reads_gap {s : Text} {g : Groups} (h : Reads gap s g) :
    ∀ c ∈ s, isWordChar c = false ∧ c ≠ '(' := by
  intro c hc
  have hc := (reads_most.mp h).1 c hc
  refine ⟨isWordChar_of_isBlank hc, ?_⟩
  rintro rfl
  exact absurd hc (by decide)

namespace Setting

variable {n : Text} (hn : Reads name n []) {dotted : Bool} {k : Nat} {s : Text}

include hn

theorem calls_replace {p : Pattern} {f : Match → Text} {n' : Text}
    (hp : Spares p f (mayPrecede dotted) (fun _ => True) n n')
    (hs : Calls (EndsIn (mayPrecede dotted)) n k s) :
    Calls (EndsIn (mayPrecede dotted)) n' k (p.replace f s) := by
  obtain ⟨_, d, ds, hd, _, _⟩ := reads_name hn
  exact hp.calls_replaceFrom (by simp [hd]) (fun _ _ _ => trivial) (by cases dotted <;> decide)
    (hs.mono fun b hb => ⟨hb, trivial⟩) (endsIn_nil _)

theorem calls_respell {op : String} (hop : op.toList.all (fun c => !isWordChar c && c != '(') = true)
    (new : Text) (hs : Calls (EndsIn (mayPrecede dotted)) n k s) :
    Calls (EndsIn (mayPrecede dotted)) n k (respell op new s) := by
  obtain ⟨_, d, ds, hd, _, hw⟩ := reads_name hn
  refine calls_replace hn (.of_signs hw (by simp [hd]) ?_ fun _ => List.getLast?_concat) hs
  intro s g h
  obtain ⟨_, b₂, _, _, rfl, rfl, h₁, hb₂⟩ := reads_append.mp h
  obtain ⟨b₁, _, _, _, rfl, rfl, hb₁, htext⟩ := reads_append.mp h₁
  obtain ⟨rfl, rfl⟩ := reads_text.mp htext
  intro c hc
  rcases List.mem_append.mp hc with hc | hc
  · rcases List.mem_append.mp hc with hc | hc
    · exact isWordChar_of_reads_gap hb₁ c hc
    · simpa using List.all_eq_true.mp hop c hc
  · exact isWordChar_of_reads_gap hb₂ c hc

theorem calls_respellWord {conv : Convention} {w : String} (hw : w.toList ∈ conv.ownWords)
    (hown : n ∉ conv.ownWords) (new : Text) (hs : Calls (EndsIn (mayPrecede dotted)) n k s) :
    Calls (EndsIn (mayPrecede dotted)) n k (respellWord w new s) := by
  obtain ⟨_, _, _, _, _, hword⟩ := reads_name hn
  have hwords : ∀ w ∈ conv.ownWords, w ≠ [] ∧ w.all isWordChar = true := by cases conv <;> decide
  obtain ⟨hne, hall⟩ := hwords _ hw
  refine calls_replace hn (.of_word hword hne (List.all_eq_true.mp hall) ?_) hs
  rintro rfl
  exact hown hw

theorem calls_comparisons (st : Setting) (hs : Calls (EndsIn (mayPrecede dotted)) n k s) :
    Calls (EndsIn (mayPrecede dotted)) n k (st.comparisons s) :=
  calls_respell hn (by decide) _ (calls_respell hn (by decide) _ (calls_respell hn (by decide) _
    (calls_respell hn (by decide) _ (calls_respell hn (by decide) _ hs))))

theorem calls_pythonArithmetic (st : Setting) (hs : Calls (EndsIn (mayPrecede dotted)) n k s) :
    Calls (EndsIn (mayPrecede dotted)) n k (st.pythonArithmetic s) :=
  calls_respell hn (by decide) _ (calls_respell hn (by decide) _ hs)

theorem calls_pythonLogic (st : Setting) (hown : n ∉ Convention.indentation.ownWords)
    (hs : Calls (EndsIn (mayPrecede dotted)) n k s) :
    Calls (EndsIn (mayPrecede dotted)) n k (st.pythonLogic s) := by
  obtain ⟨_, _, _, _, _, hw⟩ := reads_name hn
  have hlen : Spares (.wordEdge ++ "len(") (fun _ => st.kw .lengthWord ++ "(") (mayPrecede dotted)
      (fun _ => True) n n := by
    refine .of_function (w := "len".toList) hw (List.all_eq_true.mp (by decide)) (by decide) ?_
      fun _ => List.getLast?_concat
    rintro rfl
    exact hown (by decide)
  exact calls_replace hn hlen (calls_respellWord hn (by decide) hown _
    (calls_respellWord hn (by decide) hown _ (calls_respellWord hn (by decide) hown _
      (calls_respellWord hn (by decide) hown _ (calls_respellWord hn (by decide) hown _ hs)))))

theorem calls_javaLogic (st : Setting) (hown : n ∉ Convention.braces.ownWords)
    (hs : Calls (EndsIn (mayPrecede dotted)) n k s) :
    Calls (EndsIn (mayPrecede dotted)) n k (st.javaLogic s) := by
  obtain ⟨_, d, ds, hd, _, hw⟩ := reads_name hn
  have hnot : Spares ("!" ++ gap) (fun _ => st.kw .notWord ++ " ") (mayPrecede dotted) (fun _ => True)
      n n := by
    refine .of_signs hw (by simp [hd]) (fun s g h => ?_) fun _ => List.getLast?_concat
    obtain ⟨_, b, _, _, rfl, rfl, htext, hb⟩ := reads_append.mp h
    obtain ⟨rfl, rfl⟩ := reads_text.mp htext
    exact List.forall_mem_cons.mpr ⟨by decide, isWordChar_of_reads_gap hb⟩
  exact calls_respellWord hn (by decide) hown _ (calls_respellWord hn (by decide) hown _
    (calls_replace hn hnot (calls_respell hn (by decide) _ (calls_respell hn (by decide) _ hs))))

theorem calls_stringCalls (st : Setting) (hdot : n ∈ stringMethods → dotted = false)
    (hs : Calls (EndsIn (mayPrecede dotted)) n k s) :
    Calls (EndsIn (mayPrecede dotted)) n k (st.stringCalls s) := by
  obtain ⟨_, _, _, _, _, hw⟩ := reads_name hn
  refine calls_replace hn (.of_method hw ?_ ?_) hs
  · intro s g h
    obtain ⟨a, w, rfl, ha, hmem⟩ := reads_stringMethod h
    have hwords : ∀ w ∈ stringMethods, w.all isWordChar = true := by decide
    refine ⟨a, w, [')'], rfl, ha, by decide, by unfold EndsIn; decide,
      List.all_eq_true.mp (hwords w hmem), ?_⟩
    rintro rfl
    exact hdot hmem
  · intro m _ _
    exact ⟨List.append_ne_nil_of_right_ne_nil _ (by decide),
      endsIn_of_last (c := ')') List.getLast?_concat (by decide)⟩

theorem calls_lengthField (st : Setting) (hdot : n ∈ stringMethods → dotted = false)
    (hs : Calls (EndsIn (mayPrecede dotted)) n k s) :
    Calls (EndsIn (mayPrecede dotted)) n k (st.lengthField s) := by
  obtain ⟨_, _, _, _, _, hw⟩ := reads_name hn
  refine calls_replace hn (.of_length hw ?_ ?_) hs
  · rintro rfl
    exact hdot (by decide)
  · exact fun _ => List.getLast?_concat

theorem calls_newObject {st : Setting} (hstyle : st.style = .cambridge)
    (hs : Calls (EndsIn (mayPrecede dotted)) n k s) :
    Calls (EndsIn (mayPrecede dotted)) n k (st.newObject s) := by
  obtain ⟨_, d, ds, hd, _, hw⟩ := reads_name hn
  have hobjects : st.style.objectModel = true := by rw [hstyle]; rfl
  have hnew : st.kw .newWord = "NEW".toList := by rw [kw, hstyle]; rfl
  have hspares : Spares creation (fun m => st.kw .newWord ++ " " ++ m.group 1 ++ "(")
      (mayPrecede dotted) (fun _ => True) n n := by
    refine .of_creation hw (by simp [hd]) fun m => ?_
    rw [hnew]
    simp
  rw [newObject, if_pos hobjects]
  exact calls_replace hn hspares hs

theorem calls_routineCalls {st : Setting} (hstyle : st.style = .cambridge)
    (hroutine : st.symbols.isRoutine n = true) (hclass : st.isPython = true → st.symbols.isClass n = false)
    (hs : Calls (EndsIn (mayPrecede dotted)) n k s) :
    Calls (EndsIn (mayPrecede dotted)) (Name.pascalCase n) k (st.routineCalls s) := by
  have hcapitals : st.style.capitaliseRoutines = true := by rw [hstyle]; rfl
  rw [routineCalls, if_pos (by rw [hcapitals]; rfl)]
  refine calls_replace hn (.of_namedCall hn (fun m hm => ?_) fun m hm => ?_) hs
  · have hcreates : (st.isPython && st.symbols.isClass n) = false := by
      cases hpython : st.isPython with
      | false => rfl
      | true => exact hclass hpython
    dsimp only
    rw [hm, if_neg, if_pos]
    · rfl
    · rw [hcapitals, hroutine]
      rfl
    · rw [Bool.and_assoc st.style.objectModel, hcreates, Bool.and_false, Bool.false_and, Bool.false_and]
      exact Bool.false_ne_true
  · dsimp only
    split
    · exact List.getLast?_concat
    · split
      · exact List.getLast?_concat
      · exact hm

private theorem calls_mathCalls (hdot : n ∈ Convention.braces.ownMethods → dotted = false)
    (hs : Calls (EndsIn (mayPrecede dotted)) n k s) :
    Calls (EndsIn (mayPrecede dotted)) n k
      (mathCalls.foldl (fun s call => replaceAll call.1 call.2 s) s) := by
  obtain ⟨_, _, _, _, _, hw⟩ := reads_name hn
  have hcalls : ∀ call ∈ mathCalls, ∃ w ∈ Convention.braces.ownMethods, ∃ x ∈ [[], [')']],
      call.1 = "Math".toList ++ '.' :: (w ++ '(' :: x) ∧ w.all isWordChar = true ∧ '(' ∉ x ∧
      x.getLast?.all (fun c => !isWordChar c) = true ∧ call.2 ≠ [] ∧
      call.2.getLast?.all (mayPrecede false) = true := by
    decide
  generalize mathCalls = calls at hcalls
  induction calls generalizing s with
  | nil => exact hs
  | cons call calls ih =>
    obtain ⟨⟨w, hmem, x, _, hcall, hall, hx, hend, hne, hlast⟩, hrest⟩ := List.forall_mem_cons.mp hcalls
    refine ih ?_ hrest
    dsimp only
    rw [replaceAll_eq (by simp [hcall])]
    refine calls_replace hn (.of_method hw ?_ ?_) hs
    · intro s g h
      obtain ⟨rfl, _⟩ := reads_text.mp h
      refine ⟨_, w, x, hcall, by decide, hx, hend, List.all_eq_true.mp hall, ?_⟩
      rintro rfl
      exact hdot hmem
    · refine fun _ _ _ => ⟨hne, EndsIn.mono hlast fun c hc => ?_⟩
      simp only [mayPrecede, Bool.false_or, Bool.and_eq_true] at hc ⊢
      simp [hc]

private theorem calls_javaArithmetic (hdot : n ∈ Convention.braces.ownMethods → dotted = false)
    (hs : Calls (fun b => EndsIn (mayPrecede dotted) b ∧ ∀ v, v <:+ b → power.fits v = false) n k s) :
    Calls (EndsIn (mayPrecede dotted)) n k (javaArithmetic s) := by
  obtain ⟨_, d, ds, hd, _, hw⟩ := reads_name hn
  -- a text that fits the pattern of powers is no text before a call
  have hpower : Spares power (fun m => m.group 1 ++ " ^ " ++ m.group 2) (mayPrecede dotted)
      (fun b => ∀ v, v <:+ b → power.fits v = false) n n := by
    refine .of_method hw ?_ ?_
    · intro s g h
      obtain ⟨x, rfl, hx⟩ := reads_power h
      refine ⟨"Math".toList, "pow".toList, x ++ [')'], rfl, by decide, by simp [hx],
        endsIn_append_singleton.mpr (by decide), List.all_eq_true.mp (by decide), ?_⟩
      rintro rfl
      exact hdot (by decide)
    · intro m h hP
      obtain ⟨m', hm'⟩ := exists_whole? (h.way rfl [] [])
      have hfits := hP m.text (List.suffix_refl _)
      rw [fits, hm'] at hfits
      cases hfits
  have hpowers : Calls (EndsIn (mayPrecede dotted)) n k (power.replace _ s) :=
    hpower.calls_replaceFrom (by simp [hd]) (fun u v h x hx => h x (hx.trans (List.suffix_append u v)))
      (by cases dotted <;> decide) hs (endsIn_nil _)
  exact calls_replace hn (.of_receiver hw) (calls_mathCalls hn hdot hpowers)

/-- Respelling keeps the calls of a routine and gives all of them the name of its header. -/
theorem calls_respellCode {st : Setting} (hstyle : st.style = .cambridge)
    (hroutine : st.symbols.isRoutine n = true)
    (hclass : st.convention = .indentation → st.symbols.isClass n = false)
    (hown : n ∉ st.convention.ownWords) (hs : Calls (st.convention.CallEdge n) n k s) :
    Calls (EndsIn fun c => !isWordChar c) (Name.pascalCase n) k (st.respellCode s) := by
  by_cases hblank : (trim s).isEmpty = true
  · rw [respellCode, if_pos hblank]
    exact hs.of_isBlank hn hblank
  · have hdot : n ∈ st.convention.ownMethods → st.convention.mayDot n = false := by
      simp [Convention.mayDot]
    rw [respellCode, if_neg hblank]
    refine Calls.mono ?_ fun b (hb : EndsIn (mayPrecede (st.convention.mayDot n)) b) => hb.not_word
    cases hconv : st.convention with
    | indentation =>
      rw [hconv] at hown hdot hs
      have hpython : st.isPython = true := decide_eq_true hconv
      rw [if_pos hpython]
      refine calls_routineCalls hn hstyle hroutine (fun _ => hclass hconv) (calls_newObject hn hstyle
        (calls_stringCalls hn st hdot (calls_pythonLogic hn st hown (calls_comparisons hn st
          (calls_pythonArithmetic hn st ?_)))))
      exact hs.mono fun b hb => hb.last
    | braces =>
      rw [hconv] at hown hdot hs
      have hpython : st.isPython = false := decide_eq_false (by simp [hconv])
      have hstring (h : n ∈ stringMethods) := hdot (List.mem_append_left _ h)
      rw [if_neg (by simp [hpython])]
      refine calls_routineCalls hn hstyle hroutine (by simp [hpython]) (calls_newObject hn hstyle
        (calls_lengthField hn st hstring (calls_stringCalls hn st hstring (calls_javaLogic hn st hown
          (calls_comparisons hn st (calls_javaArithmetic hn hdot ?_))))))
      exact hs.mono fun b hb => ⟨hb.last, hb.power rfl⟩

end Setting

/-! ### Whole expressions -/

namespace Calls

variable {q : Char → Bool} {n : Text} {k l : Nat} {s t : Text}

/-- Calls go on after other text that ends where a call may begin. -/
theorem prepend (h : Calls (EndsIn q) n k t) (hs : EndsIn q s) : Calls (EndsIn q) n k (s ++ t) := by
  cases h with
  | rest => exact .rest _
  | call hb hk =>
    rw [← List.append_assoc]
    exact .call (hb.append fun _ => hs) hk

theorem append (hs : Calls (EndsIn q) n k s) (ht : ∀ b, Calls (EndsIn q) n l (b ++ t)) :
    Calls (EndsIn q) n (k + l) (s ++ t) := by
  induction hs with
  | rest s => simpa using ht s
  | @call before after k hb _ ih =>
    rw [Nat.add_right_comm, List.append_assoc, List.append_assoc, List.cons_append]
    exact .call hb ih

theorem eq_zero {edge : Text → Prop} (h : Calls edge n k []) : k = 0 := by
  generalize hs : [] = s at h
  cases h with
  | rest => rfl
  | call => simp at hs

end Calls

private theorem endsIn_literal {l : Literal} (hq : isQuote l.quote = true) (hc : l.closed = true)
    (doubleQuotes : Bool) :
    EndsIn (fun c => !isWordChar c) (l.requoted doubleQuotes).text := by
  have hword : isWordChar l.quote = false := by
    rcases Bool.or_eq_true_iff.mp hq with h | h
    · rw [eq_of_beq h]
      decide
    · rw [eq_of_beq h]
      decide
  have hlast {l : Literal} (hc : l.closed = true) : l.text.getLast? = some l.quote := by
    rw [Literal.text, hc, if_pos rfl, ← List.cons_append, List.getLast?_concat]
  cases doubleQuotes with
  | false =>
    rw [EndsIn, Literal.requoted, if_neg (by decide), hlast hc]
    simpa using hword
  | true =>
    rw [EndsIn, Literal.requoted, if_pos rfl, Literal.doubleQuoted]
    split
    · rw [hlast (l := ⟨'"', l.body, l.closed⟩) hc]
      exact show (!isWordChar '"') = true by decide
    · rw [hlast hc]
      simpa using hword

namespace Setting

/-- The text of an expression before its code is respelled. -/
def prepared (st : Setting) (e : Text) : Text :=
  st.concatenate (st.stringIndex (st.fieldAccess
    (if st.isPython then Interpolation.expand (trim e) else trim e)))

theorem expr_eq_mapCode (st : Setting) (e : Text) :
    st.expr e = mapCode st.isPython st.respellCode (st.prepared e) := rfl

/-- All calls of a routine in an expression take the name of its header. -/
theorem calls_expr {st : Setting} {n : Text} (hn : Reads name n []) (hstyle : st.style = .cambridge)
    (hroutine : st.symbols.isRoutine n = true)
    (hclass : st.convention = .indentation → st.symbols.isClass n = false)
    (hown : n ∉ st.convention.ownWords) {e : Text} {counts : List Nat}
    (h : List.Forall₂ (Calls (st.convention.CallEdge n) n) counts (segments (st.prepared e)).stretches) :
    Calls (EndsIn fun c => !isWordChar c) (Name.pascalCase n) (counts.foldr (· + ·) 0) (st.expr e) := by
  have hrespell {k : Nat} {s : Text} (hs : Calls (st.convention.CallEdge n) n k s) :=
    calls_respellCode hn hstyle hroutine hclass hown hs
  have hbounded := bounded_segments (st.prepared e)
  rw [expr_eq_mapCode, mapCode_eq]
  generalize segments (st.prepared e) = t at h hbounded
  rw [Segments.stretches, List.forall₂_cons_right_iff] at h
  obtain ⟨k, ks, hk, hks, rfl⟩ := h
  rw [List.foldr_cons]
  refine (hrespell hk).append ?_
  -- each literal ends before the calls of the code after it
  generalize t.rest = rest at hks hbounded
  induction rest generalizing ks with
  | nil =>
    obtain rfl : ks = [] := by simpa using hks
    exact fun b => .rest _
  | cons x rest ih =>
    obtain ⟨l, ls, hl, hls, rfl⟩ := List.forall₂_cons_right_iff.mp hks
    obtain ⟨hx, hrest⟩ := List.forall_mem_cons.mp hbounded
    intro b
    rw [mappedRest, List.flatMap_cons, List.foldr_cons, ← List.append_assoc]
    refine Calls.append ?_ (ih ls hls hrest)
    cases hclosed : x.1.closed with
    | true =>
      rw [← List.append_assoc]
      refine (hrespell hl).prepend (EndsIn.append (endsIn_literal hx.quote hclosed st.isPython) ?_)
      exact fun hnil => absurd hnil (List.cons_ne_nil _ _)
    | false =>
      rw [hx.closed hclosed] at hl
      rw [hl.eq_zero]
      exact .rest _

end Setting

end Pseudocode
