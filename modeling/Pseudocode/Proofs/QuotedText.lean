import Pseudocode.Proofs.CodeSegments
import Pseudocode.Proofs.PatternReplacing

/-! # Reading code and literals

A text is read from left to right, each character with the part that it plays, and something is noted of it
on the way. What is noted of a text can be put together from its parts: from a replaced part and the text
around it, from the pieces between separators, and from its literals and the code between them. -/

namespace Pseudocode.Text

open Pattern

/-! ### Modes -/

/-- Where a scan stands after a text. -/
def Mode.after (m : Mode) (s : Text) : Mode := s.foldl Mode.next m

@[simp] theorem Mode.after_nil (m : Mode) : m.after [] = m := rfl

@[simp] theorem Mode.after_cons (m : Mode) (c : Char) (s : Text) : m.after (c :: s) = (m.next c).after s := rfl

@[simp] theorem Mode.after_append (m : Mode) (s t : Text) : m.after (s ++ t) = (m.after s).after t :=
  List.foldl_append

theorem eq_code_of_role {m : Mode} {c : Char} (h : m.role c = .code) : m = .code := by
  cases m with
  | code => rfl
  | literal q => by_cases hc : c = q <;> simp [Mode.role, hc] at h
  | escaped q => cases h

theorem role_ne_code {m : Mode} (hm : m ≠ .code) (c : Char) : m.role c ≠ .code := fun hrole => hm (eq_code_of_role hrole)

theorem rolesFrom_append (m : Mode) (s t : Text) :
    rolesFrom m (s ++ t) = rolesFrom m s ++ rolesFrom (m.after s) t := by
  induction s generalizing m with
  | nil => rfl
  | cons c s ih => rw [List.cons_append, rolesFrom, ih, rolesFrom, List.cons_append, Mode.after_cons]

section

variable {s : Text} (h : ∀ c ∈ s, isQuote c = false)

include h

/-- Code without quotes is followed by code. -/
theorem after_of_no_quote : Mode.code.after s = .code := by
  induction s with
  | nil => rfl
  | cons c s ih =>
    obtain ⟨hc, hs⟩ := List.forall_mem_cons.mp h
    rw [Mode.after_cons, Mode.next, hc]
    exact ih hs

theorem rolesFrom_of_no_quote : rolesFrom .code s = s.map (·, .code) := by
  induction s with
  | nil => rfl
  | cons c s ih =>
    obtain ⟨hc, hs⟩ := List.forall_mem_cons.mp h
    rw [rolesFrom, (code_of_no_quote hc).1, (code_of_no_quote hc).2, ih hs, List.map_cons]

end

/-- Only quotes delimit literals. -/
def Mode.Sound : Mode → Prop
  | .code => True
  | .literal q => isQuote q = true
  | .escaped q => isQuote q = true

theorem Mode.Sound.next {m : Mode} (h : m.Sound) (c : Char) : (m.next c).Sound := by
  cases m with
  | code =>
    rw [Mode.next]
    split
    · next hc => exact hc
    · trivial
  | literal q =>
    rw [Mode.next]
    split
    · exact h
    · split
      · trivial
      · exact h
  | escaped q => exact h

theorem Mode.Sound.after {m : Mode} (h : m.Sound) (s : Text) : (m.after s).Sound := by
  induction s generalizing m with
  | nil => exact h
  | cons c s ih => exact ih (h.next c)

/-- A literal goes on until there is a quote. -/
theorem after_ne_code {m : Mode} (hm : m.Sound) (hne : m ≠ .code) {s : Text}
    (hs : ∀ c ∈ s, isQuote c = false) : m.after s ≠ .code := by
  induction s generalizing m with
  | nil => exact hne
  | cons c s ih =>
    obtain ⟨hc, hs⟩ := List.forall_mem_cons.mp hs
    refine ih (hm.next c) ?_ hs
    cases m with
    | code => exact absurd rfl hne
    | literal q =>
      have hcq : c ≠ q := by
        rintro rfl
        rw [show isQuote c = true from hm] at hc
        cases hc
      rw [Mode.next, if_neg hcq]
      split <;> simp
    | escaped q => simp [Mode.next]

/-! ### Noting -/

/-- What is noted of a text that is read in a mode. Noting may refuse a character. -/
def read {α : Type} (note : α → Char × Role → Option α) (m : Mode) (a : α) (s : Text) : Option α :=
  (rolesFrom m s).foldlM note a

variable {α : Type} {note : α → Char × Role → Option α} {m : Mode} {a b : α}

@[simp] theorem read_nil : read note m a [] = some a := rfl

theorem read_cons (c : Char) (s : Text) :
    read note m a (c :: s) = (note a (c, m.role c)).bind fun b => read note (m.next c) b s := rfl

theorem read_cons_eq_some {c : Char} {s : Text} :
    read note m a (c :: s) = some b ↔
      ∃ a', note a (c, m.role c) = some a' ∧ read note (m.next c) a' s = some b := by
  rw [read_cons, Option.bind_eq_some_iff]

theorem read_singleton (c : Char) : read note m a [c] = note a (c, m.role c) := by
  rw [read_cons]
  exact Option.bind_fun_some _

/-- Code without quotes is read as code. -/
theorem read_cons_code {c : Char} (hc : isQuote c = false) (s : Text) :
    read note .code a (c :: s) = (note a (c, .code)).bind fun b => read note .code b s := by
  rw [read_cons, (code_of_no_quote hc).1, (code_of_no_quote hc).2]

theorem read_append (s t : Text) :
    read note m a (s ++ t) = (read note m a s).bind fun b => read note (m.after s) b t := by
  rw [read, rolesFrom_append, List.foldlM_append]
  rfl

theorem read_append_eq_some {s t : Text} :
    read note m a (s ++ t) = some b ↔ ∃ c, read note m a s = some c ∧ read note (m.after s) c t = some b := by
  rw [read_append, Option.bind_eq_some_iff]

/-- Of another text the same is noted, and what comes after it is read as before. -/
def Keeps (note : α → Char × Role → Option α) (m : Mode) (a : α) (s t : Text) : Prop :=
  ∀ b, read note m a s = some b → read note m a t = some b ∧ m.after t = m.after s

theorem Keeps.refl (note : α → Char × Role → Option α) (m : Mode) (a : α) (s : Text) : Keeps note m a s s :=
  fun _ h => ⟨h, rfl⟩

theorem Keeps.trans {s t u : Text} (h : Keeps note m a s t) (h' : Keeps note m a t u) :
    Keeps note m a s u := by
  intro b hb
  obtain ⟨ht, hafter⟩ := h b hb
  obtain ⟨hu, hafter'⟩ := h' b ht
  exact ⟨hu, hafter'.trans hafter⟩

theorem Keeps.append {s t s' t' : Text} (h : Keeps note m a s t)
    (h' : ∀ b, read note m a s = some b → Keeps note (m.after s) b s' t') :
    Keeps note m a (s ++ s') (t ++ t') := by
  intro b hb
  obtain ⟨c, hs, hs'⟩ := read_append_eq_some.mp hb
  obtain ⟨ht, hafter⟩ := h c hs
  obtain ⟨ht', hafter'⟩ := h' c hs b hs'
  rw [read_append_eq_some, Mode.after_append, Mode.after_append, hafter]
  exact ⟨⟨c, ht, ht'⟩, hafter'⟩

theorem Keeps.read_append {s t s' t' : Text} (h : Keeps note m a s t)
    (h' : ∀ c, read note (m.after s) c s' = some b → read note (m.after s) c t' = some b)
    (hs : read note m a (s ++ s') = some b) : read note m a (t ++ t') = some b := by
  obtain ⟨c, hs, hs'⟩ := read_append_eq_some.mp hs
  obtain ⟨ht, hafter⟩ := h c hs
  exact read_append_eq_some.mpr ⟨c, ht, hafter.symm ▸ h' c hs'⟩

/-- Matches may be replaced where they stand. -/
theorem keeps_replace {p : Pattern} {f : Match → Text} {s : Text}
    (h : ∀ u t v g c, s = u ++ (t ++ v) → Way p u.reverse t v g → read note m a u = some c →
      Keeps note (m.after u) c t (f ⟨u.reverse, t, g⟩)) : Keeps note m a s (p.replace f s) := by
  let R (u t w : Text) : Prop := ∀ c, read note m a u = some c → Keeps note (m.after u) c t w
  have hall : R [] s (p.replace f s) := by
    refine replace_induction (fun u c _ => Keeps.refl _ _ _ _) (fun u c t w ih d hd => ?_)
      (fun u t v g w hs hway ih c hc => ?_)
    · refine Keeps.append (s := [c]) (t := [c]) (Keeps.refl _ _ _ _) fun e he => ?_
      have hafter := ih e (read_append_eq_some.mpr ⟨d, hd, he⟩)
      rwa [Mode.after_append] at hafter
    · refine Keeps.append (h u t v g c hs hway hc) fun e he => ?_
      have hafter := ih e (read_append_eq_some.mpr ⟨c, hc, he⟩)
      rwa [Mode.after_append] at hafter
  exact hall a rfl

/-- Of code, nothing but brackets is noted. -/
def SkipsCode (note : α → Char × Role → Option α) : Prop :=
  ∀ a c, bracketWeight c = 0 → note a (c, .code) = some a

theorem isQuote_of_isBlank {c : Char} (h : isBlank c = true) : isQuote c = false :=
  eq_false_of_isBlank (by decide +kernel) h

theorem bracketWeight_of_isBlank {c : Char} (h : isBlank c = true) : bracketWeight c = 0 := by
  have hnone := eq_false_of_isBlank (p := fun c => bracketWeight c != 0) (by decide +kernel) h
  simpa using hnone

theorem no_quote_of_all {s : Text} (h : s.all (fun c => !isQuote c) = true) : ∀ c ∈ s, isQuote c = false := by
  simpa using h

theorem plain_of_all {s : Text} (h : s.all (fun c => !isQuote c && bracketWeight c == 0) = true) :
    ∀ c ∈ s, isQuote c = false ∧ bracketWeight c = 0 := by
  simpa using h

/-- Nothing is noted of code without brackets. -/
theorem read_of_skipped (hnote : SkipsCode note) {s : Text}
    (hs : ∀ c ∈ s, isQuote c = false ∧ bracketWeight c = 0) : read note .code a s = some a := by
  rw [read, rolesFrom_of_no_quote fun c hc => (hs c hc).1]
  induction s with
  | nil => rfl
  | cons c s ih =>
    obtain ⟨hc, hs⟩ := List.forall_mem_cons.mp hs
    rw [List.map_cons, List.foldlM_cons, hnote a c hc.2]
    exact ih hs

theorem read_skipped_append (hnote : SkipsCode note) {s : Text}
    (hs : ∀ c ∈ s, isQuote c = false ∧ bracketWeight c = 0) (t : Text) :
    read note .code a (s ++ t) = read note .code a t := by
  rw [read_append, read_of_skipped hnote hs, Option.bind_some, after_of_no_quote fun c hc => (hs c hc).1]

theorem read_append_skipped (hnote : SkipsCode note) {s t : Text} (hs : Mode.code.after s = .code)
    (ht : ∀ c ∈ t, isQuote c = false ∧ bracketWeight c = 0) :
    read note .code a (s ++ t) = read note .code a s := by
  rw [read_append, hs]
  simp only [read_of_skipped hnote ht, Option.bind_fun_some]

theorem exists_blanks {s : Text}
    (hs : Mode.code.after s = .code ∨ ∀ c ∈ s.getLast?, isBlank c = false) :
    ∃ b₁ b₂, s = b₁ ++ (trim s ++ b₂) ∧ (∀ c ∈ b₁, isBlank c = true) ∧ (∀ c ∈ b₂, isBlank c = true) ∧
      (Mode.code.after (trim s) = .code ∨ b₂ = []) := by
  obtain ⟨b₁, b₂, heq, hb₁, hb₂⟩ := exists_trim s
  refine ⟨b₁, b₂, heq, hb₁, hb₂, ?_⟩
  rcases hs with hs | hs
  · by_contra hne
    obtain ⟨hne, _⟩ := not_or.mp hne
    refine after_ne_code (Mode.Sound.after (m := .code) trivial _) hne
      (fun c hc => isQuote_of_isBlank (hb₂ c hc)) ?_
    rwa [heq, Mode.after_append, after_of_no_quote fun c hc => isQuote_of_isBlank (hb₁ c hc),
      Mode.after_append] at hs
  · refine .inr ?_
    cases b₂ using List.reverseRecOn with
    | nil => rfl
    | append_singleton b c =>
      have hlast : c ∈ s.getLast? := by
        rw [heq]
        simp [← List.append_assoc]
      exact absurd (hb₂ c (by simp)) (by simp [hs c hlast])

section

variable {s : Text} (hs : Mode.code.after s = .code ∨ ∀ c ∈ s.getLast?, isBlank c = false)

include hs

theorem after_trim : Mode.code.after (trim s) = Mode.code.after s := by
  obtain ⟨b₁, b₂, heq, hb₁, hb₂, hend⟩ := exists_blanks hs
  conv_rhs => rw [heq]
  rw [Mode.after_append, after_of_no_quote fun c hc => isQuote_of_isBlank (hb₁ c hc), Mode.after_append]
  rcases hend with hcode | rfl
  · rw [hcode, after_of_no_quote fun c hc => isQuote_of_isBlank (hb₂ c hc)]
  · rfl

theorem read_trim (hnote : SkipsCode note) : read note .code a (trim s) = read note .code a s := by
  obtain ⟨b₁, b₂, heq, hb₁, hb₂, hend⟩ := exists_blanks hs
  have hblanks {b : Text} (hb : ∀ c ∈ b, isBlank c = true) : ∀ c ∈ b, isQuote c = false ∧ bracketWeight c = 0 :=
    fun c hc => ⟨isQuote_of_isBlank (hb c hc), bracketWeight_of_isBlank (hb c hc)⟩
  conv_rhs => rw [heq]
  rw [read_skipped_append hnote (hblanks hb₁)]
  rcases hend with hcode | rfl
  · rw [read_append_skipped hnote hcode (hblanks hb₂)]
  · rw [List.append_nil]

/-- White space around a text may go. -/
theorem keeps_trim (hnote : SkipsCode note) : Keeps note .code a s (trim s) := by
  intro b hb
  rw [read_trim hs hnote, after_trim hs]
  exact ⟨hb, rfl⟩

end

/-! ### Pieces between separators -/

private theorem after_splitFrom (sep : Char) (m : Mode) (d : Int) (s : Text) :
    ((splitFrom sep m d s).2 ≠ [] → m.after (splitFrom sep m d s).1 = .code) ∧
      ∀ q ∈ (splitFrom sep m d s).2.dropLast, Mode.code.after q = .code := by
  induction s generalizing m d with
  | nil => simp [splitFrom]
  | cons c s ih =>
    rw [splitFrom]
    split
    · next h =>
      simp only [Bool.and_eq_true, decide_eq_true_eq] at h
      have hmode : m = .code := eq_code_of_role h.1.1.1
      obtain ⟨hfirst, hrest⟩ := ih .code 0
      refine ⟨fun _ => hmode, ?_⟩
      generalize splitFrom sep .code 0 s = r at hfirst hrest
      dsimp only
      cases hr : r.2 with
      | nil => simp
      | cons q qs =>
        rw [List.dropLast_cons_cons]
        rw [hr] at hfirst hrest
        exact List.forall_mem_cons.mpr ⟨hfirst (by simp), hrest⟩
    · exact ih (m.next c) (d + m.weight c)

theorem after_of_mem_dropLast {sep : Char} {s q : Text}
    (hq : q ∈ ((splitFrom sep .code 0 s).1 :: (splitFrom sep .code 0 s).2).dropLast) :
    Mode.code.after q = .code := by
  obtain ⟨hfirst, hrest⟩ := after_splitFrom sep .code 0 s
  generalize splitFrom sep .code 0 s = r at hq hfirst hrest
  cases hr : r.2 with
  | nil => simp [hr] at hq
  | cons p ps =>
    rw [hr, List.dropLast_cons_cons] at hq
    rcases List.mem_cons.mp hq with rfl | hq
    · exact hfirst (by simp [hr])
    · exact hrest q (hr ▸ hq)

private theorem exists_append_getLast (sep : Char) (p : Text) (ps : List Text) :
    ∃ front, p ++ ps.flatMap (sep :: ·) = front ++ (p :: ps).getLast (by simp) := by
  induction ps generalizing p with
  | nil => exact ⟨[], by simp⟩
  | cons q qs ih =>
    obtain ⟨front, hfront⟩ := ih q
    refine ⟨p ++ sep :: front, ?_⟩
    rw [List.getLast_cons (by simp), List.flatMap_cons, List.cons_append, hfront]
    simp

private theorem after_pieces {sep : Char} (hsep : isQuote sep = false) (p : Text) (ps : List Text)
    (hclosed : ∀ q ∈ (p :: ps).dropLast, Mode.code.after q = .code) :
    Mode.code.after (p ++ ps.flatMap (sep :: ·)) = Mode.code.after ((p :: ps).getLast (by simp)) := by
  induction ps generalizing p with
  | nil => simp
  | cons q qs ih =>
    rw [List.dropLast_cons_cons, List.forall_mem_cons] at hclosed
    have hnext : Mode.code.next sep = .code := by simp [Mode.next, hsep]
    rw [List.getLast_cons (by simp), ← ih q hclosed.2, Mode.after_append, hclosed.1, List.flatMap_cons,
      List.cons_append, Mode.after_cons, hnext]

theorem after_or_getLast?_of_mem {sep : Char} (hsep : isQuote sep = false) {p : Text} {ps : List Text}
    (hclosed : ∀ q ∈ (p :: ps).dropLast, Mode.code.after q = .code) {q : Text} (hq : q ∈ p :: ps) :
    Mode.code.after q = .code ∨ Mode.code.after (p ++ ps.flatMap (sep :: ·)) ≠ .code ∧
      q.getLast? = (p ++ ps.flatMap (sep :: ·)).getLast? := by
  rw [← List.dropLast_append_getLast (List.cons_ne_nil p ps)] at hq
  rcases List.mem_append.mp hq with hq | hq
  · exact .inl (hclosed q hq)
  · obtain rfl := List.mem_singleton.mp hq
    rw [after_pieces hsep p ps hclosed]
    refine or_iff_not_imp_left.mpr fun hopen => ⟨hopen, ?_⟩
    have hne : (p :: ps).getLast (List.cons_ne_nil p ps) ≠ [] := fun hnil => hopen (by rw [hnil]; rfl)
    obtain ⟨front, hfront⟩ := exists_append_getLast sep p ps
    rw [hfront, List.getLast?_append, Option.or_of_isSome (by simpa using hne)]

theorem join_of_two (joint p q : Text) (ps : List Text) :
    join joint (p :: q :: ps) = p ++ (joint ++ join joint (q :: ps)) := by
  simp [join, List.intercalate]

theorem isQuote_join {o : Text} (ho : ∀ c ∈ o, isQuote c = false) {ts : List Text}
    (hts : ∀ t ∈ ts, ∀ c ∈ t, isQuote c = false) : ∀ c ∈ join o ts, isQuote c = false := by
  induction ts with
  | nil => exact List.forall_mem_nil _
  | cons t ts ih =>
    obtain ⟨ht, hts⟩ := List.forall_mem_cons.mp hts
    cases ts with
    | nil => rwa [join, List.intercalate_singleton]
    | cons t' ts =>
      rw [join_of_two]
      exact List.forall_mem_append.mpr ⟨ht, List.forall_mem_append.mpr ⟨ho, ih hts⟩⟩

/-- Pieces may be changed one by one and joined by other code. -/
theorem keeps_join (hnote : SkipsCode note) {sep : Char} (hsep : isQuote sep = false ∧ bracketWeight sep = 0)
    {joint : Text} (hjoint : ∀ c ∈ joint, isQuote c = false ∧ bracketWeight c = 0) {g : Text → Text} (p : Text)
    (ps : List Text) (hclosed : ∀ q ∈ (p :: ps).dropLast, Mode.code.after q = .code)
    (hg : ∀ q ∈ p :: ps, ∀ a, Keeps note .code a q (g q)) :
    Keeps note .code a (p ++ ps.flatMap (sep :: ·)) (join joint ((p :: ps).map g)) := by
  induction ps generalizing p a with
  | nil => simpa [join, List.intercalate] using hg p (by simp) a
  | cons q qs ih =>
    rw [List.dropLast_cons_cons, List.forall_mem_cons] at hclosed
    obtain ⟨hp, hg⟩ := List.forall_mem_cons.mp hg
    rw [List.map_cons, List.map_cons, join_of_two, ← List.map_cons, List.flatMap_cons, List.cons_append]
    refine Keeps.append (hp a) fun b _ => ?_
    rw [hclosed.1]
    -- both the separator and what comes in its place are code of which nothing is noted
    refine Keeps.append (s := [sep]) ?_ fun c _ => ?_
    · intro c hc
      have hone : ∀ c ∈ [sep], isQuote c = false ∧ bracketWeight c = 0 := by simpa using hsep
      rw [read_of_skipped hnote hone] at hc
      rw [read_of_skipped hnote hjoint, after_of_no_quote fun c hc => (hjoint c hc).1,
        after_of_no_quote fun c hc => (hone c hc).1]
      exact ⟨hc, rfl⟩
    · rw [after_of_no_quote (by simpa using hsep.1)]
      exact ih q hclosed.2 hg

/-! ### Literals and the code between them -/

/-- The body of a literal belongs to it, and a closing quote is not escaped. -/
structure Literal.Sound (l : Literal) : Prop where
  quote : isQuote l.quote = true
  body : ∀ x ∈ rolesFrom (.literal l.quote) l.body, x.2 = .body
  closed : l.closed = true → Mode.after (.literal l.quote) l.body = .literal l.quote

/-- Code and literals take turns, and a literal that is not closed is the last one. -/
def SoundRest : List (Literal × Text) → Prop
  | [] => True
  | x :: rest => x.1.Sound ∧ (∀ c ∈ x.2, isQuote c = false) ∧ (x.1.closed = false → x.2 = [] ∧ rest = []) ∧
    SoundRest rest

/-- The literals of a line with the code after them, as text. -/
def restText (rest : List (Literal × Text)) : Text := rest.flatMap fun x => x.1.text ++ x.2

/-- A part of a line that begins inside a literal, as it was cut. -/
structure SegmentRun.Inside (m : Mode) (q : Char) (s : Text) (r : SegmentRun) : Prop where
  text : s = r.run ++ ((if r.closed then [q] else []) ++ (r.trail ++ restText r.rest))
  body : ∀ x ∈ rolesFrom m r.run, x.2 = .body
  closed : r.closed = true → m.after r.run = .literal q
  unclosed : r.closed = false → r.trail = [] ∧ r.rest = []
  code : ∀ c ∈ r.trail, isQuote c = false
  rest : SoundRest r.rest

/-- A part of a line that begins with code, as it was cut. -/
structure SegmentRun.Outside (s : Text) (r : SegmentRun) : Prop where
  text : s = r.run ++ restText r.rest
  code : ∀ c ∈ r.run, isQuote c = false
  rest : SoundRest r.rest

namespace SegmentRun

variable {q c : Char} {s : Text} {r : SegmentRun}

private theorem Inside.push (h : Inside (m.next c) q s r) (hrole : m.role c = .body) :
    Inside m q (c :: s) (SegmentRun.push c .body r) where
  text := by rw [h.text]; rfl
  body := List.forall_mem_cons.mpr ⟨hrole, h.body⟩
  closed := h.closed
  unclosed := h.unclosed
  code := h.code
  rest := h.rest

private theorem Outside.closed (h : Outside s r) :
    Inside (.literal q) q (q :: s) (SegmentRun.push q .closing r) where
  text := by rw [h.text]; rfl
  body := List.forall_mem_nil _
  closed _ := rfl
  unclosed h := by cases h
  code := h.code
  rest := h.rest

private theorem Outside.push (h : Outside s r) (hc : isQuote c = false) :
    Outside (c :: s) (SegmentRun.push c .code r) where
  text := by rw [h.text]; rfl
  code := List.forall_mem_cons.mpr ⟨hc, h.code⟩
  rest := h.rest

private theorem Inside.opened (h : Inside (.literal c) c s r) (hc : isQuote c = true) :
    Outside (c :: s) (SegmentRun.push c .opening r) where
  text := by
    rw [h.text]
    simp [SegmentRun.push, restText, Literal.text]
  code := List.forall_mem_nil _
  rest := ⟨⟨hc, h.body, h.closed⟩, h.code, h.unclosed, h.rest⟩

theorem sound_cut (s : Text) : Outside s (cut .code s) ∧
    ∀ q, isQuote q = true → Inside (.literal q) q s (cut (.literal q) s) ∧
      Inside (.escaped q) q s (cut (.escaped q) s) := by
  induction s with
  | nil =>
    have hinside (m : Mode) (q : Char) : Inside m q [] (cut m []) :=
      ⟨rfl, List.forall_mem_nil _, by simp [cut, rolesFrom, empty], fun _ => ⟨rfl, rfl⟩, List.forall_mem_nil _, trivial⟩
    exact ⟨⟨rfl, List.forall_mem_nil _, trivial⟩, fun q _ => ⟨hinside _ q, hinside _ q⟩⟩
  | cons c s ih =>
    obtain ⟨houtside, hinside⟩ := ih
    refine ⟨?_, fun q hq => ⟨?_, ?_⟩⟩
    · rw [cut_cons]
      cases hc : isQuote c with
      | true =>
        simp only [Mode.role, Mode.next, hc, if_true]
        exact (hinside c hc).1.opened hc
      | false =>
        simp only [Mode.role, Mode.next, hc, Bool.false_eq_true, if_false]
        exact houtside.push hc
    · rw [cut_cons]
      by_cases hc : c = q
      · subst hc
        have hback : c ≠ '\\' := by
          rintro rfl
          exact absurd hq (by decide)
        simp only [Mode.role, Mode.next, if_neg hback, if_true]
        exact houtside.closed
      · have hrole : Mode.role (.literal q) c = .body := if_neg hc
        rw [hrole]
        refine Inside.push ?_ hrole
        rw [Mode.next]
        split
        · exact (hinside q hq).2
        · exact (hinside q hq).1
    · rw [cut_cons]
      exact Inside.push (hinside q hq).1 rfl

end SegmentRun

/-- Nothing is lost when a line is cut. -/
theorem text_segments (s : Text) : s = (segments s).lead ++ restText (segments s).rest :=
  (SegmentRun.sound_cut s).1.text

theorem isQuote_lead (s : Text) : ∀ c ∈ (segments s).lead, isQuote c = false :=
  (SegmentRun.sound_cut s).1.code

theorem soundRest_segments (s : Text) : SoundRest (segments s).rest := (SegmentRun.sound_cut s).1.rest

namespace Literal.Sound

variable {l : Literal} (h : l.Sound)

include h

theorem open_quote : Mode.code.role l.quote = .opening ∧ Mode.code.next l.quote = .literal l.quote := by
  simp [Mode.role, Mode.next, h.quote]

theorem close_quote : Mode.role (.literal l.quote) l.quote = .closing ∧
    Mode.next (.literal l.quote) l.quote = .code := by
  have hback : l.quote ≠ '\\' := by
    intro heq
    exact absurd (heq ▸ h.quote) (by decide)
  simp [Mode.role, Mode.next, hback]

/-- No character of a literal is code. -/
theorem role_ne_code : ∀ x ∈ rolesFrom .code l.text, x.2 ≠ .code := by
  rw [Literal.text, rolesFrom, h.open_quote.1, h.open_quote.2, rolesFrom_append]
  refine List.forall_mem_cons.mpr ⟨by simp, List.forall_mem_append.mpr ⟨fun x hx => ?_, ?_⟩⟩
  · simp [h.body x hx]
  · split
    · next hclosed =>
      rw [h.closed hclosed, rolesFrom, h.close_quote.1]
      exact List.forall_mem_singleton.mpr (by simp)
    · exact List.forall_mem_nil _

/-- Code comes after a literal that is closed. -/
theorem after_text (hclosed : l.closed = true) : Mode.code.after l.text = .code := by
  rw [Literal.text, Mode.after_cons, h.open_quote.2, Mode.after_append, h.closed hclosed, if_pos hclosed,
    Mode.after_cons, h.close_quote.2, Mode.after_nil]

end Literal.Sound

/-- What stands outside literals is the code between them. -/
theorem unquoted_eq_segments (s : Text) :
    unquoted s = (segments s).lead ++ (segments s).rest.flatMap Prod.snd := by
  have hcode {t : Text} (ht : ∀ c ∈ t, isQuote c = false) (u : Text) :
      unquoted (t ++ u) = t ++ unquoted u := by
    have hall : ((rolesFrom .code t).filter (·.2 = .code)).map (·.1) = t := by
      rw [List.filter_eq_self.mpr (by simp [rolesFrom_of_no_quote ht]), map_fst_rolesFrom]
    rw [unquoted, roles, rolesFrom_append, List.filter_append, List.map_append, hall, after_of_no_quote ht]
    rfl
  have hrest (rest : List (Literal × Text)) (hsound : SoundRest rest) :
      unquoted (restText rest) = rest.flatMap Prod.snd := by
    induction rest with
    | nil => rfl
    | cons x rest ih =>
      obtain ⟨hx, hquote, hunclosed, hsound⟩ := hsound
      have hnone : (rolesFrom .code x.1.text).filter (·.2 = .code) = [] := by
        rw [List.filter_eq_nil_iff]
        intro y hy
        simpa using hx.role_ne_code y hy
      have hliteral : unquoted (restText (x :: rest)) =
          ((rolesFrom (Mode.code.after x.1.text) (x.2 ++ restText rest)).filter (·.2 = .code)).map (·.1) := by
        rw [unquoted, roles, restText, List.flatMap_cons, List.append_assoc, rolesFrom_append,
          List.filter_append, hnone, List.nil_append]
        rfl
      rw [hliteral, List.flatMap_cons]
      cases hclosed : x.1.closed with
      | true =>
        rw [hx.after_text hclosed]
        exact (hcode hquote _).trans (by rw [ih hsound])
      | false =>
        obtain ⟨hempty, rfl⟩ := hunclosed hclosed
        rw [hempty]
        rfl
  conv_lhs => rw [text_segments s]
  rw [hcode (isQuote_lead s), hrest _ (soundRest_segments s)]

/-- The mode inside a literal with another quote. -/
def Mode.requote (q : Char) : Mode → Mode
  | .code => .code
  | .literal _ => .literal q
  | .escaped _ => .escaped q

private theorem requote_body {q q' : Char} {m : Mode} (hm : m = .literal q ∨ m = .escaped q) {s : Text}
    (hs : ∀ x ∈ rolesFrom m s, x.2 = .body) (hq : q' ∉ s) :
    (∀ x ∈ rolesFrom (m.requote q') s, x.2 = .body) ∧ (m.requote q').after s = (m.after s).requote q' := by
  induction s generalizing m with
  | nil => exact ⟨List.forall_mem_nil _, rfl⟩
  | cons c s ih =>
    obtain ⟨hc, hs⟩ := List.forall_mem_cons.mp hs
    obtain ⟨hcq, hq⟩ : c ≠ q' ∧ q' ∉ s := by simpa [eq_comm] using hq
    rcases hm with rfl | rfl
    · have hne : c ≠ q := fun heq => by simp [Mode.role, heq] at hc
      have hnext : Mode.next (.literal q') c = (Mode.next (.literal q) c).requote q' := by
        by_cases hback : c = '\\' <;> simp [Mode.next, Mode.requote, hback, hne, hcq]
      have hmode : Mode.next (.literal q) c = .literal q ∨ Mode.next (.literal q) c = .escaped q := by
        by_cases hback : c = '\\' <;> simp [Mode.next, hback, hne]
      obtain ⟨hbody, hafter⟩ := ih hmode hs hq
      rw [Mode.requote, rolesFrom, Mode.after_cons, Mode.after_cons, hnext]
      exact ⟨List.forall_mem_cons.mpr ⟨if_neg hcq, hbody⟩, hafter⟩
    · obtain ⟨hbody, hafter⟩ := ih (m := .literal q) (.inl rfl) hs hq
      exact ⟨List.forall_mem_cons.mpr ⟨rfl, hbody⟩, hafter⟩

theorem Literal.Sound.doubleQuoted {l : Literal} (h : l.Sound) : l.doubleQuoted.Sound := by
  unfold Literal.doubleQuoted
  split
  · next hl =>
    obtain ⟨hquote, hbody⟩ : l.quote = '\'' ∧ '"' ∉ l.body := by simpa using hl
    obtain ⟨hroles, hafter⟩ := requote_body (.inl rfl) h.body hbody
    refine ⟨(by decide : isQuote '"' = true), hroles, fun hclosed => ?_⟩
    exact hafter.trans (by rw [h.closed hclosed]; rfl)
  · exact h

theorem closed_doubleQuoted (l : Literal) : l.doubleQuoted.closed = l.closed := by
  unfold Literal.doubleQuoted
  split <;> rfl

/-- Of literals nothing is noted. -/
def SkipsLiterals (note : α → Char × Role → Option α) : Prop := ∀ a x, x.2 ≠ .code → note a x = some a

theorem read_literal (hnote : SkipsLiterals note) {l : Literal} (h : l.Sound) :
    read note .code a l.text = some a := by
  have hroles := h.role_ne_code
  unfold read
  generalize rolesFrom .code l.text = xs at hroles
  induction xs with
  | nil => rfl
  | cons x xs ih =>
    obtain ⟨hx, hxs⟩ := List.forall_mem_cons.mp hroles
    rw [List.foldlM_cons, hnote a x hx]
    exact ih hxs

section

variable {doubleQuotes : Bool} (hquotes : doubleQuotes = true → SkipsLiterals note)
include hquotes

theorem read_quotes {l : Literal} (h : l.Sound) (hl : read note .code a l.text = some b) :
    read note .code a (l.requoted doubleQuotes).text = some b := by
  unfold Literal.requoted
  split
  · next hdouble => rwa [read_literal (hquotes hdouble) h.doubleQuoted, ← read_literal (hquotes hdouble) h]
  · exact hl

private theorem keeps_quotes {l : Literal} (h : l.Sound) (hclosed : l.closed = true) :
    Keeps note .code a l.text (l.requoted doubleQuotes).text := by
  refine fun b hb => ⟨read_quotes hquotes h hb, ?_⟩
  rw [h.after_text hclosed, Literal.requoted]
  split
  · exact h.doubleQuoted.after_text ((closed_doubleQuoted l).trans hclosed)
  · exact h.after_text hclosed

variable {f : Text → Text} (hnil : f [] = [])
  (hf : ∀ u, (∀ c ∈ u, isQuote c = false) → ∀ a, Keeps note .code a u (f u))
include hnil hf

private theorem read_mapRest {rest : List (Literal × Text)} (hrest : SoundRest rest)
    (h : read note .code a (restText rest) = some b) :
    read note .code a (mappedRest doubleQuotes f rest) = some b := by
  induction rest generalizing a with
  | nil => exact h
  | cons x rest ih =>
    obtain ⟨hx, hcode, hunclosed, hsound⟩ := hrest
    rw [restText, List.flatMap_cons, List.append_assoc] at h
    rw [mappedRest, List.flatMap_cons, List.append_assoc]
    cases hclosed : x.1.closed with
    | true =>
      refine (keeps_quotes hquotes hx hclosed).read_append (fun c hc => ?_) h
      rw [hx.after_text hclosed] at hc ⊢
      refine (hf x.2 hcode c).read_append (fun d hd => ?_) hc
      rw [after_of_no_quote hcode] at hd ⊢
      exact ih hsound hd
    | false =>
      -- nothing comes after a literal that is not closed
      obtain ⟨hempty, rfl⟩ := hunclosed hclosed
      rw [hempty, List.flatMap_nil, List.append_nil, List.append_nil] at h
      rw [hempty, hnil, List.flatMap_nil, List.append_nil, List.append_nil]
      exact read_quotes hquotes hx h

/-- Code between literals may be changed stretch by stretch. Quotes may be changed where literals are not
noted. -/
theorem read_mapCode {s : Text} (hs : read note .code a s = some b) :
    read note .code a (mapCode doubleQuotes f s) = some b := by
  rw [text_segments s] at hs
  rw [mapCode_eq]
  refine (hf _ (isQuote_lead s) a).read_append (fun c hc => ?_) hs
  rw [after_of_no_quote (isQuote_lead s)] at hc ⊢
  exact read_mapRest hquotes hnil hf (soundRest_segments s) hc

end

end Pseudocode.Text
