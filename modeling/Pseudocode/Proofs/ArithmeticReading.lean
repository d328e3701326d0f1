import Pseudocode.Proofs.BraceChains
import Pseudocode.Proofs.CodeSegments
import Pseudocode.Style
import Mathlib.Data.List.Chain

/-! # Reading arithmetic

A text of arithmetic is cut into words and signs, and these are read with the usual precedence of the
operators, each of them associating to the left. -/

namespace Pseudocode.Arithmetic

open Text

/-! ### Words and signs -/

/-- Two characters that together are one sign. -/
def isDouble (c d : Char) : Bool := c == d && (c == '*' || c == '/')

/-- Puts a character in front of the word that comes first. -/
def consWord (c : Char) : List Text → List Text
  | w :: ws => (c :: w) :: ws
  | [] => [[c]]

/-- The words and signs of a text, white space apart. -/
def lexemes : Text → List Text
  | [] => []
  | [c] => if isBlank c then [] else [[c]]
  | c :: d :: cs =>
    if isBlank c then lexemes (d :: cs)
    else if isWordChar c && isWordChar d then consWord c (lexemes (d :: cs))
    else if isDouble c d then [c, d] :: lexemes cs
    else [c] :: lexemes (d :: cs)

/-- Characters that belong to one word or sign when they stand side by side. -/
def joins (c d : Char) : Bool := isWordChar c && isWordChar d || isDouble c d

/-- Nothing joins white space. -/
theorem joins_of_isBlank (c : Char) {d : Char} (hd : isBlank d = true) : joins c d = false := by
  have hdouble : isDouble c d = false := by
    by_contra h
    obtain ⟨heq, hsign⟩ := Bool.and_eq_true_iff.mp (Bool.not_eq_false _ ▸ h)
    obtain rfl := eq_of_beq heq
    rcases Bool.or_eq_true_iff.mp hsign with hc | hc <;> obtain rfl := eq_of_beq hc <;>
      exact absurd hd (by decide)
  simp [joins, isWordChar_of_isBlank hd, hdouble]

theorem joins_of_ne {c d : Char} (h : isWordChar c ≠ isWordChar d) : joins c d = false := by
  have hwords : (isWordChar c && isWordChar d) = false := by
    cases hc : isWordChar c <;> simp_all
  have hdouble : isDouble c d = false := by
    have hne : c ≠ d := by
      rintro rfl
      exact h rfl
    simp [isDouble, hne]
  simp [joins, hwords, hdouble]

@[simp] theorem lexemes_nil : lexemes [] = [] := rfl

theorem lexemes_cons_of_isBlank {c : Char} (h : isBlank c = true) (s : Text) :
    lexemes (c :: s) = lexemes s := by
  cases s with
  | nil => simp [lexemes, h]
  | cons d s => rw [lexemes, if_pos h]

theorem lexemes_append_left {b : Text} (hb : ∀ c ∈ b, isBlank c = true) (s : Text) :
    lexemes (b ++ s) = lexemes s := by
  induction b with
  | nil => rfl
  | cons c b ih =>
    obtain ⟨hc, hb⟩ := List.forall_mem_cons.mp hb
    rw [List.cons_append, lexemes_cons_of_isBlank hc, ih hb]

/-- A character that does not join the next one stands for itself. -/
theorem lexemes_cons_of_not_joins {c : Char} (hc : isBlank c = false) {s : Text}
    (h : ∀ d ∈ s.head?, joins c d = false) : lexemes (c :: s) = [c] :: lexemes s := by
  cases s with
  | nil => simp [lexemes, hc]
  | cons d s =>
    have hd := Bool.or_eq_false_iff.mp (h d rfl)
    rw [lexemes, if_neg (by simp [hc]), if_neg (by simp [hd.1]), if_neg (by simp [hd.2])]

theorem isBlank_of_isWordChar {c : Char} (h : isWordChar c = true) : isBlank c = false := by
  by_contra hb
  rw [isWordChar_of_isBlank (by simpa using hb)] at h
  cases h

theorem lexemes_cons_of_isWordChar {c d : Char} (hc : isWordChar c = true) (hd : isWordChar d = true)
    (s : Text) : lexemes (c :: d :: s) = consWord c (lexemes (d :: s)) := by
  rw [lexemes, if_neg (by simp [isBlank_of_isWordChar hc]), if_pos (by simp [hc, hd])]

theorem lexemes_cons_of_isDouble {c d : Char} (h : isDouble c d = true) (s : Text) :
    lexemes (c :: d :: s) = [c, d] :: lexemes s := by
  obtain ⟨heq, hsign⟩ := Bool.and_eq_true_iff.mp h
  obtain rfl := eq_of_beq heq
  have hapart : isBlank c = false ∧ isWordChar c = false := by
    rcases Bool.or_eq_true_iff.mp hsign with hc | hc <;> obtain rfl := eq_of_beq hc <;> decide
  rw [lexemes, if_neg (by simp [hapart.1]), if_neg (by simp [hapart.2]), if_pos h]

/-- A text that begins with no white space has a first word or sign, which begins as the text does. -/
theorem exists_lexemes_cons {c : Char} (hc : isBlank c = false) (s : Text) :
    ∃ w ws, lexemes (c :: s) = (c :: w) :: ws := by
  cases s with
  | nil => exact ⟨[], [], by simp [lexemes, hc]⟩
  | cons d s =>
    rw [lexemes, if_neg (by simp [hc])]
    split
    · cases lexemes (d :: s) with
      | nil => exact ⟨[], [], rfl⟩
      | cons w ws => exact ⟨w, ws, rfl⟩
    · split
      · exact ⟨[d], _, rfl⟩
      · exact ⟨[], _, rfl⟩

/-- Two texts that do not join are cut one after the other. -/
theorem lexemes_append {a b : Text} (h : ∀ c ∈ a.getLast?, ∀ d ∈ b.head?, joins c d = false) :
    lexemes (a ++ b) = lexemes a ++ lexemes b := by
  fun_induction lexemes a with
  | case1 => rfl
  | case2 c hc => exact lexemes_cons_of_isBlank hc b
  | case3 c hc => exact lexemes_cons_of_not_joins (by simpa using hc) (h c rfl)
  | case4 c d cs hc ih => exact (lexemes_cons_of_isBlank hc _).trans (ih (by simpa using h))
  | case5 c d cs hc hword ih =>
    obtain ⟨hwc, hwd⟩ := Bool.and_eq_true_iff.mp hword
    obtain ⟨w, ws, hw⟩ := exists_lexemes_cons (isBlank_of_isWordChar hwd) cs
    have ih := ih (by simpa using h)
    rw [hw] at ih ⊢
    rw [List.cons_append, List.cons_append, lexemes_cons_of_isWordChar hwc hwd, ← List.cons_append, ih]
    rfl
  | case6 c d cs hc hword hdouble ih =>
    have ih := ih fun c' hc' => h c' (by
      cases cs with
      | nil => cases hc'
      | cons e cs => simpa using hc')
    rw [List.cons_append, List.cons_append, lexemes_cons_of_isDouble hdouble, ih, List.cons_append]
  | case7 c d cs hc hword hdouble ih =>
    have hjoins : ∀ e ∈ (d :: cs ++ b).head?, joins c e = false := by
      rintro e ⟨⟩
      simp [joins, hword, hdouble]
    rw [List.cons_append, lexemes_cons_of_not_joins (by simpa using hc) hjoins, ih (by simpa using h),
      List.cons_append]

private theorem lexemes_of_isBlank {b : Text} (hb : ∀ c ∈ b, isBlank c = true) : lexemes b = [] := by
  simpa using lexemes_append_left hb []

theorem lexemes_append_right {b : Text} (hb : ∀ c ∈ b, isBlank c = true) (s : Text) :
    lexemes (s ++ b) = lexemes s := by
  rw [lexemes_append, lexemes_of_isBlank hb, List.append_nil]
  intro c _ d hd
  exact joins_of_isBlank c (hb d (List.mem_of_mem_head? hd))

@[simp] theorem lexemes_trim (s : Text) : lexemes (trim s) = lexemes s := by
  obtain ⟨b₁, b₂, hs, hb₁, hb₂⟩ := exists_trim s
  rw [hs, lexemes_append_left hb₁, lexemes_append_right hb₂, ← hs]

/-- A word is cut as one. -/
theorem lexemes_of_word {w : Text} (hne : w ≠ []) (hw : ∀ c ∈ w, isWordChar c = true) :
    lexemes w = [w] := by
  induction w with
  | nil => exact absurd rfl hne
  | cons c w ih =>
    obtain ⟨hc, hw⟩ := List.forall_mem_cons.mp hw
    cases w with
    | nil => simp [lexemes, isBlank_of_isWordChar hc]
    | cons d w =>
      rw [lexemes_cons_of_isWordChar hc (hw d (by simp)), ih (by simp) hw]
      rfl

/-- A word with edges on both sides is cut from what is around it. -/
theorem lexemes_of_edges {a w b : Text} (hne : w ≠ []) (hw : ∀ c ∈ w, isWordChar c = true)
    (ha : a.getLast?.any isWordChar = false) (hb : b.head?.any isWordChar = false) :
    lexemes (a ++ (w ++ b)) = lexemes a ++ w :: lexemes b := by
  obtain ⟨d, w', rfl⟩ := List.exists_cons_of_ne_nil hne
  rw [lexemes_append, lexemes_append, lexemes_of_word hne hw]
  · rfl
  · intro c hc e he
    rw [Option.mem_def.mp he, Option.any_some] at hb
    exact joins_of_ne (by simp [hw c (List.mem_of_mem_getLast? hc), hb])
  · intro c hc e he
    rw [Option.mem_def.mp hc, Option.any_some] at ha
    obtain rfl : d = e := by simpa using he
    exact joins_of_ne (by simp [ha, hw d (by simp)])

theorem mem_lexemes_of_mem {s : Text} {c : Char} (h : c ∈ s) :
    isBlank c = true ∨ ∃ l ∈ lexemes s, c ∈ l := by
  fun_induction lexemes s with
  | case1 => cases h
  | case2 d hd => exact .inl (List.mem_singleton.mp h ▸ hd)
  | case3 d hd => exact .inr ⟨[d], by simp, h⟩
  | case4 d e cs hd ih =>
    rcases List.mem_cons.mp h with rfl | h
    · exact .inl hd
    · exact ih h
  | case5 d e cs hd hword ih =>
    obtain ⟨w, ws, hw⟩ := exists_lexemes_cons
      (isBlank_of_isWordChar (Bool.and_eq_true_iff.mp hword).2) cs
    rw [hw] at ih ⊢
    rcases List.mem_cons.mp h with rfl | h
    · exact .inr ⟨_, List.mem_cons_self, by simp⟩
    · rcases ih h with hblank | ⟨l, hl, hc⟩
      · exact .inl hblank
      · rcases List.mem_cons.mp hl with rfl | hl
        · exact .inr ⟨_, List.mem_cons_self, List.mem_cons_of_mem _ hc⟩
        · exact .inr ⟨l, List.mem_cons_of_mem _ hl, hc⟩
  | case6 d e cs hd hword hdouble ih =>
    simp only [List.mem_cons] at h
    rcases h with rfl | rfl | h
    · exact .inr ⟨_, List.mem_cons_self, by simp⟩
    · exact .inr ⟨_, List.mem_cons_self, by simp⟩
    · exact (ih h).imp id fun ⟨l, hl, hc⟩ => ⟨l, List.mem_cons_of_mem _ hl, hc⟩
  | case7 d e cs hd hword hdouble ih =>
    rcases List.mem_cons.mp h with rfl | h
    · exact .inr ⟨_, List.mem_cons_self, by simp⟩
    · exact (ih h).imp id fun ⟨l, hl, hc⟩ => ⟨l, List.mem_cons_of_mem _ hl, hc⟩

theorem mem_of_mem_lexemes {s l : Text} {c : Char} (hl : l ∈ lexemes s) (hc : c ∈ l) : c ∈ s := by
  fun_induction lexemes s generalizing l with
  | case1 => cases hl
  | case2 => cases hl
  | case3 => exact List.mem_singleton.mp hl ▸ hc
  | case4 d e cs _ ih => exact List.mem_cons_of_mem d (ih hl hc)
  | case5 d e cs _ hword ih =>
    obtain ⟨w, ws, hw⟩ := exists_lexemes_cons
      (isBlank_of_isWordChar (Bool.and_eq_true_iff.mp hword).2) cs
    rw [hw] at ih hl
    rcases List.mem_cons.mp hl with rfl | hl
    · rcases List.mem_cons.mp hc with rfl | hc
      · exact List.mem_cons_self
      · exact List.mem_cons_of_mem d (ih List.mem_cons_self hc)
    · exact List.mem_cons_of_mem d (ih (List.mem_cons_of_mem _ hl) hc)
  | case6 d e cs _ _ _ ih =>
    rcases List.mem_cons.mp hl with rfl | hl
    · rcases List.mem_cons.mp hc with rfl | hc
      · exact List.mem_cons_self
      · exact List.mem_cons_of_mem d (List.mem_singleton.mp hc ▸ List.mem_cons_self)
    · exact List.mem_cons_of_mem d (List.mem_cons_of_mem e (ih hl hc))
  | case7 d e cs _ _ _ ih =>
    rcases List.mem_cons.mp hl with rfl | hl
    · exact List.mem_singleton.mp hc ▸ List.mem_cons_self
    · exact List.mem_cons_of_mem d (ih hl hc)

/-! ### Precedence -/

inductive Op where
  | add
  | sub
  | mul
  | div
  | mod
  | intDiv
  | pow
  deriving DecidableEq, Repr

/-- How tightly an operator binds. -/
def Op.level : Op → Nat
  | add | sub => 0
  | mul | div | mod | intDiv => 1
  | pow => 2

inductive Tree where
  | leaf (word : Text)
  | node (op : Op) (left right : Tree)
  deriving DecidableEq, Repr

/-- A name or a number. -/
def IsWord (w : Text) : Prop := w ≠ [] ∧ ∀ c ∈ w, isWordChar c = true

instance (w : Text) : Decidable (IsWord w) :=
  decidable_of_iff (w.isEmpty = false ∧ w.all isWordChar = true) (by simp [IsWord])

/-- Words and signs form an expression whose outer operators bind as tightly as a level or tighter.
Operators of one level associate to the left, and parentheses group. -/
inductive Parses (ops : Text → Option Op) : Nat → List Text → Tree → Prop
  | word {k : Nat} {w : Text} (word : IsWord w) : Parses ops k [w] (.leaf w)
  | group {k : Nat} {ts : List Text} {t : Tree} (inner : Parses ops 0 ts t) :
      Parses ops k (['('] :: ts ++ [[')']]) t
  | binary {k : Nat} {s : Text} {o : Op} {a b : List Text} {l r : Tree} (sign : ops s = some o)
      (level : k ≤ o.level) (left : Parses ops o.level a l) (right : Parses ops (o.level + 1) b r) :
      Parses ops k (a ++ s :: b) (.node o l r)

/-- A text denotes a tree. -/
def Denotes (ops : Text → Option Op) (s : Text) (t : Tree) : Prop := Parses ops 0 (lexemes s) t

theorem IsWord.ne_paren {w : Text} (h : IsWord w) : w ≠ ['('] ∧ w ≠ [')'] := by
  constructor <;> rintro rfl <;> exact absurd (h.2 _ (List.mem_singleton_self _)) (by decide)

/-- How many parentheses are left open. -/
def depth (ts : List Text) : Int := ts.count ['('] - ts.count [')']

theorem depth_append (as bs : List Text) : depth (as ++ bs) = depth as + depth bs := by
  simp only [depth, List.count_append]
  omega

theorem depth_cons (a : Text) (bs : List Text) : depth (a :: bs) = depth [a] + depth bs :=
  depth_append [a] bs

private theorem depth_of_ne {w : Text} (h : w ≠ ['('] ∧ w ≠ [')']) : depth [w] = 0 := by
  simp [depth, h.1, h.2]

/-- No parenthesis is closed before it is opened, and all are closed. -/
structure Balanced (ts : List Text) : Prop where
  closed : depth ts = 0
  opened : ∀ n, 0 ≤ depth (ts.take n)

namespace Balanced

variable {as bs : List Text}

theorem append (ha : Balanced as) (hb : Balanced bs) : Balanced (as ++ bs) := by
  refine ⟨by rw [depth_append, ha.closed, hb.closed]; rfl, fun n => ?_⟩
  rw [List.take_append, depth_append]
  exact Int.add_nonneg (ha.opened n) (hb.opened _)

theorem singleton {w : Text} (h : w ≠ ['('] ∧ w ≠ [')']) : Balanced [w] := by
  refine ⟨depth_of_ne h, fun n => ?_⟩
  cases n with
  | zero => exact Int.le_refl 0
  | succ n =>
    rw [List.take_succ_cons, List.take_nil]
    exact Int.le_of_eq (depth_of_ne h).symm

theorem group (h : Balanced as) : Balanced (['('] :: as ++ [[')']]) := by
  have hopen : depth [['(']] = 1 := by decide
  have hclose : depth [[')']] = -1 := by decide
  refine ⟨?_, fun n => ?_⟩
  · rw [List.cons_append, depth_cons, depth_append, h.closed, hopen, hclose]
    rfl
  · cases n with
    | zero => exact Int.le_refl 0
    | succ n =>
      have hinner := h.opened n
      rw [List.cons_append, List.take_succ_cons, depth_cons, List.take_append, depth_append, hopen]
      cases hn : n - as.length with
      | zero => rw [List.take_zero]; change 0 ≤ 1 + (_ + 0); omega
      | succ m => rw [List.take_succ_cons, List.take_nil, hclose]; omega

end Balanced

/-- Signs are spelled anew and keep their meaning; words and parentheses stay. -/
structure CarriesSigns (ops ops' : Text → Option Op) (spell : Text → Text) : Prop where
  sign : ∀ s o, ops s = some o → ops' (spell s) = some o
  word : ∀ w, IsWord w → spell w = w
  opening : spell ['('] = ['('] ∧ ops' ['('] = none
  closing : spell [')'] = [')'] ∧ ops' [')'] = none

namespace Parses

variable {ops ops' : Text → Option Op} {k : Nat} {ts : List Text} {t : Tree}

theorem ne_nil (h : Parses ops k ts t) : ts ≠ [] := by
  cases h <;> simp

theorem mem_cases (h : Parses ops k ts t) {l : Text} (hl : l ∈ ts) :
    IsWord l ∨ l = ['('] ∨ l = [')'] ∨ ∃ o, ops l = some o := by
  induction h with
  | word hw => exact .inl (List.mem_singleton.mp hl ▸ hw)
  | @group _ ts _ _ ih =>
    have hl : l = ['('] ∨ l ∈ ts ∨ l = [')'] := by simpa using hl
    rcases hl with hl | hl | hl
    · exact .inr (.inl hl)
    · exact ih hl
    · exact .inr (.inr (.inl hl))
  | @binary _ s o ls rs _ _ sign _ _ _ ihl ihr =>
    have hl : l ∈ ls ∨ l = s ∨ l ∈ rs := by simpa using hl
    rcases hl with hl | rfl | hl
    · exact ihl hl
    · exact .inr (.inr (.inr ⟨o, sign⟩))
    · exact ihr hl

theorem isChain (hops : ∀ s o, ops s = some o → ¬ IsWord s ∧ s ≠ ['(']) (h : Parses ops k ts t) :
    ts.IsChain fun a b => ¬ (IsWord a ∧ b = ['(']) := by
  induction h with
  | word => exact .singleton _
  | @group _ ts t _ ih =>
    rw [List.cons_append, List.isChain_cons]
    refine ⟨fun _ _ h => absurd h.1 (by decide), List.isChain_append.mpr ⟨ih, .singleton _, ?_⟩⟩
    intro a _ b hb hcall
    obtain rfl : [')'] = b := Option.some.inj hb
    exact absurd hcall.2 (by decide)
  | @binary _ s o ls rs _ _ sign _ _ _ ihl ihr =>
    obtain ⟨hword, hparen⟩ := hops s o sign
    refine List.isChain_append.mpr ⟨ihl, List.isChain_cons.mpr ⟨fun _ _ h => hword h.1, ihr⟩, ?_⟩
    intro a _ b hb hcall
    obtain rfl : s = b := Option.some.inj hb
    exact hparen hcall.2

private theorem balanced (hopen : ops ['('] = none) (hclose : ops [')'] = none) (h : Parses ops k ts t) :
    Balanced ts := by
  induction h with
  | word hw => exact .singleton hw.ne_paren
  | group _ ih => exact ih.group
  | @binary k s o ls rs l r sign _ _ _ ihl ihr =>
    have hs : s ≠ ['('] ∧ s ≠ [')'] := by
      constructor <;> rintro rfl <;> simp_all
    exact ihl.append (.append (.singleton hs) ihr)

theorem level_le {o : Op} {l r : Tree} (h : Parses ops k ts (.node o l r)) (hts : ts.head? ≠ some ['(']) :
    k ≤ o.level := by
  cases h with
  | group => exact absurd rfl hts
  | binary _ level => exact level

/-- An expression that is spelled anew is read as before. -/
theorem respell (h : Parses ops k ts t) {spell : Text → Text} (hspell : CarriesSigns ops ops' spell) :
    Parses ops' k (ts.map spell) t := by
  induction h with
  | word hw =>
    rw [List.map_singleton, hspell.word _ hw]
    exact .word hw
  | group _ ih => simpa [hspell.opening.1, hspell.closing.1] using ih.group
  | binary sign level _ _ ihl ihr =>
    rw [List.map_append, List.map_cons]
    exact .binary (hspell.sign _ _ sign) level ihl ihr

private theorem not_group {s : Text} {ls rs inner : List Text} (hl : Balanced ls) (hne : ls ≠ [])
    (hinner : Balanced inner) : ls ++ s :: rs ≠ ['('] :: inner ++ [[')']] := by
  intro heq
  obtain ⟨a, ls', rfl⟩ := List.exists_cons_of_ne_nil hne
  rw [List.cons_append, List.cons_append] at heq
  obtain ⟨rfl, hrest⟩ := List.cons.inj heq
  have hlength := congrArg List.length hrest
  simp only [List.length_append, List.length_cons, List.length_nil] at hlength
  have htake : ls' = inner.take ls'.length := by
    have htake := congrArg (List.take ls'.length) hrest
    rwa [List.take_left, List.take_append_of_le_length (by omega)] at htake
  have hopened := hinner.opened ls'.length
  have hclosed := hl.closed
  rw [depth_cons, htake] at hclosed
  have hone : depth [['(']] = 1 := by decide
  omega

theorem of_respell (h : Parses ops 0 ts t) {spell : Text → Text} (hspell : CarriesSigns ops ops' spell)
    {j : Nat} (h' : Parses ops' j (ts.map spell) t) : Parses ops j ts t := by
  cases h with
  | word hw => exact .word hw
  | group inner => exact .group inner
  | @binary _ s o ls rs l r sign _ left right =>
    by_cases hj : j ≤ o.level
    · exact .binary sign hj left right
    · -- the other reading is a group, which would begin inside the left operand
      exfalso
      have hleft := left.respell hspell
      rw [List.map_append, List.map_cons] at h'
      generalize hts : ls.map spell ++ spell s :: rs.map spell = ts' at h'
      cases h' with
      | binary _ level => exact hj level
      | group inner =>
        exact not_group (hleft.balanced hspell.opening.2 hspell.closing.2) hleft.ne_nil
          (inner.balanced hspell.opening.2 hspell.closing.2) hts

/-- A word, an operator and an expression: the operator has the whole expression on its right exactly
if that binds tighter. -/
theorem node_iff {x s : Text} (hx : IsWord x) {o : Op} (hs : ops s = some o) :
    Parses ops 0 (x :: s :: ts) (.node o (.leaf x) t) ↔ Parses ops (o.level + 1) ts t := by
  constructor
  · intro h
    generalize hts : x :: s :: ts = ts' at h
    cases h with
    | group inner => exact absurd (List.cons.inj hts).1 hx.ne_paren.1
    | @binary _ s' _ ls rs _ _ _ _ left right =>
      generalize hl : Tree.leaf x = l at left
      cases left with
      | @word _ w _ =>
        obtain ⟨_, hrest⟩ := List.cons.inj hts
        obtain ⟨_, rfl⟩ := List.cons.inj hrest
        exact right
      | group inner =>
        rw [List.cons_append, List.cons_append] at hts
        exact absurd (List.cons.inj hts).1 hx.ne_paren.1
      | binary => cases hl
  · intro h
    exact .binary (a := [x]) hs (Nat.zero_le _) (.word hx) h

end Parses

end Pseudocode.Arithmetic
