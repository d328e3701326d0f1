import Pseudocode.Proofs.PatternWays

/-! # What a pattern reads

A pattern reads a text piece by piece and captures some of the pieces. A reading is a way of the pattern
for which nothing around the text matters, so there may be more readings than ways: the edges of words
are left out. What holds of all readings holds of the match that is found. -/

namespace Pseudocode

namespace Text

/-- A text falls in one way only into characters of a class and a rest that begins with none. -/
theorem eq_of_runs {p : Char → Bool} {a b s t : Text} (ha : ∀ c ∈ a, p c = true)
    (hb : ∀ c ∈ b, p c = true) (hs : s.head?.any p = false) (ht : t.head?.any p = false)
    (h : a ++ s = b ++ t) : a = b ∧ s = t := by
  induction a generalizing b with
  | nil =>
    cases b with
    | nil => exact ⟨rfl, h⟩
    | cons d b =>
      obtain rfl : s = d :: (b ++ t) := h
      simp [hb d (by simp)] at hs
  | cons c a ih =>
    cases b with
    | nil =>
      obtain rfl : c :: (a ++ s) = t := h
      simp [ha c (by simp)] at ht
    | cons d b =>
      obtain ⟨rfl, htail⟩ := List.cons.inj h
      obtain ⟨rfl, rfl⟩ := ih (List.forall_mem_cons.mp ha).2 (List.forall_mem_cons.mp hb).2 htail
      exact ⟨rfl, rfl⟩

theorem eq_of_runs_cons {p : Char → Bool} {a b s t : Text} {c d : Char}
    (ha : ∀ c ∈ a, p c = true) (hb : ∀ c ∈ b, p c = true) (hc : p c = false)
    (hd : p d = false) (h : a ++ c :: s = b ++ d :: t) : a = b ∧ c = d ∧ s = t := by
  obtain ⟨hab, hrest⟩ := eq_of_runs ha hb (s := c :: s) (t := d :: t) hc hd h
  exact ⟨hab, List.cons.inj hrest⟩

/-- A text falls in one way only into what stands before the first `d` and what stands after it. -/
theorem eq_of_first {a b s t : Text} {d : Char} (ha : d ∉ a) (hb : d ∉ b) (h : a ++ d :: s = b ++ d :: t) :
    a = b ∧ s = t := by
  have hne {a : Text} (ha : d ∉ a) : ∀ c ∈ a, (c != d) = true := by
    intro c hc
    simp only [bne_iff_ne, ne_eq]
    rintro rfl
    exact ha hc
  obtain ⟨hab, _, hst⟩ := eq_of_runs_cons (hne ha) (hne hb) (by simp) (by simp) h
  exact ⟨hab, hst⟩

end Text

namespace Pattern

open Text

/-- The pattern can read the text, and captures the groups, latest first. -/
inductive Reads : Pattern → Text → Groups → Prop
  | nothing : Reads nothing [] []
  | text (s : Text) : Reads (text s) s []
  | one {cls : Char → Bool} {c : Char} (h : cls c = true) : Reads (one cls) [c] []
  | most {cls : Char → Bool} {s : Text} (h : ∀ c ∈ s, cls c = true) : Reads (most cls) s []
  | fewest {cls : Char → Bool} {s : Text} (h : ∀ c ∈ s, cls c = true) : Reads (fewest cls) s []
  | seq {p q : Pattern} {s t : Text} {g h : Groups} (hp : Reads p s g) (hq : Reads q t h) :
      Reads (seq p q) (s ++ t) (h ++ g)
  | left {p : Pattern} (q : Pattern) {s : Text} {g : Groups} (hp : Reads p s g) :
      Reads (either p q) s g
  | right (p : Pattern) {q : Pattern} {s : Text} {g : Groups} (hq : Reads q s g) :
      Reads (either p q) s g
  | done (p : Pattern) : Reads (many p) [] []
  | again {p : Pattern} {s t : Text} {g h : Groups} (hp : Reads p s g) (hm : Reads (many p) t h) :
      Reads (many p) (s ++ t) (h ++ g)
  | group (i : Nat) {p : Pattern} {s : Text} {g : Groups} (hp : Reads p s g) :
      Reads (group i p) s ((i, s) :: g)
  | wordEdge : Reads wordEdge [] []

section

variable {p q : Pattern} {cls : Char → Bool} {s t : Text} {g : Groups}

theorem reads_text : Reads (.text t) s g ↔ s = t ∧ g = [] := by
  constructor
  · intro h
    cases h
    exact ⟨rfl, rfl⟩
  · rintro ⟨rfl, rfl⟩
    exact .text s

theorem reads_one : Reads (.one cls) s g ↔ ∃ c, cls c = true ∧ s = [c] ∧ g = [] := by
  constructor
  · intro h
    cases h with
    | one h => exact ⟨_, h, rfl, rfl⟩
  · rintro ⟨c, h, rfl, rfl⟩
    exact .one h

theorem reads_most : Reads (.most cls) s g ↔ (∀ c ∈ s, cls c = true) ∧ g = [] := by
  constructor
  · intro h
    cases h with
    | most h => exact ⟨h, rfl⟩
  · rintro ⟨h, rfl⟩
    exact .most h

theorem reads_fewest : Reads (.fewest cls) s g ↔ (∀ c ∈ s, cls c = true) ∧ g = [] := by
  constructor
  · intro h
    cases h with
    | fewest h => exact ⟨h, rfl⟩
  · rintro ⟨h, rfl⟩
    exact .fewest h

theorem reads_nothing : Reads .nothing s g ↔ s = [] ∧ g = [] := by
  constructor
  · intro h
    cases h
    exact ⟨rfl, rfl⟩
  · rintro ⟨rfl, rfl⟩
    exact .nothing

theorem reads_either : Reads (.either p q) s g ↔ Reads p s g ∨ Reads q s g := by
  constructor
  · intro h
    cases h with
    | left _ hp => exact .inl hp
    | right _ hq => exact .inr hq
  · rintro (hp | hq)
    · exact .left q hp
    · exact .right p hq

theorem reads_append :
    Reads (p ++ q) s g ↔
      ∃ s₁ s₂ g₁ g₂, s = s₁ ++ s₂ ∧ g = g₂ ++ g₁ ∧ Reads p s₁ g₁ ∧ Reads q s₂ g₂ := by
  constructor
  · intro h
    cases h with
    | seq hp hq => exact ⟨_, _, _, _, rfl, rfl, hp, hq⟩
  · rintro ⟨s₁, s₂, g₁, g₂, rfl, rfl, hp, hq⟩
    exact .seq hp hq

theorem reads_most1 :
    Reads (most1 cls) s g ↔ s ≠ [] ∧ (∀ c ∈ s, cls c = true) ∧ g = [] := by
  constructor
  · intro h
    obtain ⟨s₁, s₂, g₁, g₂, rfl, rfl, hp, hq⟩ := reads_append.mp h
    obtain ⟨c, hc, rfl, rfl⟩ := reads_one.mp hp
    obtain ⟨hs, rfl⟩ := reads_most.mp hq
    exact ⟨by simp, by simpa [hc] using hs, rfl⟩
  · rintro ⟨hne, hs, rfl⟩
    cases s with
    | nil => exact absurd rfl hne
    | cons c cs =>
      obtain ⟨hc, hcs⟩ := List.forall_mem_cons.mp hs
      exact .seq (.one hc) (.most hcs)

/-- A pattern that stops early reads the same texts as one that goes on. -/
theorem reads_fewest1 : Reads (fewest1 cls) s g ↔ Reads (most1 cls) s g := by
  constructor
  · intro h
    obtain ⟨s₁, s₂, g₁, g₂, rfl, rfl, hp, hq⟩ := reads_append.mp h
    exact .seq hp (reads_most.mpr (reads_fewest.mp hq))
  · intro h
    obtain ⟨s₁, s₂, g₁, g₂, rfl, rfl, hp, hq⟩ := reads_append.mp h
    exact .seq hp (reads_fewest.mpr (reads_most.mp hq))

theorem reads_group {i : Nat} : Reads (.group i p) s g ↔ ∃ g', g = (i, s) :: g' ∧ Reads p s g' := by
  constructor
  · intro h
    cases h with
    | group _ hp => exact ⟨_, rfl, hp⟩
  · rintro ⟨g', rfl, hp⟩
    exact .group i hp

/-- A choice of texts reads one of them. -/
theorem mem_of_reads_oneOf {ts : List Text} (h : Reads (oneOf (ts.map .text)) s g) : s ∈ ts ∧ g = [] := by
  induction ts with
  | nil =>
    obtain ⟨c, hc, _⟩ := reads_one.mp h
    cases hc
  | cons t ts ih =>
    cases ts with
    | nil =>
      obtain ⟨rfl, rfl⟩ := reads_text.mp h
      exact ⟨List.mem_cons_self, rfl⟩
    | cons u us =>
      rcases reads_either.mp h with h | h
      · obtain ⟨rfl, rfl⟩ := reads_text.mp h
        exact ⟨List.mem_cons_self, rfl⟩
      · obtain ⟨hs, rfl⟩ := ih h
        exact ⟨List.mem_cons_of_mem _ hs, rfl⟩

theorem reads_oneOf_of_mem {ts : List Text} (h : s ∈ ts) : Reads (oneOf (ts.map .text)) s [] := by
  induction ts with
  | nil => cases h
  | cons t ts ih =>
    cases ts with
    | nil => exact reads_text.mpr ⟨List.mem_singleton.mp h, rfl⟩
    | cons u us =>
      rcases List.mem_cons.mp h with rfl | h
      · exact .left _ (.text s)
      · exact .right _ (ih h)

/-- A pattern without the last `n` parts of its sequence. -/
def leading : Nat → Pattern → Pattern
  | n + 1, seq p _ => p.leading n
  | _, p => p

/-- A reading begins with one of the leading parts. -/
theorem Reads.leading (h : Reads p s g) (n : Nat) :
    ∃ s₁ s₂ g₁, s = s₁ ++ s₂ ∧ Reads (p.leading n) s₁ g₁ := by
  fun_induction Pattern.leading n p generalizing s g with
  | case1 n p q ih =>
    cases h with
    | seq hp hq =>
      obtain ⟨s₁, s₂, g₁, rfl, h⟩ := ih hp
      exact ⟨s₁, s₂ ++ _, g₁, List.append_assoc .., h⟩
  | case2 => exact ⟨s, [], g, (List.append_nil s).symm, h⟩

end

/-! ### Matches are readings -/

theorem Way.reads {p : Pattern} {seen s rest : Text} {g : Groups} (h : Way p seen s rest g) :
    Reads p s g := by
  induction h with
  | nothing => exact .nothing
  | text => exact .text _
  | one h => exact .one h
  | most h => exact .most h
  | fewest h => exact .fewest h
  | seq _ _ ihp ihq => exact .seq ihp ihq
  | left _ ih => exact .left _ ih
  | right _ ih => exact .right _ ih
  | done => exact .done _
  | again _ _ ihp ihm => exact .again ihp ihm
  | group _ ih => exact .group _ ih
  | wordEdge _ => exact .wordEdge

/-- The match of a whole text reads it. -/
theorem reads_of_whole? {p : Pattern} {s : Text} {m : Match} (h : p.whole? s = some m) :
    Reads p s m.groups :=
  (way_of_whole? h).reads

/-- No edge of a word is asked for. -/
def isPlain : Pattern → Bool
  | seq p q => p.isPlain && q.isPlain
  | either p q => p.isPlain && q.isPlain
  | many p => p.isPlain
  | group _ p => p.isPlain
  | wordEdge => false
  | _ => true

/-- Where no edge of a word is asked for, a reading is a way, whatever stands around it. -/
theorem Reads.way {p : Pattern} {s : Text} {g : Groups} (h : Reads p s g) (hp : p.isPlain = true)
    (seen rest : Text) : Way p seen s rest g := by
  induction h generalizing seen rest with
  | nothing => exact .nothing
  | text s => exact .text
  | one h => exact .one h
  | most h => exact .most h
  | fewest h => exact .fewest h
  | seq _ _ ihp ihq =>
    obtain ⟨hp, hq⟩ : _ ∧ _ := by simpa [isPlain] using hp
    exact .seq (ihp hp _ _) (ihq hq _ _)
  | left q _ ih =>
    obtain ⟨hp, _⟩ : _ ∧ _ := by simpa [isPlain] using hp
    exact .left (ih hp _ _)
  | right p _ ih =>
    obtain ⟨_, hq⟩ : _ ∧ _ := by simpa [isPlain] using hp
    exact .right (ih hq _ _)
  | done p => exact .done
  | again _ _ ihp ihm => exact .again (ihp hp _ _) (ihm hp _ _)
  | group i _ ih => exact .group (ih hp _ _)
  | wordEdge => cases hp

/-! ### Names in patterns -/

theorem isWordChar_of_isNameStart {c : Char} (h : isNameStart c = true) : isWordChar c = true := by
  rcases Bool.or_eq_true_iff.mp h with h | h
  · have hlt : c.toNat < 128 := by
      rcases Bool.or_eq_true_iff.mp h with h | h
      · have hle : c.val ≤ 'Z'.val := (of_decide_eq_true h).2
        exact Nat.lt_of_le_of_lt hle (by decide)
      · have hle : c.val ≤ 'z'.val := of_decide_eq_true (Bool.and_eq_true_iff.mp h).2
        exact Nat.lt_of_le_of_lt hle (by decide)
    simp [isWordChar, hlt, Char.isAlphanum, h]
  · obtain rfl := eq_of_beq h
    decide

theorem reads_name {s : Text} {g : Groups} (h : Reads name s g) :
    g = [] ∧ ∃ c cs, s = c :: cs ∧ isWordChar c = true ∧ ∀ d ∈ s, isWordChar d = true := by
  obtain ⟨s₁, s₂, g₁, g₂, rfl, rfl, hp, hq⟩ := reads_append.mp h
  obtain ⟨c, hc, rfl, rfl⟩ := reads_one.mp hp
  obtain ⟨hs, rfl⟩ := reads_most.mp hq
  have hc := isWordChar_of_isNameStart hc
  exact ⟨rfl, c, s₂, rfl, hc, List.forall_mem_cons.mpr ⟨hc, hs⟩⟩

theorem reads_name_of_fits {s : Text} (h : name.fits s = true) : Reads name s [] := by
  obtain ⟨m, hm⟩ := Option.isSome_iff_exists.mp h
  have hreads := reads_of_whole? hm
  rwa [(reads_name hreads).1] at hreads

/-- A text that is a name. -/
theorem isWordChar_of_fits {s : Text} (h : name.fits s = true) :
    s ≠ [] ∧ ∀ c ∈ s, isWordChar c = true := by
  obtain ⟨_, c, cs, rfl, _, hs⟩ := reads_name (reads_name_of_fits h)
  exact ⟨by simp, hs⟩

theorem reads_target_of_fits {s : Text} (h : name.fits s = true) : Reads target s [] := by
  obtain ⟨_, cs, _, _, rfl, _, hone, hmost⟩ := reads_append.mp (reads_name_of_fits h)
  have hcs : Reads (.most (wordOr ".")) cs [] :=
    .most fun c hc => by simp [wordOr, (reads_most.mp hmost).1 c hc]
  obtain ⟨c, hc, rfl, _⟩ := reads_one.mp hone
  have hseq : Reads target ([c] ++ cs ++ []) [] := .seq (.seq (.one hc) hcs) (.right _ .nothing)
  simpa using hseq

theorem reads_target {s : Text} {g : Groups} (h : Reads target s g) :
    g = [] ∧ ∃ d sub, s = d ++ sub ∧ (∀ c ∈ d, wordOr "." c = true) ∧
      (sub = [] ∨ sub.head? = some '[') := by
  obtain ⟨d, sub, _, _, rfl, rfl, hd, hsub⟩ := reads_append.mp h
  obtain ⟨_, cs, _, _, rfl, rfl, hone, hmost⟩ := reads_append.mp hd
  obtain ⟨c, hc, rfl, rfl⟩ := reads_one.mp hone
  obtain ⟨hcs, rfl⟩ := reads_most.mp hmost
  have hd : ∀ e ∈ c :: cs, wordOr "." e = true :=
    List.forall_mem_cons.mpr ⟨by simp [wordOr, isWordChar_of_isNameStart hc], hcs⟩
  rcases reads_either.mp hsub with hsub | hsub
  · obtain ⟨_, _, _, _, rfl, rfl, hopen, hclose⟩ := reads_append.mp hsub
    obtain ⟨_, _, _, _, rfl, rfl, hbracket, hinner⟩ := reads_append.mp hopen
    obtain ⟨rfl, rfl⟩ := reads_text.mp hbracket
    obtain ⟨rfl, rfl⟩ := reads_text.mp hclose
    obtain ⟨_, _, rfl⟩ := reads_most1.mp hinner
    exact ⟨rfl, c :: cs, _, rfl, hd, .inr rfl⟩
  · obtain ⟨rfl, rfl⟩ := reads_nothing.mp hsub
    exact ⟨rfl, c :: cs, [], rfl, hd, .inl rfl⟩

/-! ### Edges of words -/

section

variable {w : Text} (hne : w ≠ []) (hw : ∀ c ∈ w, isWordChar c = true) {seen rest : Text}

include hne hw

theorem isWordEdge_before :
    isWordEdge ⟨seen, w ++ rest⟩ = true ↔ seen.head?.any isWordChar = false := by
  obtain ⟨c, cs, rfl⟩ := List.exists_cons_of_ne_nil hne
  simp [isWordEdge, hw c (by simp)]

theorem isWordEdge_after :
    isWordEdge ⟨w.reverse ++ seen, rest⟩ = true ↔ rest.head?.any isWordChar = false := by
  have hlast := hw (w.getLast hne) (List.getLast_mem hne)
  simp [isWordEdge, List.getLast?_eq_some_getLast hne, hlast]

end

/-- Whether every way begins at the edge of a word. -/
def beginsAtEdge : Pattern → Bool
  | seq p _ => p.beginsAtEdge
  | group _ p => p.beginsAtEdge
  | wordEdge => true
  | _ => false

theorem Way.isWordEdge {p : Pattern} {seen s rest : Text} {g : Groups} (h : Way p seen s rest g)
    (hp : p.beginsAtEdge = true) : isWordEdge ⟨seen, s ++ rest⟩ = true := by
  induction h with
  | nothing | text | one | most | fewest | left | right | done | again => cases hp
  | seq _ _ ih _ => rw [List.append_assoc, ih hp]
  | group _ ih => exact ih hp
  | wordEdge h => exact h

/-! ### Last characters -/

/-- Whether some reading may be empty. -/
def canBeEmpty : Pattern → Bool
  | nothing => true
  | text s => s.isEmpty
  | one _ => false
  | most _ => true
  | fewest _ => true
  | seq p q => p.canBeEmpty && q.canBeEmpty
  | either p q => p.canBeEmpty || q.canBeEmpty
  | many _ => true
  | group _ p => p.canBeEmpty
  | wordEdge => true

/-- Whether some reading may have a given last character. -/
def canEnd (c : Char) : Pattern → Bool
  | nothing => false
  | text s => s.getLast? = some c
  | one cls => cls c
  | most cls => cls c
  | fewest cls => cls c
  | seq p q => q.canEnd c || q.canBeEmpty && p.canEnd c
  | either p q => p.canEnd c || q.canEnd c
  | many p => p.canEnd c
  | group _ p => p.canEnd c
  | wordEdge => false

theorem Reads.canBeEmpty {p : Pattern} {s : Text} {g : Groups} (h : Reads p s g) (hs : s = []) :
    p.canBeEmpty = true := by
  induction h with
  | nothing => rfl
  | text s => simpa [Pattern.canBeEmpty] using hs
  | one h => cases hs
  | most h => rfl
  | fewest h => rfl
  | seq hp hq ihp ihq =>
    obtain ⟨hs, ht⟩ := List.append_eq_nil_iff.mp hs
    simp [Pattern.canBeEmpty, ihp hs, ihq ht]
  | left q hp ih => simp [Pattern.canBeEmpty, ih hs]
  | right p hq ih => simp [Pattern.canBeEmpty, ih hs]
  | done p => rfl
  | again hp hm ihp ihm => rfl
  | group i hp ih => exact ih hs
  | wordEdge => rfl

private theorem Reads.canEnd {p : Pattern} {s : Text} {g : Groups} (h : Reads p s g) {c : Char}
    (hs : s.getLast? = some c) : p.canEnd c = true := by
  induction h with
  | nothing => cases hs
  | text s => simpa [Pattern.canEnd] using hs
  | one h =>
    obtain rfl := Option.some.inj hs
    exact h
  | most h => exact h c (List.mem_of_getLast? hs)
  | fewest h => exact h c (List.mem_of_getLast? hs)
  | @seq p q s t g g' hp hq ihp ihq =>
    rw [List.getLast?_append] at hs
    rcases Option.or_eq_some_iff.mp hs with ht | ⟨ht, hs⟩
    · simp [Pattern.canEnd, ihq ht]
    · have hempty := hq.canBeEmpty (List.getLast?_eq_none_iff.mp ht)
      simp [Pattern.canEnd, hempty, ihp hs]
  | left q hp ih => simp [Pattern.canEnd, ih hs]
  | right p hq ih => simp [Pattern.canEnd, ih hs]
  | done p => cases hs
  | again hp hm ihp ihm =>
    rw [List.getLast?_append] at hs
    rcases Option.or_eq_some_iff.mp hs with ht | ⟨_, hs⟩
    · exact ihm ht
    · exact ihp hs
  | group i hp ih => exact ih hs
  | wordEdge => cases hs

theorem whole?_eq_none_of_canEnd {p : Pattern} {c : Char} (h : p.canEnd c = false) {s : Text}
    (hs : s.getLast? = some c) : p.whole? s = none := by
  cases hm : p.whole? s with
  | none => rfl
  | some m =>
    have hend := (reads_of_whole? hm).canEnd hs
    rw [h] at hend
    cases hend

theorem getLast?_of_whole?_append {p : Pattern} {t s : Text} {c : Char} (h : t.getLast? = some c)
    {m : Match} (hm : (p ++ .text t).whole? s = some m) : s.getLast? = some c := by
  obtain ⟨s₁, s₂, _, _, rfl, _, _, ht⟩ := reads_append.mp (reads_of_whole? hm)
  obtain ⟨rfl, _⟩ := reads_text.mp ht
  rw [List.getLast?_append, h]
  rfl

/-! ### First characters -/

/-- Whether some reading may have a given first character. -/
def canBegin (c : Char) : Pattern → Bool
  | nothing => false
  | text s => s.head? = some c
  | one cls => cls c
  | most cls => cls c
  | fewest cls => cls c
  | seq p q => p.canBegin c || p.canBeEmpty && q.canBegin c
  | either p q => p.canBegin c || q.canBegin c
  | many p => p.canBegin c
  | group _ p => p.canBegin c
  | wordEdge => false

theorem Reads.canBegin {p : Pattern} {s : Text} {g : Groups} (h : Reads p s g) {c : Char}
    (hs : s.head? = some c) : p.canBegin c = true := by
  induction h with
  | nothing => cases hs
  | text s => simpa [Pattern.canBegin] using hs
  | one h =>
    obtain rfl := Option.some.inj hs
    exact h
  | most h => exact h c (List.mem_of_head? hs)
  | fewest h => exact h c (List.mem_of_head? hs)
  | @seq p q s t g g' hp hq ihp ihq =>
    rw [List.head?_append] at hs
    rcases Option.or_eq_some_iff.mp hs with hs | ⟨hs, ht⟩
    · simp [Pattern.canBegin, ihp hs]
    · have hempty := hp.canBeEmpty (List.head?_eq_none_iff.mp hs)
      simp [Pattern.canBegin, hempty, ihq ht]
  | left q hp ih => simp [Pattern.canBegin, ih hs]
  | right p hq ih => simp [Pattern.canBegin, ih hs]
  | done p => cases hs
  | again hp hm ihp ihm =>
    rw [List.head?_append] at hs
    rcases Option.or_eq_some_iff.mp hs with hs | ⟨_, ht⟩
    · exact ihp hs
    · exact ihm ht
  | group i hp ih => exact ih hs
  | wordEdge => cases hs

theorem whole?_eq_none_of_canBegin {p : Pattern} {c : Char} (h : p.canBegin c = false) {s : Text}
    (hs : s.head? = some c) : p.whole? s = none := by
  cases hm : p.whole? s with
  | none => rfl
  | some m =>
    have hbegin := (reads_of_whole? hm).canBegin hs
    rw [h] at hbegin
    cases hbegin

/-- A pattern that cannot be empty leads no text whose first character it cannot read first. -/
theorem leads_eq_false_of_canBegin {p : Pattern} {c : Char} (h : p.canBegin c = false)
    (he : p.canBeEmpty = false) {s : Text} (hs : s.head? = some c) : p.leads s = false := by
  unfold leads
  cases hm : p.lead? s with
  | none => rfl
  | some m =>
    obtain ⟨rest, hrest, hway⟩ := way_of_lead? hm
    cases ht : m.text with
    | nil =>
      have hempty := hway.reads.canBeEmpty ht
      rw [he] at hempty
      cases hempty
    | cons d t =>
      have hbegin := hway.reads.canBegin (c := c) (by rw [← hs, hrest, ht]; rfl)
      rw [h] at hbegin
      cases hbegin

/-! ### Characters that are not read -/

/-- Whether no reading has a given character. -/
def avoids (c : Char) : Pattern → Bool
  | nothing => true
  | text s => !s.contains c
  | one cls => !cls c
  | most cls => !cls c
  | fewest cls => !cls c
  | seq p q => p.avoids c && q.avoids c
  | either p q => p.avoids c && q.avoids c
  | many p => p.avoids c
  | group _ p => p.avoids c
  | wordEdge => true

/-- Whether a group captures no text that has a given character. -/
def groupAvoids (i : Nat) (c : Char) : Pattern → Bool
  | seq p q => p.groupAvoids i c && q.groupAvoids i c
  | either p q => p.groupAvoids i c && q.groupAvoids i c
  | many p => p.groupAvoids i c
  | group j p => (i != j || p.avoids c) && p.groupAvoids i c
  | _ => true

theorem Reads.avoids {p : Pattern} {s : Text} {g : Groups} (h : Reads p s g) {c : Char}
    (hp : p.avoids c = true) : c ∉ s := by
  induction h with
  | nothing => simp
  | text s => simpa [Pattern.avoids] using hp
  | one h =>
    intro hc
    obtain rfl := List.mem_singleton.mp hc
    simp [Pattern.avoids, h] at hp
  | most h =>
    intro hc
    simp [Pattern.avoids, h c hc] at hp
  | fewest h =>
    intro hc
    simp [Pattern.avoids, h c hc] at hp
  | seq _ _ ihp ihq =>
    obtain ⟨hp, hq⟩ : _ ∧ _ := by simpa [Pattern.avoids] using hp
    simp [ihp hp, ihq hq]
  | left q _ ih =>
    obtain ⟨hp, _⟩ : _ ∧ _ := by simpa [Pattern.avoids] using hp
    exact ih hp
  | right p _ ih =>
    obtain ⟨_, hq⟩ : _ ∧ _ := by simpa [Pattern.avoids] using hp
    exact ih hq
  | done p => simp
  | again _ _ ihp ihm => simp [ihp hp, ihm hp]
  | group i _ ih => exact ih hp
  | wordEdge => simp

private theorem Reads.groupAvoids {p : Pattern} {s : Text} {g : Groups} (h : Reads p s g) {i : Nat} {c : Char}
    (hp : p.groupAvoids i c = true) : ∀ t, (i, t) ∈ g → c ∉ t := by
  induction h with
  | nothing | text | one | most | fewest | done | wordEdge => simp
  | seq _ _ ihp ihq =>
    obtain ⟨hp, hq⟩ : _ ∧ _ := by simpa [Pattern.groupAvoids] using hp
    intro t ht
    rcases List.mem_append.mp ht with ht | ht
    · exact ihq hq t ht
    · exact ihp hp t ht
  | left q _ ih =>
    obtain ⟨hp, _⟩ : _ ∧ _ := by simpa [Pattern.groupAvoids] using hp
    exact ih hp
  | right p _ ih =>
    obtain ⟨_, hq⟩ : _ ∧ _ := by simpa [Pattern.groupAvoids] using hp
    exact ih hq
  | again _ _ ihp ihm =>
    intro t ht
    rcases List.mem_append.mp ht with ht | ht
    · exact ihm hp t ht
    · exact ihp hp t ht
  | group j hread ih =>
    obtain ⟨hj, hp⟩ : _ ∧ _ := by simpa [Pattern.groupAvoids] using hp
    intro t ht
    rcases List.mem_cons.mp ht with heq | ht
    · obtain ⟨rfl, rfl⟩ := Prod.mk.inj heq
      exact hread.avoids (by simpa using hj)
    · exact ih hp t ht

/-- What a group captures has no character that it avoids. -/
theorem Reads.not_mem_group {p : Pattern} {s : Text} {m : Match} (hm : Reads p s m.groups) {i : Nat} {c : Char}
    (h : p.groupAvoids i c = true) : c ∉ m.group i := by
  unfold Match.group Match.group?
  cases hl : m.groups.lookup i with
  | none => simp
  | some t =>
    apply hm.groupAvoids h
    rw [List.lookup_eq_some_iff] at hl
    obtain ⟨before, after, heq, _⟩ := hl
    rw [heq]
    simp

theorem not_mem_group {p : Pattern} {i : Nat} {c : Char} (h : p.groupAvoids i c = true) {s : Text}
    {m : Match} (hm : p.whole? s = some m) : c ∉ m.group i :=
  (reads_of_whole? hm).not_mem_group h

end Pattern

end Pseudocode
