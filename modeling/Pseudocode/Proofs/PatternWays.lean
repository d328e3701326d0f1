import Pseudocode.Pattern

/-! # The ways of a pattern

Between the text behind a cursor and the text that is left ahead, a pattern can read the text between
them in some ways. A match is the first of them in a fixed order, so it is a way; and where there is a
way, there is a match, though perhaps along another one. -/

namespace Pseudocode.Pattern

open Text

/-- With `seen` behind, nearest character first, and `rest` ahead, the pattern can read the text between
them and captures the groups, latest first. -/
inductive Way : Pattern → Text → Text → Text → Groups → Prop
  | nothing {seen rest : Text} : Way nothing seen [] rest []
  | text {s seen rest : Text} : Way (text s) seen s rest []
  | one {cls : Char → Bool} {c : Char} {seen rest : Text} (h : cls c = true) :
      Way (one cls) seen [c] rest []
  | most {cls : Char → Bool} {s seen rest : Text} (h : ∀ c ∈ s, cls c = true) :
      Way (most cls) seen s rest []
  | fewest {cls : Char → Bool} {s seen rest : Text} (h : ∀ c ∈ s, cls c = true) :
      Way (fewest cls) seen s rest []
  | seq {p q : Pattern} {s t seen rest : Text} {g h : Groups} (hp : Way p seen s (t ++ rest) g)
      (hq : Way q (s.reverse ++ seen) t rest h) : Way (seq p q) seen (s ++ t) rest (h ++ g)
  | left {p q : Pattern} {s seen rest : Text} {g : Groups} (hp : Way p seen s rest g) :
      Way (either p q) seen s rest g
  | right {p q : Pattern} {s seen rest : Text} {g : Groups} (hq : Way q seen s rest g) :
      Way (either p q) seen s rest g
  | done {p : Pattern} {seen rest : Text} : Way (many p) seen [] rest []
  | again {p : Pattern} {s t seen rest : Text} {g h : Groups} (hp : Way p seen s (t ++ rest) g)
      (hm : Way (many p) (s.reverse ++ seen) t rest h) : Way (many p) seen (s ++ t) rest (h ++ g)
  | group {i : Nat} {p : Pattern} {s seen rest : Text} {g : Groups} (hp : Way p seen s rest g) :
      Way (group i p) seen s rest ((i, s) :: g)
  | wordEdge {seen rest : Text} (h : isWordEdge ⟨seen, rest⟩ = true) : Way wordEdge seen [] rest []

section

variable {p q : Pattern} {cls : Char → Bool} {s t seen rest : Text} {g : Groups}

theorem way_append :
    Way (p ++ q) seen s rest g ↔ ∃ s₁ s₂ g₁ g₂, s = s₁ ++ s₂ ∧ g = g₂ ++ g₁ ∧
      Way p seen s₁ (s₂ ++ rest) g₁ ∧ Way q (s₁.reverse ++ seen) s₂ rest g₂ := by
  constructor
  · intro h
    cases h with
    | seq hp hq => exact ⟨_, _, _, _, rfl, rfl, hp, hq⟩
  · rintro ⟨s₁, s₂, g₁, g₂, rfl, rfl, hp, hq⟩
    exact .seq hp hq

theorem way_text : Way (.text t) seen s rest g ↔ s = t ∧ g = [] := by
  constructor
  · intro h
    cases h
    exact ⟨rfl, rfl⟩
  · rintro ⟨rfl, rfl⟩
    exact .text

theorem way_wordEdge :
    Way .wordEdge seen s rest g ↔ s = [] ∧ g = [] ∧ isWordEdge ⟨seen, rest⟩ = true := by
  constructor
  · intro h
    cases h with
    | wordEdge h => exact ⟨rfl, rfl, h⟩
  · rintro ⟨rfl, rfl, h⟩
    exact .wordEdge h

end

/-! ### Matches are ways -/

section

variable {α : Type} {cls : Char → Bool} {r : α}

theorem eq_some_of_orElse {x y : Option α} (h : (x <|> y) = some r) : x = some r ∨ y = some r := by
  cases x with
  | none => exact .inr h
  | some a => exact .inl h

theorem exists_of_matchMost {k : Cursor → Option α} {seen rest : Text}
    (h : matchMost cls k seen rest = some r) :
    ∃ s rest', rest = s ++ rest' ∧ (∀ c ∈ s, cls c = true) ∧
      k ⟨s.reverse ++ seen, rest'⟩ = some r := by
  induction rest generalizing seen with
  | nil => exact ⟨[], [], rfl, by simp, h⟩
  | cons c cs ih =>
    have hstop (hk : k ⟨seen, c :: cs⟩ = some r) :
        ∃ s rest', c :: cs = s ++ rest' ∧ (∀ c ∈ s, cls c = true) ∧
          k ⟨s.reverse ++ seen, rest'⟩ = some r :=
      ⟨[], c :: cs, rfl, by simp, hk⟩
    unfold matchMost at h
    split at h
    · next hc =>
      rcases eq_some_of_orElse h with h | h
      · obtain ⟨s, rest', rfl, hs, hk⟩ := ih h
        exact ⟨c :: s, rest', rfl, by simpa [hc] using hs, by simpa using hk⟩
      · exact hstop h
    · exact hstop h

theorem exists_of_matchFewest {k : Cursor → Option α} {seen rest : Text}
    (h : matchFewest cls k seen rest = some r) :
    ∃ s rest', rest = s ++ rest' ∧ (∀ c ∈ s, cls c = true) ∧
      k ⟨s.reverse ++ seen, rest'⟩ = some r := by
  induction rest generalizing seen with
  | nil => exact ⟨[], [], rfl, by simp, h⟩
  | cons c cs ih =>
    unfold matchFewest at h
    rcases eq_some_of_orElse h with h | h
    · exact ⟨[], c :: cs, rfl, by simp, h⟩
    · split at h
      · next hc =>
        obtain ⟨s, rest', rfl, hs, hk⟩ := ih h
        exact ⟨c :: s, rest', rfl, by simpa [hc] using hs, by simpa using hk⟩
      · cases h

/-- The pattern reads a text from the cursor on and hands over to the continuation there. -/
def HandsOver (p : Pattern) (k : Groups → Cursor → Option α) (g : Groups) (c : Cursor) (r : α) : Prop :=
  ∃ s h rest, c.rest = s ++ rest ∧ Way p c.seen s rest h ∧
    k (h ++ g) ⟨s.reverse ++ c.seen, rest⟩ = some r

theorem HandsOver.bind {p q pq : Pattern} {k k' : Groups → Cursor → Option α} {g : Groups} {c : Cursor}
    (h : p.HandsOver k' g c r) (hk : ∀ {g' c'}, k' g' c' = some r → q.HandsOver k g' c' r)
    (hpq : ∀ {s t rest h h'}, Way p c.seen s (t ++ rest) h → Way q (s.reverse ++ c.seen) t rest h' →
      Way pq c.seen (s ++ t) rest (h' ++ h)) : pq.HandsOver k g c r := by
  obtain ⟨s, g₁, rest, hrest, hs, hk'⟩ := h
  obtain ⟨t, g₂, rest', hrest', ht, hk⟩ := hk hk'
  obtain rfl : rest = t ++ rest' := hrest'
  refine ⟨s ++ t, g₂ ++ g₁, rest', ?_, hpq hs ht, ?_⟩
  · rw [hrest, List.append_assoc]
  · simpa using hk

private theorem handsOver_matchMany {p : Pattern}
    (hp : ∀ {k : Groups → Cursor → Option α} {g c}, p.matchThen k g c = some r → p.HandsOver k g c r)
    {k : Groups → Cursor → Option α} (n : Nat) {g : Groups} {c : Cursor}
    (h : matchMany p.matchThen k n g c = some r) : (many p).HandsOver k g c r := by
  induction n generalizing g c with
  | zero => exact ⟨[], [], c.rest, rfl, .done, h⟩
  | succ n ih =>
    rcases eq_some_of_orElse h with h | h
    · exact (hp h).bind ih .again
    · exact ⟨[], [], c.rest, rfl, .done, h⟩

/-- The induction is on the pattern; what follows a part is handed to it as its continuation. -/
theorem handsOver_of_matchThen {p : Pattern} {k : Groups → Cursor → Option α} {g : Groups}
    {c : Cursor} (h : p.matchThen k g c = some r) : p.HandsOver k g c r := by
  induction p generalizing k g c with
  | nothing => exact ⟨[], [], c.rest, rfl, .nothing, h⟩
  | text s =>
    obtain ⟨rest, hrest, hk⟩ := Option.bind_eq_some_iff.mp h
    unfold after? at hrest
    split at hrest
    · next hs =>
      obtain ⟨rest', hc⟩ := List.isPrefixOf_iff_prefix.mp hs
      refine ⟨s, [], rest', hc.symm, .text, ?_⟩
      rw [← hc, List.drop_left] at hrest
      obtain rfl := Option.some.inj hrest
      exact hk
    · cases hrest
  | one cls =>
    unfold matchThen at h
    split at h
    · next x xs hc =>
      split at h
      · next hx => exact ⟨[x], [], xs, hc, .one hx, h⟩
      · cases h
    · cases h
  | most cls =>
    obtain ⟨s, rest, hc, hs, hk⟩ := exists_of_matchMost h
    exact ⟨s, [], rest, hc, .most hs, hk⟩
  | fewest cls =>
    obtain ⟨s, rest, hc, hs, hk⟩ := exists_of_matchFewest h
    exact ⟨s, [], rest, hc, .fewest hs, hk⟩
  | seq p q ihp ihq => exact (ihp h).bind ihq .seq
  | either p q ihp ihq =>
    rcases eq_some_of_orElse h with h | h
    · obtain ⟨s, g', rest, hrest, hs, hk⟩ := ihp h
      exact ⟨s, g', rest, hrest, .left hs, hk⟩
    · obtain ⟨s, g', rest, hrest, hs, hk⟩ := ihq h
      exact ⟨s, g', rest, hrest, .right hs, hk⟩
  | many p ih => exact handsOver_matchMany ih _ h
  | group i p ih =>
    obtain ⟨s, g', rest, hrest, hs, hk⟩ := ih h
    refine ⟨s, (i, s) :: g', rest, hrest, .group hs, ?_⟩
    rw [← hk, hrest]
    simp
  | wordEdge =>
    unfold matchThen at h
    split at h
    · next hedge => exact ⟨[], [], c.rest, rfl, .wordEdge hedge, h⟩
    · cases h

end

/-! ### Where there is a way, there is a match -/

section

variable {α : Type} {cls : Char → Bool}

/-- Whether the continuation succeeds does not hang on what has been captured. -/
def Blind (k : Groups → Cursor → Option α) : Prop :=
  ∀ g g' c, (k g c).isSome = true → (k g' c).isSome = true

theorem isSome_orElse {x y : Option α} : (x <|> y).isSome = true ↔ x.isSome = true ∨ y.isSome = true := by
  cases x <;> simp

theorem isSome_matchMost {k : Cursor → Option α} {seen s rest : Text} (hs : ∀ c ∈ s, cls c = true)
    (hk : (k ⟨s.reverse ++ seen, rest⟩).isSome = true) :
    (matchMost cls k seen (s ++ rest)).isSome = true := by
  induction s generalizing seen with
  | nil =>
    cases rest with
    | nil => exact hk
    | cons c cs =>
      rw [List.nil_append, matchMost]
      split
      · exact isSome_orElse.mpr (.inr hk)
      · exact hk
  | cons c s ih =>
    obtain ⟨hc, hs⟩ := List.forall_mem_cons.mp hs
    rw [List.cons_append, matchMost, if_pos hc]
    exact isSome_orElse.mpr (.inl (ih hs (by simpa using hk)))

theorem matchMost_eq {k : Cursor → Option α} {seen s rest : Text} {r : α} (hs : ∀ c ∈ s, cls c = true)
    (hrest : ∀ c ∈ rest.head?, cls c = false) (hk : k ⟨s.reverse ++ seen, rest⟩ = some r) :
    matchMost cls k seen (s ++ rest) = some r := by
  induction s generalizing seen with
  | nil =>
    cases rest with
    | nil => exact hk
    | cons c cs =>
      rw [List.nil_append, matchMost, hrest c rfl]
      exact hk
  | cons c s ih =>
    obtain ⟨hc, hs⟩ := List.forall_mem_cons.mp hs
    rw [List.cons_append, matchMost, if_pos hc, ih hs (by simpa using hk)]
    rfl

theorem isSome_matchFewest {k : Cursor → Option α} {seen s rest : Text} (hs : ∀ c ∈ s, cls c = true)
    (hk : (k ⟨s.reverse ++ seen, rest⟩).isSome = true) :
    (matchFewest cls k seen (s ++ rest)).isSome = true := by
  induction s generalizing seen with
  | nil =>
    cases rest with
    | nil => exact hk
    | cons c cs => exact isSome_orElse.mpr (.inl hk)
  | cons c s ih =>
    obtain ⟨hc, hs⟩ := List.forall_mem_cons.mp hs
    rw [List.cons_append, matchFewest, if_pos hc]
    exact isSome_orElse.mpr (.inr (ih hs (by simpa using hk)))

theorem Blind.matchMany {step : (Groups → Cursor → Option α) → Groups → Cursor → Option α}
    (hstep : ∀ {k}, Blind k → Blind (step k)) {k : Groups → Cursor → Option α} (hk : Blind k) (n : Nat) :
    Blind (Pattern.matchMany step k n) := by
  induction n with
  | zero => exact hk
  | succ n ih =>
    intro g g' c h
    rcases isSome_orElse.mp h with h | h
    · exact isSome_orElse.mpr (.inl (hstep ih g g' c h))
    · exact isSome_orElse.mpr (.inr (hk g g' c h))

theorem Blind.matchThen {k : Groups → Cursor → Option α} (hk : Blind k) (p : Pattern) :
    Blind (p.matchThen k) := by
  induction p generalizing k with
  | nothing => exact hk
  | text s =>
    intro g g' c h
    obtain ⟨r, hr⟩ := Option.isSome_iff_exists.mp h
    obtain ⟨rest, hrest, hk'⟩ := Option.bind_eq_some_iff.mp hr
    simp only [Pattern.matchThen, hrest, Option.bind_some]
    exact hk g g' _ (Option.isSome_iff_exists.mpr ⟨r, hk'⟩)
  | one cls =>
    intro g g' c h
    unfold Pattern.matchThen at h ⊢
    split at h
    · split at h
      · next hx => exact (if_pos hx).symm ▸ hk g g' _ h
      · cases h
    · cases h
  | most cls =>
    intro g g' c h
    obtain ⟨r, hr⟩ := Option.isSome_iff_exists.mp h
    obtain ⟨s, rest, hc, hs, hk'⟩ := exists_of_matchMost hr
    rw [Pattern.matchThen, hc]
    exact isSome_matchMost hs (hk g g' _ (Option.isSome_iff_exists.mpr ⟨r, hk'⟩))
  | fewest cls =>
    intro g g' c h
    obtain ⟨r, hr⟩ := Option.isSome_iff_exists.mp h
    obtain ⟨s, rest, hc, hs, hk'⟩ := exists_of_matchFewest hr
    rw [Pattern.matchThen, hc]
    exact isSome_matchFewest hs (hk g g' _ (Option.isSome_iff_exists.mpr ⟨r, hk'⟩))
  | seq p q ihp ihq => exact ihp (ihq hk)
  | either p q ihp ihq =>
    intro g g' c h
    rcases isSome_orElse.mp h with h | h
    · exact isSome_orElse.mpr (.inl (ihp hk g g' c h))
    · exact isSome_orElse.mpr (.inr (ihq hk g g' c h))
  | many p ih => exact fun g g' c h => Blind.matchMany (fun hk => ih hk) hk _ g g' c h
  | group i p ih => exact fun g g' c h => ih (fun g g' c' h => hk _ _ c' h) g g' c h
  | wordEdge =>
    intro g g' c h
    unfold Pattern.matchThen at h ⊢
    split at h
    · next hedge => exact (if_pos hedge).symm ▸ hk g g' c h
    · cases h

/-- A continuation succeeds at the end of a way, so it succeeds after the pattern. -/
def Reaches (p : Pattern) : Prop :=
  ∀ {α : Type} {k : Groups → Cursor → Option α}, Blind k → ∀ {seen s rest : Text} {g g₀ : Groups},
    Way p seen s rest g → (k g₀ ⟨s.reverse ++ seen, rest⟩).isSome = true →
      (p.matchThen k g₀ ⟨seen, s ++ rest⟩).isSome = true

private theorem isSome_matchMany {p : Pattern} (hp : Reaches p) {k : Groups → Cursor → Option α}
    (hk : Blind k) {n : Nat} {seen s rest : Text} {g g₀ : Groups} (hn : s.length ≤ n)
    (hw : Way (many p) seen s rest g) (hend : (k g₀ ⟨s.reverse ++ seen, rest⟩).isSome = true) :
    (matchMany p.matchThen k n g₀ ⟨seen, s ++ rest⟩).isSome = true := by
  generalize hq : many p = q at hw
  induction hw generalizing n with
  | @done p' seen rest =>
    cases n with
    | zero => exact hend
    | succ n => exact isSome_orElse.mpr (.inr hend)
  | @again p' s t seen rest g h hs ht _ iht =>
    obtain rfl := Pattern.many.inj hq
    rw [List.reverse_append, List.append_assoc] at hend
    cases s with
    | nil => exact iht hn hend rfl
    | cons c s =>
      rw [List.length_append, List.length_cons] at hn
      obtain ⟨n, rfl⟩ : ∃ m, n = m + 1 := ⟨n - 1, by omega⟩
      rw [List.append_assoc]
      refine isSome_orElse.mpr (.inl (hp (.matchMany (fun hk => hk.matchThen p) hk n) hs ?_))
      exact iht (by omega) hend rfl
  | _ => cases hq

theorem reaches (p : Pattern) : Reaches p := by
  induction p with
  | nothing =>
    intro α k hk seen s rest g g₀ hw hend
    cases hw
    exact hend
  | text s =>
    intro α k hk seen s rest g g₀ hw hend
    cases hw
    simpa [matchThen, after?] using hend
  | one cls =>
    intro α k hk seen s rest g g₀ hw hend
    cases hw with
    | one h => simpa [matchThen, h] using hend
  | most cls =>
    intro α k hk seen s rest g g₀ hw hend
    cases hw with
    | most h => exact isSome_matchMost h hend
  | fewest cls =>
    intro α k hk seen s rest g g₀ hw hend
    cases hw with
    | fewest h => exact isSome_matchFewest h hend
  | seq p q ihp ihq =>
    intro α k hk seen s rest g g₀ hw hend
    cases hw with
    | seq hp hq =>
      rw [List.append_assoc]
      exact ihp (hk.matchThen q) hp (ihq hk hq (by simpa using hend))
  | either p q ihp ihq =>
    intro α k hk seen s rest g g₀ hw hend
    cases hw with
    | left hp => exact isSome_orElse.mpr (.inl (ihp hk hp hend))
    | right hq => exact isSome_orElse.mpr (.inr (ihq hk hq hend))
  | many p ih =>
    intro α k hk seen s rest g g₀ hw hend
    exact isSome_matchMany ih hk (by simp) hw hend
  | group i p ih =>
    intro α k hk seen s rest g g₀ hw hend
    cases hw with
    | group hp => exact ih (fun g g' c h => hk _ _ c h) hp (hk _ _ _ hend)
  | wordEdge =>
    intro α k hk seen s rest g g₀ hw hend
    cases hw with
    | wordEdge h => simpa [matchThen, h] using hend

end

/-! ### Whole texts, beginnings and places -/

/-- The match of a whole text is a way of reading it. -/
theorem way_of_whole? {p : Pattern} {s : Text} {m : Match} (h : p.whole? s = some m) :
    Way p [] s [] m.groups := by
  obtain ⟨t, g, rest, hrest, ht, hk⟩ := handsOver_of_matchThen h
  dsimp only at hrest hk
  split at hk
  · next hempty =>
    obtain rfl := List.isEmpty_iff.mp hempty
    obtain rfl := Option.some.inj hk
    simpa [hrest] using ht
  · cases hk

theorem exists_whole? {p : Pattern} {s : Text} {g : Groups} (h : Way p [] s [] g) :
    ∃ m, p.whole? s = some m := by
  have hblind : Blind fun g c => if c.rest.isEmpty then some (⟨[], s, g⟩ : Match) else none := by
    intro g g' c h
    dsimp only at h ⊢
    split at h
    · next hempty => rw [if_pos hempty, Option.isSome_some]
    · cases h
  have hmatch := @reaches p _ _ hblind _ _ _ _ [] h (by simp)
  rw [List.append_nil] at hmatch
  exact Option.isSome_iff_exists.mp hmatch

/-- The match at a cursor is a way of reading the text ahead up to some place. -/
theorem way_of_at? {p : Pattern} {c : Cursor} {m : Match} (h : p.at? c = some m) :
    ∃ rest, c.rest = m.text ++ rest ∧ Way p c.seen m.text rest m.groups ∧ m.seen = c.seen := by
  obtain ⟨t, g, rest, hrest, ht, hk⟩ := handsOver_of_matchThen h
  obtain rfl := Option.some.inj hk
  refine ⟨rest, ?_, ?_, rfl⟩
  · simp [hrest]
  · simpa [hrest] using ht

theorem exists_at? {p : Pattern} {seen s rest : Text} {g : Groups} (h : Way p seen s rest g) :
    ∃ m, p.at? ⟨seen, s ++ rest⟩ = some m :=
  Option.isSome_iff_exists.mp (reaches p (fun _ _ _ _ => rfl) h rfl)

/-- The match at the beginning of a text. -/
theorem way_of_lead? {p : Pattern} {s : Text} {m : Match} (h : p.lead? s = some m) :
    ∃ rest, s = m.text ++ rest ∧ Way p [] m.text rest m.groups := by
  obtain ⟨rest, hrest, hway, _⟩ := way_of_at? h
  exact ⟨rest, hrest, hway⟩

theorem exists_lead? {p : Pattern} {s rest : Text} {g : Groups} (h : Way p [] s rest g) :
    ∃ m, p.lead? (s ++ rest) = some m :=
  exists_at? h

end Pseudocode.Pattern
