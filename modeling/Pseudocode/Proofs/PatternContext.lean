import Pseudocode.Proofs.FormulaSpelling

/-! # Patterns in a part of a text

A part of a text is matched as if it stood alone if no match can leave it. Here the part is followed by some
text that a pattern may begin to read, but not to the end of a match, and then by a character that it never
reads. -/

namespace Pseudocode

open Text Pattern

/-- The whole text of a cursor. -/
def Cursor.text (c : Cursor) : Text := c.seen.reverse ++ c.rest

/-- A cursor of a part, as a cursor of the text around it. -/
def Cursor.inside (c : Cursor) (before after : Text) : Cursor := ⟨c.seen ++ before, c.rest ++ after⟩

/-- A match in a part, as a match in the text around it. -/
def Match.inside (m : Match) (before : Text) : Match := { m with seen := m.seen ++ before }

namespace Pattern

/-- No pattern is repeated; single characters may be. -/
def isFlat : Pattern → Bool
  | seq p q => p.isFlat && q.isFlat
  | either p q => p.isFlat && q.isFlat
  | group _ p => p.isFlat
  | many _ => false
  | _ => true

variable {α β : Type}

/-- Going on in a part of a text and in the text around it has the same result, and fails where `near` has been
entered. -/
structure Agree (part before near far : Text) (φ : α → β) (k : Groups → Cursor → Option α)
    (k' : Groups → Cursor → Option β) : Prop where
  same : ∀ g c, c.text = part → k' g (c.inside before (near ++ far)) = (k g c).map φ
  fails : ∀ x y, near = x ++ y → x ≠ [] → ∀ g seen, k' g ⟨seen, y ++ far⟩ = none

section

variable {part before near far : Text} {φ : α → β} {k : Groups → Cursor → Option α}
  {k' : Groups → Cursor → Option β} {p : Pattern}

theorem orElse_none (x : Option α) : (x <|> none) = x := by
  cases x <;> rfl

/-- A prefix without the first character of `far` ends in `near`. -/
theorem exists_of_prefix {s t near far : Text} (h : near ++ far = s ++ t) (hs : ∀ d ∈ far.head?, d ∉ s) :
    ∃ y, near = s ++ y ∧ t = y ++ far := by
  rcases List.append_eq_append_iff.mp h with ⟨r, rfl, hr⟩ | ⟨y, rfl, rfl⟩
  · cases r with
    | nil => exact ⟨[], by simp, by simpa using hr.symm⟩
    | cons d r => exact absurd (by simp) (hs d (by simp [hr]))
  · exact ⟨y, rfl, rfl⟩

theorem Agree.fails_matchThen (h : Agree part before near far φ k k') (hfar : ∀ d ∈ far.head?, p.avoids d = true)
    {x y : Text} (hnear : near = x ++ y) (hx : x ≠ []) (g : Groups) (seen : Text) :
    p.matchThen k' g ⟨seen, y ++ far⟩ = none := by
  by_contra hne
  obtain ⟨r, hr⟩ := Option.ne_none_iff_exists'.mp hne
  obtain ⟨s, _, t, hrest, hway, hk⟩ := handsOver_of_matchThen hr
  obtain ⟨y', rfl, rfl⟩ := exists_of_prefix hrest fun d hd => hway.reads.avoids (hfar d hd)
  rw [h.fails (x ++ s) y' (by rw [hnear, List.append_assoc]) (by simp [hx])] at hk
  cases hk

theorem isWordEdge_inside (hbefore : before.head?.any isWordChar = false)
    (hafter : (near ++ far).head?.any isWordChar = false) (c : Cursor) :
    isWordEdge (c.inside before (near ++ far)) = isWordEdge c := by
  have hhead (s t : Text) (ht : t.head?.any isWordChar = false) :
      (s ++ t).head?.any isWordChar = s.head?.any isWordChar := by
    cases s with
    | nil => exact ht
    | cons => rfl
  rw [isWordEdge, Cursor.inside, hhead _ _ hbefore, hhead _ _ hafter]
  rfl

theorem take_inside (s t after : Text) :
    (s ++ after).take ((s ++ after).length - (t ++ after).length) = s.take (s.length - t.length) := by
  rw [List.length_append, List.length_append, Nat.add_sub_add_right, List.take_append_of_le_length (Nat.sub_le _ _)]

theorem Agree.matchMost {cls : Char → Bool} (h : Agree part before near far φ k k')
    (hfar : ∀ d ∈ far.head?, cls d = false) (g : Groups) {seen rest : Text} (hpart : seen.reverse ++ rest = part) :
    Pattern.matchMost cls (k' g) (seen ++ before) (rest ++ (near ++ far)) =
      (Pattern.matchMost cls (k g) seen rest).map φ := by
  induction rest generalizing seen with
  | nil =>
    have hstop := h.same g ⟨seen, []⟩ hpart
    rw [Pattern.matchMost, ← hstop]
    cases near with
    | nil =>
      cases far with
      | nil => rfl
      | cons d far =>
        rw [List.nil_append, List.nil_append, Pattern.matchMost, if_neg (by simp [hfar d rfl])]
        rfl
    | cons e near =>
      rw [List.nil_append, List.cons_append, Pattern.matchMost]
      have hfails := h.fails_matchThen (p := .most cls) (x := [e]) (y := near)
        (fun d hd => by simpa [Pattern.avoids] using hfar d hd) rfl (by simp) g (e :: (seen ++ before))
      rw [Pattern.matchThen] at hfails
      rw [hfails]
      split <;> rfl
  | cons e rest ih =>
    have hpart' : (e :: seen).reverse ++ rest = part := by simpa using hpart
    have hnext := ih hpart'
    have hstop := h.same g ⟨seen, e :: rest⟩ hpart
    rw [List.cons_append] at hnext
    rw [List.cons_append, Pattern.matchMost, Pattern.matchMost]
    split
    · rw [hnext, show k' g ⟨seen ++ before, e :: (rest ++ (near ++ far))⟩ = _ from hstop]
      cases Pattern.matchMost cls (k g) (e :: seen) rest <;> rfl
    · exact hstop

theorem Agree.matchFewest {cls : Char → Bool} (h : Agree part before near far φ k k')
    (hfar : ∀ d ∈ far.head?, cls d = false) (g : Groups) {seen rest : Text} (hpart : seen.reverse ++ rest = part) :
    Pattern.matchFewest cls (k' g) (seen ++ before) (rest ++ (near ++ far)) =
      (Pattern.matchFewest cls (k g) seen rest).map φ := by
  induction rest generalizing seen with
  | nil =>
    have hstop := h.same g ⟨seen, []⟩ hpart
    rw [Pattern.matchFewest, ← hstop]
    cases near with
    | nil =>
      cases far with
      | nil => rfl
      | cons d far =>
        rw [List.nil_append, List.nil_append, Pattern.matchFewest, if_neg (by simp [hfar d rfl])]
        exact orElse_none _
    | cons e near =>
      rw [List.nil_append, List.cons_append, Pattern.matchFewest]
      have hfails := h.fails_matchThen (p := .fewest cls) (x := [e]) (y := near)
        (fun d hd => by simpa [Pattern.avoids] using hfar d hd) rfl (by simp) g (e :: (seen ++ before))
      rw [Pattern.matchThen] at hfails
      rw [hfails, ite_self]
      exact orElse_none _
  | cons e rest ih =>
    have hpart' : (e :: seen).reverse ++ rest = part := by simpa using hpart
    have hnext := ih hpart'
    have hstop := h.same g ⟨seen, e :: rest⟩ hpart
    rw [List.cons_append] at hnext
    rw [List.cons_append, Pattern.matchFewest, Pattern.matchFewest, hnext,
      show k' g ⟨seen ++ before, e :: (rest ++ (near ++ far))⟩ = _ from hstop]
    cases k g ⟨seen, e :: rest⟩ with
    | none => split <;> rfl
    | some => rfl

theorem Agree.exists_way (h : Agree part before near far φ k k') (hfar : ∀ d ∈ far.head?, p.avoids d = true)
    {g : Groups} {c : Cursor} {r : β} (hr : p.matchThen k' g (c.inside before (near ++ far)) = some r) :
    ∃ s t g', c.rest = s ++ t ∧ Way p (c.seen ++ before) s (t ++ (near ++ far)) g' := by
  obtain ⟨s, g', t, hrest, hway, hk⟩ := handsOver_of_matchThen hr
  have hrest : c.rest ++ (near ++ far) = s ++ t := hrest
  have hway : Way p (c.seen ++ before) s t g' := hway
  rcases List.append_eq_append_iff.mp hrest with ⟨x, rfl, hnear⟩ | ⟨x, hx, rfl⟩
  · have havoids : ∀ d ∈ far.head?, d ∉ x := fun d hd hmem =>
      hway.reads.avoids (hfar d hd) (List.mem_append_right _ hmem)
    obtain ⟨y, hy, rfl⟩ := exists_of_prefix hnear havoids
    cases x with
    | nil =>
      rw [List.nil_append] at hy
      exact ⟨c.rest, [], g', by simp, by simpa [hy] using hway⟩
    | cons e x =>
      rw [h.fails (e :: x) y hy (List.cons_ne_nil e x)] at hk
      cases hk
  · exact ⟨s, x, g', hx, hway⟩

private theorem Agree.matchText {s : Text} (h : Agree part before near far φ k k')
    (hfar : ∀ d ∈ far.head?, (Pattern.text s).avoids d = true) (g : Groups) {c : Cursor} (hc : c.text = part) :
    (Pattern.text s).matchThen k' g (c.inside before (near ++ far)) = ((Pattern.text s).matchThen k g c).map φ := by
  by_cases hs : s <+: c.rest
  · obtain ⟨r, hr⟩ := hs
    have hcursor : Cursor.text ⟨s.reverse ++ c.seen, r⟩ = part := by
      rw [← hc, Cursor.text, Cursor.text, ← hr]
      simp
    have hnext := h.same g _ hcursor
    simpa [Pattern.matchThen, after?, Cursor.inside, ← hr] using hnext
  · have hlocal : (Pattern.text s).matchThen k g c = none := by
      simp [Pattern.matchThen, after?, hs]
    rw [hlocal, Option.map_none]
    by_contra hne
    obtain ⟨r, hr⟩ := Option.ne_none_iff_exists'.mp hne
    obtain ⟨_, t, _, hrest, hway⟩ := h.exists_way hfar hr
    obtain ⟨rfl, -⟩ := way_text.mp hway
    exact hs ⟨t, hrest.symm⟩

private theorem Agree.matchOne {cls : Char → Bool} (h : Agree part before near far φ k k')
    (hfar : ∀ d ∈ far.head?, (Pattern.one cls).avoids d = true) (g : Groups) {c : Cursor} (hc : c.text = part) :
    (Pattern.one cls).matchThen k' g (c.inside before (near ++ far)) = ((Pattern.one cls).matchThen k g c).map φ := by
  obtain ⟨seen, rest⟩ := c
  cases rest with
  | nil =>
    by_contra hne
    obtain ⟨r, hr⟩ := Option.ne_none_iff_exists'.mp hne
    obtain ⟨s, t, _, hrest, hway⟩ := h.exists_way hfar hr
    obtain ⟨rfl, rfl⟩ := List.nil_eq_append_iff.mp hrest
    cases hway
  | cons e rest =>
    have hnext := h.same g ⟨e :: seen, rest⟩ (by simpa [Cursor.text] using hc)
    rw [Pattern.matchThen, Pattern.matchThen]
    simp only [Cursor.inside, List.cons_append] at hnext ⊢
    rw [hnext]
    split <;> rfl

/-- What agrees still does after a pattern. The induction is on the pattern; what follows a part of it is handed
to it as its continuation. -/
theorem Agree.matchThen (hp : p.isFlat = true) (h : Agree part before near far φ k k')
    (hfar : ∀ d ∈ far.head?, p.avoids d = true) (hbefore : before.head?.any isWordChar = false)
    (hafter : (near ++ far).head?.any isWordChar = false) :
    Agree part before near far φ (p.matchThen k) (p.matchThen k') := by
  refine ⟨?_, fun x y hnear hx g seen => h.fails_matchThen hfar hnear hx g seen⟩
  induction p generalizing k k' with
  | nothing => exact h.same
  | text s =>
    intro g c hc
    exact h.matchText hfar g hc
  | one cls =>
    intro g c hc
    exact h.matchOne hfar g hc
  | most cls =>
    intro g c hc
    exact h.matchMost (fun d hd => by simpa [Pattern.avoids] using hfar d hd) g hc
  | fewest cls =>
    intro g c hc
    exact h.matchFewest (fun d hd => by simpa [Pattern.avoids] using hfar d hd) g hc
  | seq p q ihp ihq =>
    obtain ⟨hflat, hflat'⟩ := Bool.and_eq_true_iff.mp hp
    have hq : ∀ d ∈ far.head?, q.avoids d = true := fun d hd => (Bool.and_eq_true_iff.mp (hfar d hd)).2
    exact ihp hflat ⟨ihq hflat' h hq, fun x y hnear hx g seen => h.fails_matchThen hq hnear hx g seen⟩
      fun d hd => (Bool.and_eq_true_iff.mp (hfar d hd)).1
  | either p q ihp ihq =>
    intro g c hc
    obtain ⟨hflat, hflat'⟩ := Bool.and_eq_true_iff.mp hp
    have hleft := ihp hflat h (fun d hd => (Bool.and_eq_true_iff.mp (hfar d hd)).1) g c hc
    have hright := ihq hflat' h (fun d hd => (Bool.and_eq_true_iff.mp (hfar d hd)).2) g c hc
    rw [Pattern.matchThen, Pattern.matchThen, hleft, hright]
    cases p.matchThen k g c <;> rfl
  | many p => cases hp
  | group i p ih =>
    intro g c hc
    refine ih (k := fun g' c' => k ((i, c.rest.take (c.rest.length - c'.rest.length)) :: g') c') hp ⟨?_, ?_⟩ hfar g c hc
    · intro g' c' hc'
      rw [← h.same _ c' hc']
      simp only [Cursor.inside, take_inside]
    · exact fun x y hnear hx g seen => h.fails x y hnear hx _ seen
  | wordEdge =>
    intro g c hc
    rw [Pattern.matchThen, Pattern.matchThen, isWordEdge_inside hbefore hafter, h.same g c hc]
    split <;> rfl

theorem matchMost_inside {cls : Char → Bool} {after : Text} {k : Cursor → Option α} {k' : Cursor → Option β}
    (hk : ∀ c, c.text = part → k' (c.inside before after) = (k c).map φ) {seen rest : Text}
    (hpart : seen.reverse ++ rest = part) (hstop : ∃ c ∈ rest, cls c = false) :
    Pattern.matchMost cls k' (seen ++ before) (rest ++ after) = (Pattern.matchMost cls k seen rest).map φ := by
  induction rest generalizing seen with
  | nil =>
    obtain ⟨c, hc, -⟩ := hstop
    cases hc
  | cons e rest ih =>
    have hhere := hk ⟨seen, e :: rest⟩ hpart
    rw [List.cons_append, Pattern.matchMost, Pattern.matchMost]
    split
    · next he =>
      have hlater : ∃ c ∈ rest, cls c = false := by
        obtain ⟨c, hc, hcls⟩ := hstop
        rcases List.mem_cons.mp hc with rfl | hc
        · simp [he] at hcls
        · exact ⟨c, hc, hcls⟩
      have hpart' : (e :: seen).reverse ++ rest = part := by simpa using hpart
      have hnext := ih hpart' hlater
      rw [List.cons_append] at hnext
      rw [hnext, show k' ⟨seen ++ before, e :: (rest ++ after)⟩ = _ from hhere]
      cases Pattern.matchMost cls k (e :: seen) rest <;> rfl
    · exact hhere

theorem matchThen_most1_inside {cls : Char → Bool} {after : Text} {i : Nat}
    (hk : ∀ g c, c.text = part → k' g (c.inside before after) = (k g c).map φ) {c : Cursor} (hc : c.text = part)
    (hstop : ∃ d ∈ c.rest, cls d = false) (g : Groups) :
    (group i (most1 cls)).matchThen k' g (c.inside before after) =
      ((group i (most1 cls)).matchThen k g c).map φ := by
  obtain ⟨seen, rest⟩ := c
  cases rest with
  | nil => simp at hstop
  | cons e rest =>
    simp only [most1, Pattern.matchThen, Cursor.inside, List.cons_append]
    split
    · next he =>
      have hlater : ∃ d ∈ rest, cls d = false := by
        obtain ⟨d, hd, hcls⟩ := hstop
        rcases List.mem_cons.mp hd with rfl | hd
        · exact absurd (he.symm.trans hcls) (by decide)
        · exact ⟨d, hd, hcls⟩
      have hpart : (e :: seen).reverse ++ rest = part := by simpa [Cursor.text] using hc
      refine matchMost_inside (fun c' hc' => ?_) hpart hlater
      rw [← hk _ c' hc']
      simp only [Cursor.inside, ← List.cons_append, take_inside]
    · rfl

end

/-! ### Replacing in a part -/

section

variable {p : Pattern} {f : Match → Text} {part before after : Text}

/-- The match at a place of a part is the one in the text around it. -/
def MatchesInside (p : Pattern) (part before after : Text) : Prop :=
  ∀ c, c.text = part → c.rest ≠ [] → p.at? (c.inside before after) = (p.at? c).map (·.inside before)

/-- The part is replaced as if it stood alone. -/
theorem MatchesInside.rewrites (h : MatchesInside p part before after)
    (hf : ∀ m s, m.seen.reverse ++ (m.text ++ s) = part → f (m.inside before) = f m) :
    Rewrites p f before part (p.replace f part) after := by
  have hfrom (seen rest : Text) (hpart : seen.reverse ++ rest = part) :
      p.replaceFrom f 0 (seen ++ before) (rest ++ after) =
        p.replaceFrom f 0 seen rest ++ p.replaceFrom f 0 (part.reverse ++ before) after := by
    induction hn : rest.length using Nat.strongRecOn generalizing seen rest with
    | _ n ih =>
      subst hn
      cases rest with
      | nil => rw [← hpart]; simp
      | cons c rest =>
        have hat := h ⟨seen, c :: rest⟩ hpart (List.cons_ne_nil _ _)
        rcases replaceFrom_cases p f seen c rest with ⟨m, r, hm, hrest, hne, hseen, _, hreplace⟩ | ⟨hnone, hkeep⟩
        · rw [hm, Option.map_some, Cursor.inside, hrest, List.append_assoc] at hat
          have hlength : r.length < (c :: rest).length := by
            have hpos := List.length_pos_iff.mpr hne
            rw [hrest, List.length_append]
            omega
          have hpart' : m.seen.reverse ++ (m.text ++ r) = part := by rw [hseen, ← hrest, hpart]
          have hafter := ih _ hlength (m.text.reverse ++ seen) r (by rw [← hpart', hseen]; simp) rfl
          rw [hreplace, hrest, List.append_assoc, replaceFrom_of_match hat rfl hne, hf m r hpart']
          rw [List.append_assoc] at hafter
          rw [hafter, List.append_assoc]
        · have hafter := ih rest.length (by simp) (c :: seen) rest (by simpa using hpart) rfl
          rw [hkeep, List.cons_append, List.cons_append, ← hafter]
          refine replaceFrom_of_no_match fun m' hm' => ?_
          rw [show p.at? ⟨seen ++ before, c :: (rest ++ after)⟩ = _ from hat] at hm'
          obtain ⟨m, hm, rfl⟩ := Option.map_eq_some_iff.mp hm'
          exact hnone m hm
  simpa [Rewrites, replace] using hfrom [] part rfl

/-- A match that began at one cursor ends at another. -/
def ending (c : Cursor) (g : Groups) (c' : Cursor) : Option Match :=
  some ⟨c.seen, c.rest.take (c.rest.length - c'.rest.length), g⟩

theorem ending_inside (c c' : Cursor) (g : Groups) :
    ending (c.inside before after) g (c'.inside before after) = (ending c g c').map (·.inside before) := by
  simp only [ending, Cursor.inside, take_inside, Option.map_some, Match.inside]

/-- A pattern that does not read the next character is matched in the part alone. -/
theorem matchesInside_of_avoids (hp : p.isFlat = true) (hafter : ∀ d ∈ after.head?, p.avoids d = true)
    (hbefore : before.head?.any isWordChar = false) (hword : after.head?.any isWordChar = false) :
    MatchesInside p part before after := by
  intro c hc _
  have hagree : Agree part before [] after (·.inside before) (ending c) (ending (c.inside before after)) :=
    ⟨fun g c' _ => ending_inside c c' g, fun x y hxy hx => by simp [hx] at hxy⟩
  exact (hagree.matchThen hp hafter hbefore hword).same [] c hc

theorem matchesInside_seq {q r : Pattern} {near far : Text} (hq : q.isFlat = true) (hr : r.isFlat = true)
    (hfar : ∀ d ∈ far.head?, q.avoids d = true) (hnear : ∀ d ∈ (near ++ far).head?, r.avoids d = true)
    (hfails : ∀ x y, near = x ++ y → x ≠ [] → ∀ d ∈ (y ++ far).head?, r.canBegin d = false)
    (hempty : r.canBeEmpty = false) (hbefore : before.head?.any isWordChar = false)
    (hword : (near ++ far).head?.any isWordChar = false) :
    MatchesInside (q ++ r) part before (near ++ far) := by
  intro c hc _
  have hagree : Agree part before [] (near ++ far) (·.inside before) (ending c)
      (ending (c.inside before (near ++ far))) :=
    ⟨fun g c' _ => ending_inside c c' g, fun x y hxy hx => by simp [hx] at hxy⟩
  have hlast : Agree part before near far (·.inside before) (r.matchThen (ending c))
      (r.matchThen (ending (c.inside before (near ++ far)))) := by
    refine ⟨(hagree.matchThen hr hnear hbefore hword).same, fun x y hxy hx g seen => ?_⟩
    by_contra hne
    obtain ⟨m, hm⟩ := Option.ne_none_iff_exists'.mp hne
    obtain ⟨s, _, t, hrest, hway, _⟩ := handsOver_of_matchThen hm
    cases s with
    | nil => simp [hway.reads.canBeEmpty rfl] at hempty
    | cons d s =>
      have hbegin := hfails x y hxy hx d (by simp [show y ++ far = _ from hrest])
      simp [hway.reads.canBegin rfl] at hbegin
  exact (hlast.matchThen hq hfar hbefore hword).same [] c hc

end

end Pattern

end Pseudocode
