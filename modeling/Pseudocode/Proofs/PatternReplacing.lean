import Pseudocode.Proofs.PatternReading

/-! # Replacing matches

A text is read from left to right; where a match begins, it is replaced and passed over, and every other
character stays. So a text in which nothing matches stays as it is, and so does a part of a text that no
match touches. -/

namespace Pseudocode.Pattern

open Text

variable {p : Pattern} {f : Match → Text}

/-! ### One step -/

private theorem replaceFrom_skip (p : Pattern) (f : Match → Text) (n : Nat) (seen s : Text) :
    p.replaceFrom f n seen s = p.replaceFrom f 0 ((s.take n).reverse ++ seen) (s.drop n) := by
  induction n generalizing seen s with
  | zero => rfl
  | succ n ih =>
    cases s with
    | nil => rfl
    | cons c cs => simpa [replaceFrom] using ih (c :: seen) cs

@[simp] theorem replaceFrom_nil (p : Pattern) (f : Match → Text) (n : Nat) (seen : Text) :
    p.replaceFrom f n seen [] = [] := by
  cases n <;> rfl

/-- A match is replaced, and reading goes on after it. -/
theorem replaceFrom_of_match {seen s rest : Text} {m : Match} (h : p.at? ⟨seen, s ++ rest⟩ = some m)
    (hs : m.text = s) (hne : s ≠ []) :
    p.replaceFrom f 0 seen (s ++ rest) = f m ++ p.replaceFrom f 0 (s.reverse ++ seen) rest := by
  cases s with
  | nil => exact absurd rfl hne
  | cons c cs =>
    have hempty : m.text.isEmpty = false := by rw [hs]; rfl
    rw [List.cons_append] at h ⊢
    rw [replaceFrom, h]
    simp only [hempty, Bool.false_eq_true, if_false]
    rw [hs, replaceFrom_skip]
    simp

/-- Where no match begins, or only an empty one, a character stays. -/
theorem replaceFrom_of_no_match {seen cs : Text} {c : Char}
    (h : ∀ m, p.at? ⟨seen, c :: cs⟩ = some m → m.text = []) :
    p.replaceFrom f 0 seen (c :: cs) = c :: p.replaceFrom f 0 (c :: seen) cs := by
  rw [replaceFrom]
  cases hm : p.at? ⟨seen, c :: cs⟩ with
  | none => rfl
  | some m => simp [h m hm]

/-- What happens at a character: a way of the pattern is taken, or there is none and the character
stays. -/
theorem replaceFrom_cases (p : Pattern) (f : Match → Text) (seen : Text) (c : Char) (cs : Text) :
    (∃ m rest, p.at? ⟨seen, c :: cs⟩ = some m ∧ c :: cs = m.text ++ rest ∧ m.text ≠ [] ∧
      m.seen = seen ∧ Way p seen m.text rest m.groups ∧
      p.replaceFrom f 0 seen (c :: cs) = f m ++ p.replaceFrom f 0 (m.text.reverse ++ seen) rest) ∨
    (∀ m, p.at? ⟨seen, c :: cs⟩ = some m → m.text = []) ∧
      p.replaceFrom f 0 seen (c :: cs) = c :: p.replaceFrom f 0 (c :: seen) cs := by
  cases hm : p.at? ⟨seen, c :: cs⟩ with
  | none => exact .inr ⟨by simp, replaceFrom_of_no_match (by simp [hm])⟩
  | some m =>
    by_cases hne : m.text = []
    · refine .inr ⟨by simpa using hne, replaceFrom_of_no_match ?_⟩
      intro m' hm'
      rw [hm] at hm'
      obtain rfl := Option.some.inj hm'
      exact hne
    · obtain ⟨rest, hrest, hway, hseen⟩ := way_of_at? hm
      dsimp only at hrest hway hseen
      refine .inl ⟨m, rest, rfl, hrest, hne, hseen, hway, ?_⟩
      rw [hrest] at hm ⊢
      exact replaceFrom_of_match hm rfl hne

theorem mem_of_mem_replaceFrom {n : Nat} {seen s : Text} {c : Char} (h : c ∈ p.replaceFrom f n seen s) :
    c ∈ s ∨ ∃ m, c ∈ f m := by
  induction s generalizing n seen with
  | nil => simp at h
  | cons d s ih =>
    have hkept {seen : Text} (h : c ∈ d :: p.replaceFrom f 0 seen s) : c ∈ d :: s ∨ ∃ m, c ∈ f m := by
      rcases List.mem_cons.mp h with rfl | h
      · exact .inl List.mem_cons_self
      · exact (ih h).imp_left (List.mem_cons_of_mem d)
    cases n with
    | succ n => exact (ih h).imp_left (List.mem_cons_of_mem d)
    | zero =>
      rw [replaceFrom] at h
      split at h
      · next m _ =>
        split at h
        · exact hkept h
        · rcases List.mem_append.mp h with h | h
          · exact .inr ⟨m, h⟩
          · exact (ih h).imp_left (List.mem_cons_of_mem d)
      · exact hkept h

/-! ### Texts without matches -/

/-- Nothing matches in a text, so it stays. -/
theorem replace_of_no_match {s : Text}
    (h : ∀ seen t rest g, s = seen.reverse ++ (t ++ rest) → Way p seen t rest g → t = []) :
    p.replace f s = s := by
  have hfrom (seen rest : Text) (hs : s = seen.reverse ++ rest) : p.replaceFrom f 0 seen rest = rest := by
    induction rest generalizing seen with
    | nil => exact replaceFrom_nil ..
    | cons c cs ih =>
      have hcs := ih (c :: seen) (by simpa using hs)
      rcases replaceFrom_cases p f seen c cs with ⟨m, rest, _, hrest, hne, _, hway, _⟩ | ⟨_, hkeep⟩
      · exact absurd (h seen m.text rest m.groups (by rw [hs, hrest]) hway) hne
      · rw [hkeep, hcs]
  exact hfrom [] s rfl

/-- Whether every reading has a character of a class. -/
def needs (cls : Char → Bool) : Pattern → Bool
  | text s => s.any cls
  | seq p q => p.needs cls || q.needs cls
  | either p q => p.needs cls && q.needs cls
  | group _ p => p.needs cls
  | _ => false

private theorem Reads.needs {s : Text} {g : Groups} (h : Reads p s g) {cls : Char → Bool}
    (hp : p.needs cls = true) : ∃ c ∈ s, cls c = true := by
  induction h with
  | nothing | one | most | fewest | done | again | wordEdge => cases hp
  | text s => simpa [Pattern.needs] using hp
  | seq _ _ ihp ihq =>
    rcases Bool.or_eq_true_iff.mp hp with hp | hq
    · obtain ⟨c, hc, hcls⟩ := ihp hp
      exact ⟨c, List.mem_append_left _ hc, hcls⟩
    · obtain ⟨c, hc, hcls⟩ := ihq hq
      exact ⟨c, List.mem_append_right _ hc, hcls⟩
  | left q _ ih => exact ih (Bool.and_eq_true_iff.mp hp).1
  | right p _ ih => exact ih (Bool.and_eq_true_iff.mp hp).2
  | group i _ ih => exact ih hp

/-- A text without the characters that a pattern needs stays as it is. -/
theorem replace_of_needs {q : Char → Bool} (hp : p.needs q = true) {s : Text}
    (hs : ∀ c ∈ s, q c = false) : p.replace f s = s := by
  refine replace_of_no_match fun seen t rest g heq hway => ?_
  obtain ⟨c, hc, hq⟩ := hway.reads.needs hp
  rw [hs c (by rw [heq]; simp [hc])] at hq
  cases hq

/-! ### Whole texts -/

/-- What holds of each step of replacing holds of the whole. The relation says what may stand in place of the
rest of a text after a part that was read. -/
theorem replace_induction {R : Text → Text → Text → Prop} {s : Text} (nil : ∀ a, R a [] [])
    (keep : ∀ a c t u, R (a ++ [c]) t u → R a (c :: t) (c :: u))
    (swap : ∀ a t b g u, s = a ++ (t ++ b) → Way p a.reverse t b g → R (a ++ t) b u →
      R a (t ++ b) (f ⟨a.reverse, t, g⟩ ++ u)) : R [] s (p.replace f s) := by
  have hfrom (a b : Text) (hs : s = a ++ b) : R a b (p.replaceFrom f 0 a.reverse b) := by
    induction hn : b.length using Nat.strongRecOn generalizing a b with
    | _ n ih =>
      subst hn
      cases b with
      | nil =>
        rw [replaceFrom_nil]
        exact nil a
      | cons c cs =>
        rcases replaceFrom_cases p f a.reverse c cs with ⟨m, rest, _, hrest, hne, hseen, hway, hreplace⟩ | ⟨_, hkeep⟩
        · have hlength : rest.length < (c :: cs).length := by
            have hpos := List.length_pos_iff.mpr hne
            rw [hrest, List.length_append]
            omega
          have hafter := ih _ hlength (a ++ m.text) rest (by rw [hs, hrest, List.append_assoc]) rfl
          rw [List.reverse_append] at hafter
          have hm : f m = f ⟨a.reverse, m.text, m.groups⟩ := by rw [← hseen]
          rw [hreplace, hm, hrest]
          exact swap a m.text rest m.groups _ (by rw [hs, hrest]) hway hafter
        · have hafter := ih cs.length (by simp) (a ++ [c]) cs (by simp [hs]) rfl
          rw [List.reverse_append] at hafter
          rw [hkeep]
          exact keep a c cs _ hafter
  exact hfrom [] s rfl

theorem replace_of_text (hf : ∀ m, f m = m.text) (s : Text) : p.replace f s = s := by
  refine replace_induction (R := fun _ t u => u = t) (fun _ => rfl) (fun _ c t u h => by rw [h])
    fun a t b g u _ _ h => ?_
  rw [hf, h]

/-- Occurrences of a text are replaced as matches of it. -/
theorem replaceAll_eq {needle : Text} (hne : needle ≠ []) (new s : Text) :
    replaceAll needle new s = (Pattern.text needle).replace (fun _ => new) s := by
  have hfrom (skip : Nat) (seen s : Text) : Text.replaceFrom needle new skip s =
      (Pattern.text needle).replaceFrom (fun _ => new) skip seen s := by
    induction s generalizing skip seen with
    | nil => cases skip <;> rfl
    | cons c cs ih =>
      cases skip with
      | succ skip => exact ih skip (c :: seen)
      | zero =>
        rw [Text.replaceFrom, Pattern.replaceFrom]
        by_cases hp : needle.isPrefixOf (c :: cs) = true
        · have hmatch : (Pattern.text needle).at? ⟨seen, c :: cs⟩ = some ⟨seen, needle, []⟩ := by
            obtain ⟨rest, hrest⟩ := List.isPrefixOf_iff_prefix.mp hp
            rw [Pattern.at?, matchThen, after?, if_pos hp, ← hrest]
            simp
          have hempty : needle.isEmpty = false := by simpa using hne
          rw [if_pos hp, hmatch, ih (needle.length - 1) (c :: seen)]
          simp only [hempty, Bool.false_eq_true, if_false]
        · have hnone : (Pattern.text needle).at? ⟨seen, c :: cs⟩ = none := by
            rw [Pattern.at?, matchThen, after?, if_neg hp]
            rfl
          rw [if_neg hp, hnone, ih 0 (c :: seen)]
  exact hfrom 0 [] s

end Pseudocode.Pattern
