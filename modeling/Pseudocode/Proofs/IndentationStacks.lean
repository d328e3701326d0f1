import Pseudocode.Proofs.Session
import Mathlib.Tactic.SplitIfs

/-! # The stacks of indented sources

Whatever the lines and the converter, the columns on the stack rise from zero, every body that has
begun belongs to an open block, and no block is closed where none is open. The stack of blocks may
run ahead of the stack of columns, but never the other way round. -/

namespace Pseudocode.Indentation

/-- Columns, innermost first, rise strictly from column zero. -/
structure Rising (indents : List Nat) : Prop where
  descending : indents.Pairwise (· > ·)
  base : indents.getLast? = some 0

private theorem Rising.tail {indents : List Nat} (h : Rising indents) (hl : 2 ≤ indents.length) :
    Rising indents.tail := by
  obtain ⟨hd, hb⟩ := h
  match indents, hl with
  | _ :: c :: outer, _ =>
    refine ⟨hd.of_cons, ?_⟩
    rwa [List.getLast?_cons_cons] at hb

theorem Rising.cons {indents : List Nat} (h : Rising indents) {column : Nat}
    (hc : indents.head?.getD 0 < column) : Rising (column :: indents) := by
  obtain ⟨hd, hb⟩ := h
  match indents with
  | top :: outer =>
    refine ⟨List.pairwise_cons.mpr ⟨?_, hd⟩, by rwa [List.getLast?_cons_cons]⟩
    intro c hm
    change top < column at hc
    rcases List.mem_cons.mp hm with rfl | hm
    · exact hc
    · exact Nat.lt_trans (List.rel_of_pairwise_cons hd hm) hc

/-- What holds of the stacks between two lines. -/
structure Sound (s : State) : Prop where
  rising : Rising s.indents
  covered : s.indents.length ≤ s.blocks.length + 1
  neverEmpty : s.NeverEmpty

theorem Sound.note {s : State} (h : Sound s) {e : Event} (he : e ≠ .nothingToClose) :
    Sound (s.note e) :=
  ⟨h.rising, h.covered, h.neverEmpty.note he⟩

theorem Sound.leaveBody {s : State} (h : Sound s) (st : Style) (hl : 2 ≤ s.indents.length) :
    Sound (leaveBody st s) := by
  have hcovered := h.covered
  have hopen : s.blocks ≠ [] := by
    intro he
    rw [he] at hcovered
    simp only [List.length_nil] at hcovered
    omega
  refine ⟨?_, ?_, ?_⟩
  · simpa [Indentation.leaveBody] using h.rising.tail hl
  · simp only [Indentation.leaveBody, State.indents_close, State.blocks_close, List.length_tail]
    omega
  · exact State.NeverEmpty.close (s := { s with indents := s.indents.tail }) h.neverEmpty st hopen

theorem Sound.leaveBodiesUntil {s : State} (h : Sound s) (st : Style) {stop : List Nat → Bool}
    (hstop : ∀ indents, stop indents = false → 2 ≤ indents.length) (n : Nat) :
    Sound (leaveBodiesUntil st stop n s) := by
  induction n generalizing s with
  | zero => exact h
  | succ n ih =>
    unfold Indentation.leaveBodiesUntil
    by_cases hs : stop s.indents = true
    · rw [if_pos hs]
      exact h
    · rw [if_neg hs]
      exact ih (h.leaveBody st (hstop _ (by simpa using hs)))

theorem two_le_length_of_not_chainReached {cur : Nat} {indents : List Nat}
    (h : chainReached cur indents = false) : 2 ≤ indents.length := by
  match indents with
  | _ :: _ :: _ => simp
  | [_] => simp [chainReached] at h
  | [] => simp [chainReached] at h

theorem two_le_length_of_not_bodyReached {cur : Nat} {indents : List Nat}
    (h : bodyReached cur indents = false) : 2 ≤ indents.length := by
  match indents with
  | _ :: _ :: _ => simp
  | [_] => simp [bodyReached] at h
  | [] => simp [bodyReached] at h

theorem Sound.settleHeader {s : State} (h : Sound s) (st : Style) (line : Line) :
    Sound (settleHeader st line s) := by
  unfold Indentation.settleHeader
  dsimp only
  split_ifs with hw hc
  · exact h
  · have hn := h.note (e := .bodyBegins line.number line.columns) (by simp)
    refine ⟨h.rising.cons hc, ?_, hn.neverEmpty⟩
    simp only [List.length_cons, State.note]
    omega
  · exact h
  · -- a header waits, so there is a block to close
    have hn := h.note (e := .bodyMissing line.number) (by simp)
    have hpos : 0 < s.indents.length := by
      have hb := h.rising.base
      cases hi : s.indents with
      | nil => simp [hi] at hb
      | cons c outer => simp
    refine ⟨by simpa using hn.rising, ?_, hn.neverEmpty.close st ?_⟩
    · simp only [State.indents_close, State.blocks_close, State.note, List.length_tail]
      omega
    · intro he
      simp only [State.note] at he
      simp only [he, List.length_nil] at hw
      omega

/-- What holds of the stacks while a line is converted: a block that was taken away is counted with
those that are open. -/
structure SoundEntry (entry : Entry) (s : State) : Prop where
  rising : Rising s.indents
  covered : s.indents.length ≤ s.blocks.length + entry.taken.toList.length + 1
  neverEmpty : s.NeverEmpty

private theorem Sound.entry {s : State} (h : Sound s) (code : Text) : SoundEntry { code } s :=
  ⟨h.rising, h.covered, h.neverEmpty⟩

private theorem Sound.take {s : State} (h : Sound s) (code : Text) (kind : Kind) (number : Nat) :
    SoundEntry ⟨code, (s.take kind number).1⟩ (s.take kind number).2 := by
  have hcovered := h.covered
  unfold State.take
  cases hb : s.blocks with
  | nil => exact ⟨h.rising, by simpa [State.note, hb] using hcovered, h.neverEmpty.note (by simp)⟩
  | cons b outer =>
    dsimp only
    by_cases ha : b.kind.accepts kind = true
    · simp only [ha, ↓reduceIte]
      refine ⟨h.rising, ?_, h.neverEmpty⟩
      simpa [hb, Nat.add_assoc] using hcovered
    · simp only [ha, Bool.false_eq_true, ↓reduceIte]
      exact ⟨h.rising, by simpa [State.note] using hcovered, h.neverEmpty.note (by simp)⟩

private theorem Sound.checkAligned {s : State} (h : Sound s) (line : Line) (popped : Bool) :
    Sound (checkAligned line popped s) := by
  unfold Indentation.checkAligned
  split
  · exact h.note (by simp)
  · exact h

theorem Sound.enter {s : State} (h : Sound s) (st : Style) (line : Line) :
    SoundEntry (enter st line s).1 (enter st line s).2 := by
  have hs := h.settleHeader st line
  unfold Indentation.enter
  cases continuation? line.code with
  | some kind =>
    exact (hs.leaveBodiesUntil st (fun _ => two_le_length_of_not_chainReached) _).take _ kind _
  | none =>
    have hl (n : Nat) : Sound (Indentation.leaveBodiesUntil st (bodyReached line.columns) n
        (Indentation.settleHeader st line s)) :=
      hs.leaveBodiesUntil st (fun _ => two_le_length_of_not_bodyReached) n
    exact ((hl _).checkAligned line _).entry line.code

theorem SoundEntry.leave {entry : Entry} {s : State} (h : SoundEntry entry s)
    (opened : Option Block) : Sound (leave entry opened s) := by
  have hcovered := h.covered
  have hpush : ∀ b : Block, Sound (s.push b) := by
    intro b
    refine ⟨h.rising, ?_, h.neverEmpty.note (by simp)⟩
    have ht : entry.taken.toList.length ≤ 1 := by cases entry.taken <;> simp
    change s.indents.length ≤ s.blocks.length + 1 + 1
    omega
  unfold Indentation.leave
  cases opened with
  | some b => exact hpush b
  | none =>
    cases ht : entry.taken with
    | some b => exact hpush b
    | none => exact ⟨h.rising, by simpa [ht] using hcovered, h.neverEmpty⟩

theorem SoundEntry.sameNesting {entry : Entry} {s t : State} (h : SoundEntry entry s)
    (hs : s.SameNesting t) : SoundEntry entry t :=
  ⟨hs.indents ▸ h.rising, by rw [hs.indents, hs.blocks]; exact h.covered,
    hs.neverEmpty h.neverEmpty⟩

theorem Sound.sameNesting {s t : State} (h : Sound s) (hs : s.SameNesting t) : Sound t :=
  ⟨hs.indents ▸ h.rising, by rw [hs.indents, hs.blocks]; exact h.covered,
    hs.neverEmpty h.neverEmpty⟩

theorem sound_initial : Sound {} :=
  ⟨⟨by simp, rfl⟩, by simp, by simp [State.NeverEmpty]⟩

private theorem sound_of_reached {st : Style} {opens : Entry → Option Block → Prop} {lines rest : List Line}
    {s : State} (h : Reached st .indentation opens lines rest s) : Sound s := by
  induction h with
  | start hs => exact sound_initial.sameNesting hs
  | pass _ _ hs ih => exact ih.sameNesting hs
  | @code line rest s entered converted entry opened _ _ he hs _ ih =>
    have hentered := ih.enter st line
    rw [show enter st line s = (entry, entered) from he] at hentered
    exact (hentered.sameNesting hs).leave opened

/-- Between any two lines, and while a line is converted, the columns rise from zero and nothing was
closed in vain; between lines every body has its block. -/
theorem stacks_safe {st : Style} {opens : Entry → Option Block → Prop} {lines rest : List Line}
    {s : State} (h : Reached st .indentation opens lines rest s) :
    Rising s.indents ∧ s.indents.length ≤ s.blocks.length + 1 ∧ s.NeverEmpty ∧
      (s.closeAll st).NeverEmpty ∧
      ∀ line following, rest = line :: following →
        Rising (s.enter st .indentation line following).2.indents ∧
          (s.enter st .indentation line following).2.NeverEmpty := by
  have hs := sound_of_reached h
  refine ⟨hs.rising, hs.covered, hs.neverEmpty, hs.neverEmpty.closeMany st (Nat.le_refl _), ?_⟩
  intro line following _
  have he := hs.enter st line
  exact ⟨he.rising, he.neverEmpty⟩

/-- A branch with a shallower body, an orphan branch and an unexpected indent. -/
theorem stacks_safe_malformed :
    let lines : List Line :=
      [⟨1, .code, [], 0, "if a:", none⟩, ⟨2, .code, [], 8, "x", none⟩,
       ⟨3, .code, [], 0, "else:", none⟩, ⟨4, .code, [], 2, "y", none⟩,
       ⟨5, .code, [], 0, "except:", none⟩, ⟨6, .code, [], 4, "z", none⟩]
    ∃ r : Run, Run.ofLines ⟨.indentation, .cambridge⟩ lines = r.finish ⟨.indentation, .cambridge⟩ ∧
      Reached .cambridge .indentation OpensOnCode lines [] r.state ∧
      Rising r.state.indents ∧ r.state.indents.length ≤ r.state.blocks.length + 1 ∧
        (r.state.closeAll .cambridge).NeverEmpty := by
  intro lines
  obtain ⟨r, hr, h⟩ := Run.exists_reached_ofLines ⟨.indentation, .cambridge⟩ lines
  obtain ⟨hrising, hcovered, _, hnever, _⟩ := stacks_safe h
  exact ⟨r, hr, h, hrising, hcovered, hnever⟩

end Pseudocode.Indentation
