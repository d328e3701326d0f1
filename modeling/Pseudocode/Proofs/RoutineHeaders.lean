import Pseudocode.Proofs.RecordTypes
import Pseudocode.Proofs.RuleOpenings

/-! # Headers of routines in the output

The header that is written for a routine is settled when its block is closed, in indented sources; in
braced sources it is written for good, because there no block has a header to settle and the output only
grows. Either way the line where a header was written carries the name of its routine to the end. -/

namespace Pseudocode

open Text

/-! ### Output that only grows -/

/-- No open block has a header to settle. -/
def State.Bare (s : State) : Prop := ∀ b ∈ s.blocks, b.routine = none

/-- From one state without headers to settle to another, what was written stays. -/
structure State.Grows (s t : State) : Prop where
  bare : t.Bare
  output : s.output <+: t.output

namespace State

variable {st st' : Style} {s t s' t' : State}

theorem Grows.refl (h : s.Bare) : s.Grows s := ⟨h, List.prefix_refl _⟩

theorem Grows.trans {u : State} (h : s.Grows t) (h' : t.Grows u) : s.Grows u :=
  ⟨h'.bare, h.output.trans h'.output⟩

theorem grows_close (st : Style) (h : s.Bare) : s.Grows (s.close st) := by
  refine ⟨?_, ?_⟩
  · intro b hb
    rw [blocks_close] at hb
    exact h b (List.mem_of_mem_tail hb)
  · cases hs : s.blocks with
    | nil =>
      rw [close_of_nil st hs]
      exact List.prefix_refl _
    | cons b outer =>
      have hb : b.routine = none := h b (by simp [hs])
      rw [output_close_of_cons st hs, Block.settle, hb]
      exact List.prefix_append _ _

theorem grows_closeMany (st : Style) (h : s.Bare) (n : Nat) : s.Grows (closeMany st n s) := by
  induction n generalizing s with
  | zero => exact .refl h
  | succ n ih => exact (grows_close st h).trans (ih (grows_close st h).bare)

end State

private theorem State.grows_setExit {s : State} (st : Style) (cond : Text) (h : s.Bare) :
    s.Grows (s.setExit st cond) := by
  unfold setExit
  split
  · next b outer hs =>
    refine ⟨?_, List.prefix_refl _⟩
    rw [Bare, hs] at h
    obtain ⟨hb, houter⟩ := List.forall_mem_cons.mp h
    exact List.forall_mem_cons.mpr ⟨hb, houter⟩
  · exact .refl h

theorem Lockstep.grows {st st' : Style} {s t s' t' : State} (h : Lockstep st st' s t s' t')
    (hs : s.Bare) : s.Grows s' := by
  induction h with
  | refl => exact .refl hs
  | remark _ _ _ ih => exact ⟨ih.bare, ih.output⟩
  | close _ ih => exact ih.trans (State.grows_close st ih.bare)
  | exit _ cond ih => exact ih.trans (State.grows_setExit st cond ih.bare)
  | indents _ _ ih => exact ⟨ih.bare, ih.output⟩
  | braces _ _ ih => exact ⟨ih.bare, ih.output⟩
  | pending _ _ ih => exact ⟨ih.bare, ih.output⟩

section

variable {st st' : Style} {s t s' t' : State}

theorem EnterAlike.grows {p q : Entry × State} (h : EnterAlike st st' s t p q) (hs : s.Bare) :
    s.Grows p.2 ∧ ∀ b ∈ p.1.taken, b.routine = none := by
  cases h with
  | kept h => exact ⟨h.grows hs, by simp⟩
  | taken h hblocks _ =>
    have hgrows := h.grows hs
    have hbare := hgrows.bare
    rw [State.Bare, hblocks] at hbare
    obtain ⟨hb, houter⟩ := List.forall_mem_cons.mp hbare
    refine ⟨⟨houter, hgrows.output⟩, ?_⟩
    intro c hc
    obtain rfl := Option.some.inj hc
    exact hb

theorem LeaveAlike.grows {opened opened' taken taken' : Option Block}
    (h : LeaveAlike st st' s t opened opened' taken taken' s' t') (hs : s.Bare)
    (hopened : ∀ b ∈ opened, b.routine = none) (htaken : ∀ b ∈ taken, b.routine = none) : s.Grows s' := by
  cases h with
  | plain h => exact h.grows hs
  | @opened b _ _ _ _ _ _ _ _ hremarked _ h =>
    obtain ⟨_, rfl, _⟩ := hremarked
    have hgrows := h.grows (List.forall_mem_cons.mpr ⟨hopened b rfl, hs⟩)
    exact ⟨hgrows.bare, hgrows.output⟩
  | restored h =>
    have hgrows := h.grows (List.forall_mem_cons.mpr ⟨htaken _ rfl, hs⟩)
    exact ⟨hgrows.bare, hgrows.output⟩

end

/-- A line of a braced source opens no block with a header to settle. -/
theorem Run.routine_of_opened_braces (d : Dialect) (line : Line) (following : List Line) (r : Run) :
    ∀ b ∈ (r.passage ⟨.braces, d⟩ line following).opened, b.routine = none := by
  cases r.handled_passage ⟨.braces, d⟩ line following with
  | passed _ _ hnone => simp [hnone]
  | taken hconvert hopens =>
    intro b hb
    have hopening := (Context.form_of_convert? hconvert).opening
    rw [← hopens, show _ = some b from hb] at hopening
    cases hopening with
    | block bare => exact bare
    | routine indented => cases indented

end Pseudocode
