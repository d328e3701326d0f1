import Pseudocode.Proofs.Passage

/-! # Openings and closings of a whole run

Every block that a conversion opens is closed with a line of its own, unless a further branch of its
chain takes its place. The count holds for any lines in any order: entering and leaving a line only
closes blocks besides the one block that the line pushes. -/

namespace Pseudocode

def Event.isOpening : Event → Bool
  | .opened .. => true
  | _ => false

def Event.isClosing : Event → Bool
  | .closed .. => true
  | _ => false

namespace State

/-- Number of blocks pushed so far. -/
def openings (s : State) : Nat := s.log.countP Event.isOpening

/-- Number of blocks closed so far; each was noted when its last line was written. -/
def closings (s : State) : Nat := s.log.countP Event.isClosing

/-! ### What single operations count -/

theorem openings_note {e : Event} (he : e.isOpening = false) (s : State) :
    (s.note e).openings = s.openings := by
  simp [openings, note, he]

theorem closings_note {e : Event} (he : e.isClosing = false) (s : State) :
    (s.note e).closings = s.closings := by
  simp [closings, note, he]

@[simp] theorem openings_push (s : State) (b : Block) : (s.push b).openings = s.openings + 1 :=
  List.countP_cons_of_pos rfl

@[simp] theorem closings_push (s : State) (b : Block) : (s.push b).closings = s.closings :=
  List.countP_cons_of_neg (by simp [Event.isClosing])

private theorem counts_settleTop (st : Style) (b : Block) (outer : List Block) (s : State) :
    (s.settleTop st b outer).openings = s.openings ∧
      (s.settleTop st b outer).closings = s.closings ∧
        (s.settleTop st b outer).output.length = s.output.length := by
  unfold settleTop
  cases b.routine with
  | none => exact ⟨rfl, rfl, rfl⟩
  | some r =>
    simp only [settleRoutine]
    split
    · exact ⟨openings_note rfl _, closings_note rfl _, by simp⟩
    · exact ⟨openings_note rfl _, closings_note rfl _, rfl⟩

private theorem counts_close {s : State} {b : Block} {outer : List Block} (hs : s.blocks = b :: outer)
    (st : Style) :
    (s.close st).openings = s.openings ∧ (s.close st).closings = s.closings + 1 ∧
      (s.close st).output.length = s.output.length + 1 := by
  obtain ⟨kind, depth, line, he⟩ := close_eq_of_cons st hs
  obtain ⟨ho, hc, hl⟩ := counts_settleTop st b outer s
  rw [he]
  refine ⟨?_, ?_, ?_⟩
  · rw [← ho]
    exact openings_note rfl _
  · rw [← hc]
    exact List.countP_cons_of_pos rfl
  · rw [← hl]
    simp [emit, note]

end State

/-! ### Steps that only close -/

/-- From `s` to `t` the `n` innermost blocks were closed, each with a line, and none was pushed. -/
structure State.Closes (s : State) (n : Nat) (t : State) : Prop where
  bound : n ≤ s.blocks.length
  blocks : t.blocks.map Block.outline = (s.blocks.map Block.outline).drop n
  openings : t.openings = s.openings
  closings : t.closings = s.closings + n
  output : t.output.length = s.output.length + n

namespace State.Closes

variable {s t u : State} {n : Nat}

theorem refl (s : State) : s.Closes 0 s := ⟨Nat.zero_le _, rfl, rfl, rfl, rfl⟩

theorem length_blocks (h : s.Closes n t) : t.blocks.length + n = s.blocks.length := by
  have hl := congrArg List.length h.blocks
  have hn := h.bound
  simp only [List.length_map, List.length_drop] at hl
  omega

/-- One line was written for each block. -/
theorem written (h : s.Closes n t) :
    t.output.length + s.closings = s.output.length + t.closings := by
  have houtput := h.output
  have hclosings := h.closings
  omega

/-- A change that keeps the blocks and counts nothing. -/
theorem congr (h : s.Closes n t) (hb : u.blocks.map Block.outline = t.blocks.map Block.outline)
    (ho : u.openings = t.openings) (hc : u.closings = t.closings) (hl : u.output = t.output) :
    s.Closes n u :=
  ⟨h.bound, hb.trans h.blocks, ho.trans h.openings, hc.trans h.closings, by rw [hl, h.output]⟩

theorem close (h : s.Closes n t) (st : Style) : ∃ m, s.Closes m (t.close st) := by
  have hlen := h.length_blocks
  cases ht : t.blocks with
  | nil =>
    have he : t.close st = t.note .nothingToClose := by simp only [State.close, ht]
    rw [he]
    exact ⟨n, h.congr rfl (openings_note rfl _) (closings_note rfl _) rfl⟩
  | cons b outer =>
    obtain ⟨ho, hc, hl⟩ := counts_close ht st
    have hb : ((t.close st).blocks.map Block.outline) = (t.blocks.map Block.outline).drop 1 := by
      rw [blocks_close, List.map_tail, List.drop_one]
    refine ⟨n + 1, ?_, ?_, ?_, ?_, ?_⟩
    · rw [ht, List.length_cons] at hlen
      omega
    · rw [hb, h.blocks, List.drop_drop]
    · rw [ho, h.openings]
    · rw [hc, h.closings, Nat.add_assoc]
    · rw [hl, h.output, Nat.add_assoc]

theorem closeMany (h : s.Closes n t) (st : Style) (k : Nat) :
    ∃ m, s.Closes m (State.closeMany st k t) := by
  induction k generalizing n t with
  | zero => exact ⟨n, h⟩
  | succ k ih =>
    obtain ⟨m, hm⟩ := h.close st
    exact ih hm

end State.Closes

theorem Event.not_opening_of_remark {e : Event} (h : e.isRemark = true) : e.isOpening = false := by
  cases e <;> simp_all [isRemark, isOpening]

theorem Event.not_closing_of_remark {e : Event} (h : e.isRemark = true) : e.isClosing = false := by
  cases e <;> simp_all [isRemark, isClosing]

private theorem Event.not_opening_of_conversion {e : Event} (h : e.isConversion = true) :
    e.isOpening = false := by
  cases e <;> simp_all [isConversion, isOpening]

private theorem Event.not_closing_of_conversion {e : Event} (h : e.isConversion = true) :
    e.isClosing = false := by
  cases e <;> simp_all [isConversion, isClosing]

/-- The steps of the nesting close blocks and do nothing else that counts. -/
theorem Lockstep.closes {st st' : Style} {s t s' t' : State} (h : Lockstep st st' s t s' t') :
    ∃ n, s.Closes n s' := by
  induction h with
  | refl => exact ⟨0, .refl s⟩
  | remark _ he _ ih =>
    obtain ⟨n, hn⟩ := ih
    exact ⟨n, hn.congr rfl (State.openings_note (Event.not_opening_of_remark he) _)
      (State.closings_note (Event.not_closing_of_remark he) _) rfl⟩
  | close _ ih =>
    obtain ⟨n, hn⟩ := ih
    exact hn.close st
  | exit _ cond ih =>
    obtain ⟨n, hn⟩ := ih
    obtain ⟨blocks, he, hb⟩ := State.exists_setExit_eq st cond _
    rw [he]
    exact ⟨n, hn.congr hb rfl rfl rfl⟩
  | indents _ _ ih =>
    obtain ⟨n, hn⟩ := ih
    exact ⟨n, hn.congr rfl rfl rfl rfl⟩
  | braces _ _ ih =>
    obtain ⟨n, hn⟩ := ih
    exact ⟨n, hn.congr rfl rfl rfl rfl⟩
  | pending _ _ ih =>
    obtain ⟨n, hn⟩ := ih
    exact ⟨n, hn.congr rfl rfl rfl rfl⟩

/-! ### Lines -/

theorem State.SameNesting.counts {s t : State} (h : s.SameNesting t) :
    t.openings = s.openings ∧ t.closings = s.closings := by
  obtain ⟨noted, hlog, hnoted⟩ := h.log
  have hopenings : noted.countP Event.isOpening = 0 :=
    List.countP_eq_zero.mpr fun e he => by simp [Event.not_opening_of_conversion (hnoted e he)]
  have hclosings : noted.countP Event.isClosing = 0 :=
    List.countP_eq_zero.mpr fun e he => by simp [Event.not_closing_of_conversion (hnoted e he)]
  unfold State.openings State.closings
  simp [hlog, hopenings, hclosings]

/-- Blocks that are open or have been closed: what a conversion opens is added, and what a branch
takes away is taken off. -/
def State.weight (s : State) : Nat := s.blocks.length + s.closings

theorem State.Closes.weight {s t : State} {n : Nat} (h : s.Closes n t) : t.weight = s.weight := by
  have hlen := h.length_blocks
  have hclosings := h.closings
  unfold State.weight
  omega

theorem State.SameNesting.weight {s t : State} (h : s.SameNesting t) : t.weight = s.weight := by
  unfold State.weight
  rw [h.blocks, h.counts.2]

theorem EnterAlike.closes {st st' : Style} {s t : State} {p q : Entry × State}
    (h : EnterAlike st st' s t p q) :
    p.2.openings = s.openings ∧ p.2.weight + p.1.taken.toList.length = s.weight ∧
      p.2.output.length + s.closings = s.output.length + p.2.closings := by
  cases h with
  | @kept _ s' _ h =>
    obtain ⟨n, hn⟩ := h.closes
    exact ⟨hn.openings, hn.weight, hn.written⟩
  | @taken _ s' _ h b _ outer _ hs _ =>
    obtain ⟨n, hn⟩ := h.closes
    have hweight := hn.weight
    simp only [State.weight, hs, List.length_cons] at hweight
    refine ⟨hn.openings, ?_, hn.written⟩
    change outer.length + s'.closings + 1 = s.blocks.length + s.closings
    omega

namespace Passage

/-- Leaving the line pushed the block `b` and then closed the `n` innermost blocks, each with a line
of its own. -/
structure Places (p : Passage) (b : Block) (n : Nat) : Prop where
  bound : n ≤ p.converted.blocks.length + 1
  blocks : p.left.blocks.map Block.outline = ((b :: p.converted.blocks).map Block.outline).drop n
  openings : p.left.openings = p.converted.openings + 1
  closings : p.left.closings = p.converted.closings + n
  output : p.left.output.length = p.converted.output.length + n

/-- The block that the line put on the stack, if it put one there: what it opened, with its brace
settled, or else what it had taken away. -/
inductive Leaves (p : Passage) : Prop
  | plain (ho : p.opened = none) (ht : p.entry.taken = none) {n : Nat}
      (h : p.converted.Closes n p.left)
  | opened {b : Block} (ho : p.opened = some b) {braceless : Bool} {n : Nat}
      (h : p.Places { b with braceless } n)
  | restored {b : Block} (ho : p.opened = none) (ht : p.entry.taken = some b) {n : Nat}
      (h : p.Places b n)

theorem Places.weight {p : Passage} {b : Block} {n : Nat} (h : p.Places b n) :
    p.left.weight = p.converted.weight + 1 := by
  have hl := congrArg List.length h.blocks
  have hn := h.bound
  have hc := h.closings
  simp only [List.length_map, List.length_drop, List.length_cons] at hl
  unfold State.weight
  omega

private theorem Places.written {p : Passage} {b : Block} {n : Nat} (h : p.Places b n) :
    p.left.output.length + p.converted.closings = p.converted.output.length + p.left.closings := by
  have houtput := h.output
  have hclosings := h.closings
  omega

theorem Leaves.written {p : Passage} (h : p.Leaves) :
    p.left.output.length + p.converted.closings = p.converted.output.length + p.left.closings := by
  cases h with
  | plain _ _ h => exact h.written
  | opened _ h => exact h.written
  | restored _ _ h => exact h.written

end Passage

private theorem State.Closes.places {p : Passage} {s : State} {b : Block} {n : Nat}
    (hs : p.converted.Remarked s) (h : (s.push b).Closes n p.left) : p.Places b n := by
  obtain ⟨noted, rfl, hnoted⟩ := hs
  have hopenings : noted.countP Event.isOpening = 0 :=
    List.countP_eq_zero.mpr fun e he => by simp [Event.not_opening_of_remark (hnoted e he)]
  have hclosings : noted.countP Event.isClosing = 0 :=
    List.countP_eq_zero.mpr fun e he => by simp [Event.not_closing_of_remark (hnoted e he)]
  refine ⟨h.bound, h.blocks, ?_, ?_, h.output⟩
  · rw [h.openings, openings_push]
    simp [State.openings, hopenings]
  · rw [h.closings, closings_push]
    simp [State.closings, hclosings]

private theorem LeaveAlike.leaves {st st' : Style} {p : Passage} {t t' : State}
    {opened' taken' : Option Block}
    (h : LeaveAlike st st' p.converted t p.opened opened' p.entry.taken taken' p.left t') :
    p.Leaves := by
  generalize ho : p.opened = opened at h
  generalize ht : p.entry.taken = taken at h
  generalize hl : p.left = left at h
  cases h with
  | plain h =>
    obtain ⟨n, hn⟩ := h.closes
    exact .plain ho ht (hl ▸ hn)
  | opened hs _ h =>
    obtain ⟨n, hn⟩ := h.closes
    exact .opened ho (State.Closes.places hs (hl ▸ hn))
  | restored h =>
    obtain ⟨n, hn⟩ := h.closes
    exact .restored ho ht (State.Closes.places ⟨[], rfl, by simp⟩ (hl ▸ hn))

namespace Run

theorem leaves_passage (o : Options) (line : Line) (following : List Line) (r : Run) :
    (r.passage o line following).Leaves := by
  unfold passage
  cases hl : line.isCode with
  | false => exact .plain rfl rfl (.refl _)
  | true =>
    simp only [↓reduceIte, step_of_code o hl]
    exact (State.leave_alike o.dialect.style o.dialect.style o.convention line rfl rfl rfl rfl rfl).leaves

/-- Up to its conversion a line pushes nothing, and a block that it takes away is off the scales. -/
theorem enters_passage (o : Options) (line : Line) (following : List Line) (r : Run) :
    let p := r.passage o line following
    p.converted.openings = p.met.openings ∧
      p.converted.weight + p.entry.taken.toList.length = p.met.weight ∧
        p.entered.output.length + p.met.closings = p.met.output.length + p.entered.closings := by
  unfold passage
  cases hl : line.isCode with
  | false =>
    have hs := sameNesting_step_of_not_code o hl following r
    exact ⟨hs.counts.1, hs.weight, rfl⟩
  | true =>
    have hs := sameNesting_converted o line following r
    obtain ⟨hopenings, hweight, houtput⟩ := (State.enter_alike o.dialect.style o.dialect.style
      o.convention line (rfl : Line.nextCode following = _) (rfl : r.state.outline = _)).closes
    refine ⟨hs.counts.1.trans hopenings, ?_, houtput⟩
    simp only [↓reduceIte, hs.weight]
    exact hweight

/-- A line adds to the scales what its conversion opens, unless the block replaces another. -/
theorem weight_passage (o : Options) (line : Line) (following : List Line) (r : Run) :
    let p := r.passage o line following
    p.left.weight + (if p.opened.isSome && p.entry.taken.isSome then 1 else 0) =
      p.met.weight + if p.opened.isSome then 1 else 0 := by
  intro p
  obtain ⟨_, hweight, _⟩ := enters_passage o line following r
  change p.converted.weight + p.entry.taken.toList.length = p.met.weight at hweight
  cases r.leaves_passage o line following with
  | plain ho ht h =>
    change p.opened = none at ho
    change p.entry.taken = none at ht
    have hleft : p.left.weight = p.converted.weight := h.weight
    simp only [ht, Option.toList_none, List.length_nil] at hweight
    simp only [ho, ht, Option.isSome_none, Bool.false_and, Bool.false_eq_true, ↓reduceIte]
    omega
  | opened ho h =>
    change p.opened = _ at ho
    have hleft : p.left.weight = p.converted.weight + 1 := h.weight
    cases ht : p.entry.taken with
    | none =>
      simp only [ht, Option.toList_none, List.length_nil] at hweight
      simp only [ho, Option.isSome_some, Option.isSome_none, Bool.and_false, Bool.false_eq_true,
        ↓reduceIte]
      omega
    | some c =>
      simp only [ht, Option.toList_some, List.length_singleton] at hweight
      simp only [ho, Option.isSome_some, Bool.and_self, ↓reduceIte]
      omega
  | restored ho ht h =>
    change p.opened = none at ho
    change p.entry.taken = _ at ht
    have hleft : p.left.weight = p.converted.weight + 1 := h.weight
    simp only [ht, Option.toList_some, List.length_singleton] at hweight
    simp only [ho, Option.isSome_none, Bool.false_and, Bool.false_eq_true, ↓reduceIte]
    omega

theorem met_passage (o : Options) (line : Line) (following : List Line) (r : Run) :
    (r.passage o line following).met = r.state := by
  unfold passage
  split <;> rfl

theorem left_passage (o : Options) (line : Line) (following : List Line) (r : Run) :
    (r.passage o line following).left = (r.step o line following).state := by
  unfold passage
  split <;> rfl

private theorem weight_steps (o : Options) (lines : List Line) (r : Run) :
    (steps o lines r).state.weight +
        (passages o lines r).countP (fun p => p.opened.isSome && p.entry.taken.isSome) =
      r.state.weight + (passages o lines r).countP (fun p => p.opened.isSome) := by
  induction lines generalizing r with
  | nil => rfl
  | cons line following ih =>
    have hline := weight_passage o line following r
    have hrest := ih (r.step o line following)
    simp only [met_passage, left_passage] at hline
    simp only [steps, passages, List.countP_cons]
    omega

private theorem passage_of_mem_passages {o : Options} {lines : List Line} {r : Run} {p : Passage}
    (h : p ∈ passages o lines r) : ∃ line following r', p = passage o line following r' := by
  induction lines generalizing r with
  | nil => simp [passages] at h
  | cons line following ih =>
    rcases List.mem_cons.mp h with rfl | h
    · exact ⟨line, following, r, rfl⟩
    · exact ih h

/-- At the end every open block is closed with a line, and the blank lines held back are written. -/
theorem closings_finish (o : Options) (r : Run) :
    (r.finish o).state.closings = r.state.weight ∧
      (r.finish o).state.output.length + r.state.closings =
        r.state.output.length + r.held + (r.finish o).state.closings := by
  obtain ⟨n, hn⟩ := (State.Closes.refl r.state).closeMany o.dialect.style r.state.blocks.length
  change r.state.Closes n (r.state.closeAll o.dialect.style) at hn
  have hweight := hn.weight
  have hwritten := hn.written
  rw [State.weight, State.blocks_closeAll, List.length_nil, Nat.zero_add] at hweight
  have hrelease : (r.finish o).state.output.length =
      (r.state.closeAll o.dialect.style).output.length + r.held := by
    simp [finish, release, State.emitAll]
  refine ⟨hweight, ?_⟩
  change _ = _ + (r.state.closeAll o.dialect.style).closings
  omega

/-- After any lines no block is open. The lines that closed blocks are as many as the code lines that
opened a block, less those that had taken a block away. Entering and leaving a line write nothing
else, and the end writes besides them only the blank lines held back. Where a line had taken a block
away, leaving it pushed exactly one: the block that the line opened, or the block itself if the line
opened none. -/
theorem nesting_balanced (o : Options) (lines : List Line) :
    (ofLines o lines).state.blocks = [] ∧
      (ofLines o lines).state.closings +
          (passages o lines (start o lines)).countP
            (fun p => p.opened.isSome && p.entry.taken.isSome) =
        (passages o lines (start o lines)).countP (fun p => p.opened.isSome) ∧
      (ofLines o lines).state.output.length + (steps o lines (start o lines)).state.closings =
        (steps o lines (start o lines)).state.output.length + (steps o lines (start o lines)).held +
          (ofLines o lines).state.closings ∧
      ∀ p ∈ passages o lines (start o lines),
        p.entered.output.length + p.met.closings = p.met.output.length + p.entered.closings ∧
          p.left.output.length + p.converted.closings =
            p.converted.output.length + p.left.closings ∧
          ∀ b, p.entry.taken = some b → p.converted.openings = p.met.openings ∧
            ∃ c n, p.Places c n ∧
              (∀ d, p.opened = some d → c = { d with braceless := c.braceless }) ∧
                (p.opened = none → c = b) := by
  obtain ⟨hclosings, hwritten⟩ := closings_finish o (steps o lines (start o lines))
  refine ⟨State.blocks_closeAll _ _, ?_, hwritten, ?_⟩
  · have hstart : (start o lines).state.weight = 0 := rfl
    have hsteps := weight_steps o lines (start o lines)
    rw [ofLines_eq, hclosings]
    omega
  · intro p hp
    obtain ⟨line, following, r, rfl⟩ := passage_of_mem_passages hp
    obtain ⟨hopenings, _, houtput⟩ := enters_passage o line following r
    refine ⟨houtput, (r.leaves_passage o line following).written, ?_⟩
    intro b hb
    refine ⟨hopenings, ?_⟩
    cases r.leaves_passage o line following with
    | plain _ ht _ => simp [ht] at hb
    | @opened d ho braceless n h =>
      refine ⟨_, n, h, ?_, ?_⟩
      · intro d' hd'
        obtain rfl := Option.some.inj (ho.symm.trans hd')
        rfl
      · intro hn
        simp [hn] at ho
    | @restored c ho ht n h =>
      refine ⟨c, n, h, ?_, ?_⟩
      · intro d hd
        simp [hd] at ho
      · intro _
        exact Option.some.inj (ht.symm.trans hb)

/-- A branch without its condition takes the block of its chain and puts it back. -/
theorem nesting_balanced_failed_branch :
    let o : Options := ⟨.indentation, .cambridge⟩
    let lines : List Line :=
      [⟨1, .code, [], 0, "if a:", none⟩, ⟨2, .code, [], 4, "x = 1", none⟩,
       ⟨3, .code, [], 0, "elif:", none⟩, ⟨4, .code, [], 0, "else:", none⟩]
    (passages o lines (start o lines)).countP (fun p => p.opened.isSome) = 2 ∧
      (ofLines o lines).state.closings = 1 ∧
      ∃ p ∈ passages o lines (start o lines), ∃ b n,
        p.entry.taken = some b ∧ p.opened = none ∧ p.Places b n := by
  intro o lines
  obtain ⟨_, hcount, _, hpassages⟩ := nesting_balanced o lines
  have hopened : (passages o lines (start o lines)).countP (fun p => p.opened.isSome) = 2 := by
    decide +kernel
  have hboth : (passages o lines (start o lines)).countP
      (fun p => p.opened.isSome && p.entry.taken.isSome) = 1 := by
    decide +kernel
  refine ⟨hopened, by omega, ?_⟩
  have hfailed : ∃ p ∈ passages o lines (start o lines),
      p.entry.taken = some { kind := .ifBranch } ∧ p.opened = none := by
    decide +kernel
  obtain ⟨p, hp, ht, ho⟩ := hfailed
  obtain ⟨_, _, hplaces⟩ := hpassages p hp
  obtain ⟨_, c, n, hc, _, hnone⟩ := hplaces _ ht
  exact ⟨p, hp, _, n, ht, ho, hnone ho ▸ hc⟩

end Run

end Pseudocode
