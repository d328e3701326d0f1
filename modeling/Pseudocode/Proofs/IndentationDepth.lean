import Pseudocode.Proofs.IndentationStacks
import Pseudocode.Proofs.Journal

/-! # Depth and columns of indented sources

An ordinary line should stand inside exactly those blocks whose bodies reach it: then there is one more
column than there are open blocks, and no column lies right of the line. The columns always obey. The
blocks obey as long as at most one header waits for its body, and one kind of line can break this: a
branch that goes on with a waiting header from left of the column around it. -/

namespace Pseudocode.Indentation

/-- Number of open blocks beyond those whose bodies have begun. One of them is a header that waits for
its body. -/
def waiting (s : State) : Nat := s.blocks.length + 1 - s.indents.length

variable {s t : State}

theorem Rising.length_pos {indents : List Nat} (h : Rising indents) : 0 < indents.length := by
  apply List.length_pos_iff.mpr
  rintro rfl
  cases h.base

theorem Rising.length_eq_one {indents : List Nat} (h : Rising indents)
    (hzero : ∀ c ∈ indents, c ≤ 0) : indents.length = 1 := by
  match indents, h.length_pos with
  | [_], _ => rfl
  | top :: second :: outer, _ =>
    have hlt := List.rel_of_pairwise_cons h.descending (List.mem_cons_self ..)
    have htop := hzero top (by simp)
    omega

theorem Sound.length_eq_iff (h : Sound s) :
    s.blocks.length + 1 = s.indents.length ↔ waiting s = 0 := by
  have hcovered := h.covered
  unfold waiting
  omega

theorem waiting_of_sameNesting (h : s.SameNesting t) : waiting t = waiting s := by
  rw [waiting, waiting, h.blocks, h.indents]

/-! ### Leaving bodies -/

private theorem waiting_leaveBody (h : Sound s) (st : Style) (hl : 2 ≤ s.indents.length) :
    waiting (leaveBody st s) = waiting s := by
  have hcovered := h.covered
  simp only [waiting, leaveBody, State.indents_close, State.blocks_close, List.length_tail]
  omega

theorem leaveBodiesUntil_of_stop (st : Style) {stop : List Nat → Bool} (h : stop s.indents = true)
    (n : Nat) : leaveBodiesUntil st stop n s = s := by
  cases n with
  | zero => rfl
  | succ n => rw [leaveBodiesUntil, if_pos h]

section

variable (st : Style) {stop : List Nat → Bool}
  (hstop : ∀ indents, stop indents = false → 2 ≤ indents.length)

include hstop

theorem waiting_leaveBodiesUntil (h : Sound s) (n : Nat) :
    waiting (leaveBodiesUntil st stop n s) = waiting s := by
  induction n generalizing s with
  | zero => rfl
  | succ n ih =>
    rw [leaveBodiesUntil]
    split
    · rfl
    · next hs =>
      have hl : 2 ≤ s.indents.length := hstop _ (by simpa using hs)
      rw [ih (h.leaveBody st hl), waiting_leaveBody h st hl]

theorem stop_leaveBodiesUntil {n : Nat} (hn : s.indents.length ≤ n) :
    stop (leaveBodiesUntil st stop n s).indents = true := by
  induction n generalizing s with
  | zero =>
    rw [leaveBodiesUntil]
    by_contra hs
    have hl := hstop s.indents (by simpa using hs)
    omega
  | succ n ih =>
    rw [leaveBodiesUntil]
    split
    · assumption
    · apply ih
      simp only [leaveBody, State.indents_close, List.length_tail]
      omega

end

theorem Rising.le_of_bodyReached {indents : List Nat} (h : Rising indents) {cur : Nat}
    (hr : bodyReached cur indents = true) {c : Nat} (hc : c ∈ indents) : c ≤ cur := by
  match indents, hr with
  | [top], _ =>
    obtain rfl : top = 0 := by simpa using h.base
    obtain rfl : c = 0 := by simpa using hc
    exact Nat.zero_le cur
  | top :: second :: outer, hr =>
    have htop : top ≤ cur := by simpa [bodyReached] using hr
    rcases List.mem_cons.mp hc with rfl | hc
    · exact htop
    · have hlt := List.rel_of_pairwise_cons h.descending hc
      omega

/-! ### Entering a line -/

/-- The line goes on with the innermost block. -/
def continues (line : Line) (s : State) : Bool :=
  match s.topKind, continuation? line.code with
  | some top, some next => top.accepts next
  | _, _ => false

theorem exists_of_continues {line : Line} (h : continues line s = true) :
    ∃ b ∈ s.blocks.head?, ∃ kind, continuation? line.code = some kind ∧
      b.kind.accepts kind = true := by
  unfold continues State.topKind at h
  cases hb : s.blocks with
  | nil => simp [hb] at h
  | cons b outer =>
    cases hc : continuation? line.code with
    | none => simp [hc] at h
    | some kind => exact ⟨b, rfl, kind, rfl, by simpa [hb, hc] using h⟩

/-- Unless a branch goes on with it, a waiting header ends or its body begins. -/
theorem waiting_settleHeader (h : Sound s) (st : Style) (line : Line) :
    waiting (settleHeader st line s) = waiting s - 1 ∨
      settleHeader st line s = s ∧ continues line s = true := by
  have hcovered := h.covered
  have hpos := h.rising.length_pos
  unfold settleHeader
  dsimp only
  split_ifs with hw hcolumn haccepted
  · left
    unfold waiting
    omega
  · left
    simp only [waiting, State.note, List.length_cons]
    omega
  · exact .inr ⟨rfl, haccepted⟩
  · left
    simp only [waiting, State.note, State.indents_close, State.blocks_close, List.length_tail]
    omega

/-- An ordinary line ends or begins the body of one waiting header. -/
theorem waiting_enter_of_plain (h : Sound s) (st : Style) {line : Line}
    (hc : continuation? line.code = none) : waiting (enter st line s).2 = waiting s - 1 := by
  have hsettled : waiting (settleHeader st line s) = waiting s - 1 := by
    rcases waiting_settleHeader h st line with hw | ⟨_, hcontinues⟩
    · exact hw
    · obtain ⟨_, _, _, hkind, _⟩ := exists_of_continues hcontinues
      simp [hc] at hkind
  have hleft := waiting_leaveBodiesUntil st
    (@two_le_length_of_not_bodyReached line.columns) (h.settleHeader st line)
    (settleHeader st line s).indents.length
  rw [hsettled] at hleft
  unfold enter checkAligned
  rw [hc]
  dsimp only
  split
  · exact hleft
  · exact hleft

theorem sound_enter_of_plain (h : Sound s) (st : Style) {line : Line}
    (hc : continuation? line.code = none) : Sound (enter st line s).2 := by
  have hentered := h.enter st line
  have htaken : (enter st line s).1.taken = none := by
    rw [enter, hc]
  refine ⟨hentered.rising, ?_, hentered.neverEmpty⟩
  simpa [htaken] using hentered.covered

theorem columns_enter_of_plain (h : Sound s) (st : Style) {line : Line}
    (hc : continuation? line.code = none) :
    ∀ c ∈ (enter st line s).2.indents, c ≤ line.columns := by
  have hstop : ∀ indents, bodyReached line.columns indents = false → 2 ≤ indents.length :=
    @two_le_length_of_not_bodyReached line.columns
  have hrising := ((h.settleHeader st line).leaveBodiesUntil st hstop
    (settleHeader st line s).indents.length).rising
  have hreached := stop_leaveBodiesUntil st hstop
    (Nat.le_refl (settleHeader st line s).indents.length)
  unfold enter checkAligned
  rw [hc]
  dsimp only
  intro c hm
  apply hrising.le_of_bodyReached hreached
  split at hm
  · exact hm
  · exact hm

/-- The blocks that count as open while a line is converted, less the bodies that have begun. -/
def waitingIn (entry : Entry) (s : State) : Nat :=
  s.blocks.length + entry.taken.toList.length + 1 - s.indents.length

private theorem waitingIn_take (code : Text) (kind : Kind) (number : Nat) :
    waitingIn ⟨code, (s.take kind number).1⟩ (s.take kind number).2 = waiting s := by
  rcases s.take_cases kind number with ⟨b, outer, hs, _, ht⟩ | ⟨_, above, ht⟩
  · simp [waitingIn, waiting, ht, hs]
  · simp [waitingIn, waiting, ht, State.note]

theorem waitingIn_enter_of_branch (h : Sound s) (st : Style) {line : Line} {kind : Kind}
    (hc : continuation? line.code = some kind) :
    waitingIn (enter st line s).1 (enter st line s).2 = waiting (settleHeader st line s) := by
  have hleft := waiting_leaveBodiesUntil st (@two_le_length_of_not_chainReached line.columns)
    (h.settleHeader st line) (settleHeader st line s).indents.length
  rw [← hleft, enter, hc]
  exact waitingIn_take _ _ _

theorem isSome_taken_enter {line : Line} (st : Style) (hsettled : settleHeader st line s = s)
    (hc : continues line s = true) (hr : chainReached line.columns s.indents = true) :
    (enter st line s).1.taken.isSome := by
  obtain ⟨b, hb, kind, hkind, haccepts⟩ := exists_of_continues hc
  rw [enter, hsettled, hkind]
  simp only [leaveBodiesUntil_of_stop st hr]
  rcases s.take_cases kind line.number with ⟨c, outer, _, _, ht⟩ | ⟨hrefused, _, _⟩
  · simp [ht]
  · simp [hrefused b hb] at haccepts

theorem settleHeader_of_not_chainReached (h : Sound s) (st : Style) {line : Line}
    (hc : continues line s = true) (hr : chainReached line.columns s.indents = false) :
    settleHeader st line s = s := by
  have hlevel : ¬ s.level < line.columns := by
    have hdescending := h.rising.descending
    unfold State.level
    match s.indents, hr, hdescending with
    | top :: outer :: _, hr, hdescending =>
      have houter : line.columns < outer := by simpa [chainReached] using hr
      have htop := List.rel_of_pairwise_cons hdescending (List.mem_cons_self ..)
      simp only [List.head?_cons, Option.getD_some]
      omega
  unfold settleHeader
  rw [if_neg hlevel]
  split
  · rfl
  · exact if_pos hc

/-! ### Lines that leave a block too many -/

/-- A branch goes on with a header that waits for its body, but stands left of the column around the
innermost body. Leaving that body closes the header and not the block of the body; if nothing is then
left that goes on with the branch, what the branch opens is a block too many. -/
structure Skewed (line : Line) (p : Passage) : Prop where
  waits : waiting p.met = 1
  continues : continues line p.met = true
  left : chainReached line.columns p.met.indents = false
  orphan : p.entry.taken = none
  opens : p.opened.isSome = true

instance (line : Line) (p : Passage) : Decidable (Skewed line p) :=
  decidable_of_iff (waiting p.met = 1 ∧ continues line p.met = true ∧
      chainReached line.columns p.met.indents = false ∧ p.entry.taken = none ∧
        p.opened.isSome = true)
    ⟨fun ⟨hw, hc, hl, ho, hs⟩ => ⟨hw, hc, hl, ho, hs⟩,
      fun ⟨hw, hc, hl, ho, hs⟩ => ⟨hw, hc, hl, ho, hs⟩⟩

private theorem waiting_leave (entry : Entry) (opened : Option Block) (s : State) :
    waiting (leave entry opened s) =
      s.blocks.length + (if opened.isSome || entry.taken.isSome then 1 else 0) + 1 -
        s.indents.length := by
  unfold leave
  cases opened with
  | some b => rfl
  | none =>
    cases entry.taken with
    | some b => rfl
    | none => rfl

section

variable {st : Style} {line : Line} {p : Passage} (hp : Passes st line p)

include hp

theorem Passes.sound_left (h : Sound p.met) : Sound p.left := by
  have hentered := h.enter st line
  rw [← hp.entry, ← hp.entered] at hentered
  rw [hp.left]
  exact (hentered.sameNesting hp.converted).leave p.opened

theorem Passes.waiting_left :
    waiting p.left =
      p.entered.blocks.length + (if p.opened.isSome || p.entry.taken.isSome then 1 else 0) + 1 -
        p.entered.indents.length := by
  rw [hp.left, waiting_leave, hp.converted.blocks, hp.converted.indents]

/-- What is open while a branch is converted and what it leaves behind differ by the block that it
opens without taking another away. -/
theorem Passes.waiting_left_of_branch (h : Sound p.met) {kind : Kind}
    (hc : continuation? line.code = some kind) :
    waiting p.left = waiting (settleHeader st line p.met) +
      if p.opened.isSome && p.entry.taken.isNone then 1 else 0 := by
  have hentered := waitingIn_enter_of_branch h st hc
  have hcovered := (h.enter st line).covered
  rw [← hp.entry, ← hp.entered] at hentered hcovered
  rw [hp.waiting_left, ← hentered, waitingIn]
  cases ho : p.opened <;> cases ht : p.entry.taken <;> simp [ht] at hcovered ⊢
  omega

private theorem Passes.waiting_left_le (h : Sound p.met) (hw : waiting p.met ≤ 1)
    (hskewed : ¬ Skewed line p) : waiting p.left ≤ 1 := by
  cases hc : continuation? line.code with
  | none =>
    have hentered := waiting_enter_of_plain h st hc
    rw [← hp.entered, waiting] at hentered
    rw [hp.waiting_left]
    split
    · omega
    · omega
  | some kind =>
    have hleft := hp.waiting_left_of_branch h hc
    rcases waiting_settleHeader h st line with hsettled | ⟨hsettled, hcontinues⟩
    · split at hleft
      · omega
      · omega
    · rw [hsettled] at hleft
      by_contra hmore
      have hopens : (p.opened.isSome && p.entry.taken.isNone) = true := by
        by_contra hn
        rw [if_neg hn] at hleft
        omega
      rw [if_pos hopens] at hleft
      obtain ⟨hopened, horphan⟩ : p.opened.isSome = true ∧ p.entry.taken = none := by
        simpa using hopens
      apply hskewed
      refine ⟨by omega, hcontinues, ?_, horphan, hopened⟩
      by_contra hreached
      have htaken := isSome_taken_enter st hsettled hcontinues (by simpa using hreached)
      rw [← hp.entry, horphan] at htaken
      simp at htaken

private theorem Passes.waiting_left_of_skewed (h : Sound p.met) (hskewed : Skewed line p) :
    waiting p.left = 2 := by
  obtain ⟨_, _, kind, hkind, _⟩ := exists_of_continues hskewed.continues
  rw [hp.waiting_left_of_branch h hkind,
    settleHeader_of_not_chainReached h st hskewed.continues hskewed.left, hskewed.waits]
  simp [hskewed.opens, hskewed.orphan]

end

/-! ### Whole sources -/

/-- What holds of a run after some lines. -/
structure Tracked (done : List (Line × Passage)) (r : Run) : Prop where
  sound : Sound r.state
  waiting_le : (∀ x ∈ done, ¬ Skewed x.1 x.2) → waiting r.state ≤ 1

private theorem Tracked.step {d : Dialect} {done : List (Line × Passage)} {r : Run} (h : Tracked done r)
    (line : Line) (following : List Line) :
    Tracked (done ++ [(line, r.passage ⟨.indentation, d⟩ line following)])
      (r.step ⟨.indentation, d⟩ line following) := by
  have hmet := Run.met_passage ⟨.indentation, d⟩ line following r
  have hleft := Run.left_passage ⟨.indentation, d⟩ line following r
  cases hl : line.isCode with
  | true =>
    have hp := passes_passage d hl following r
    constructor
    · rw [← hleft]
      exact hp.sound_left (hmet ▸ h.sound)
    · intro hskewed
      rw [← hleft]
      apply hp.waiting_left_le (hmet ▸ h.sound)
      · rw [hmet]
        exact h.waiting_le fun x hx => hskewed x (by simp [hx])
      · exact hskewed (line, r.passage ⟨.indentation, d⟩ line following) (by simp)
  | false =>
    have hs := Run.sameNesting_step_of_not_code ⟨.indentation, d⟩ hl following r
    constructor
    · exact h.sound.sameNesting hs
    · intro hskewed
      rw [waiting_of_sameNesting hs]
      exact h.waiting_le fun x hx => hskewed x (by simp [hx])

private theorem tracked_start (o : Options) (lines : List Line) : Tracked [] (Run.start o lines) where
  sound := sound_initial.sameNesting (Run.sameNesting_start o lines)
  waiting_le _ := Nat.le_succ 0

/-- Line by line: no column lies right of an ordinary line that has been entered. The line stands in
as many blocks as there are bodies around it exactly if the stacks that it met were at most one block
apart, and so they are unless some earlier branch was skewed; then in particular a line at the left
margin stands in no block. A skewed branch always leaves a block too many. -/
theorem depth_follows_columns (d : Dialect) (lines : List Line) {k : Nat} {line : Line}
    {p : Passage} (hk : (Run.journalOf ⟨.indentation, d⟩ lines)[k]? = some (line, p)) :
    (Skewed line p → p.left.indents.length < p.left.blocks.length) ∧
      (line.isCode = true → continuation? line.code = none →
        (∀ c ∈ p.entered.indents, c ≤ line.columns) ∧
        (p.entered.blocks.length + 1 = p.entered.indents.length ↔
          p.met.blocks.length ≤ p.met.indents.length) ∧
        ((∀ x ∈ (Run.journalOf ⟨.indentation, d⟩ lines).take k, ¬ Skewed x.1 x.2) →
          p.entered.blocks.length + 1 = p.entered.indents.length ∧
            (line.columns = 0 → p.entered.blocks = []))) := by
  obtain ⟨following, r, hpassage, hsound, hwaiting⟩ := (Run.journalOf_induction
    (fun done line following r (h : Tracked done r) => h.step line following)
    (tracked_start ⟨.indentation, d⟩ lines)).2 k line p hk
  have hmet : p.met = r.state := by rw [hpassage, Run.met_passage]
  rw [← hmet] at hsound hwaiting
  constructor
  · intro hskewed
    cases hl : line.isCode with
    | true =>
      have hp := hpassage ▸ passes_passage d hl following r
      have htwo := hp.waiting_left_of_skewed hsound hskewed
      unfold waiting at htwo
      omega
    | false =>
      have hopens := hskewed.opens
      simp [hpassage, Run.passage_of_not_code _ hl] at hopens
  · intro hl hc
    have hp := hpassage ▸ passes_passage d hl following r
    have hcolumns := columns_enter_of_plain hsound d.style hc
    have hentered := waiting_enter_of_plain hsound d.style hc
    have hsoundEntered := sound_enter_of_plain hsound d.style hc
    rw [← hp.entered] at hcolumns hentered hsoundEntered
    have hiff : p.entered.blocks.length + 1 = p.entered.indents.length ↔ waiting p.met ≤ 1 := by
      rw [hsoundEntered.length_eq_iff, hentered]
      omega
    refine ⟨hcolumns, ?_, ?_⟩
    · rw [hiff, waiting]
      omega
    · intro hskewed
      have hlength := hiff.mpr (hwaiting hskewed)
      refine ⟨hlength, ?_⟩
      intro hzero
      rw [hzero] at hcolumns
      have hone := hsoundEntered.rising.length_eq_one hcolumns
      apply List.eq_nil_of_length_eq_zero
      omega

/-- A branch left of its waiting header, but not of the column around it, is put in its place. -/
theorem depth_follows_columns_dedented :
    let o : Options := ⟨.indentation, .cambridge⟩
    let lines : List Line :=
      [⟨1, .code, [], 0, "while a:", none⟩, ⟨2, .code, [], 4, "while b:", none⟩,
       ⟨3, .code, [], 8, "if c:", none⟩, ⟨4, .code, [], 4, "else:", none⟩,
       ⟨5, .code, [], 0, "x = 1", none⟩]
    (∀ x ∈ (Run.journalOf o lines).take 4, ¬ Skewed x.1 x.2) ∧
      ∃ p, (Run.journalOf o lines)[4]? = some (⟨5, .code, [], 0, "x = 1", none⟩, p) ∧
        p.met.blocks.length = 3 ∧ p.entered.blocks = [] := by
  intro o lines
  have hstraight : ∀ x ∈ (Run.journalOf o lines).take 4, ¬ Skewed x.1 x.2 := by decide +kernel
  have hmet : ((Run.journalOf o lines)[4]?.map fun x => (x.1, x.2.met.blocks.length)) =
      some (⟨5, .code, [], 0, "x = 1", none⟩, 3) := by
    decide +kernel
  obtain ⟨⟨line, p⟩, hk, heq⟩ := Option.map_eq_some_iff.mp hmet
  obtain ⟨rfl, hdepth⟩ := Prod.mk.inj heq
  obtain ⟨_, hplain⟩ := depth_follows_columns .cambridge lines hk
  obtain ⟨_, _, hdepths⟩ := hplain rfl (by decide +kernel)
  exact ⟨hstraight, p, hk, hdepth, (hdepths hstraight).2 rfl⟩

/-- A branch left of the column around its waiting header: the line at the left margin that follows
stands inside a block, while only the margin is left on the stack of columns. -/
theorem depth_exceeds_columns :
    let o : Options := ⟨.indentation, .cambridge⟩
    let lines : List Line :=
      [⟨1, .code, [], 0, "while a:", none⟩, ⟨2, .code, [], 4, "while b:", none⟩,
       ⟨3, .code, [], 8, "if c:", none⟩, ⟨4, .code, [], 2, "else:", none⟩,
       ⟨5, .code, [], 0, "x = 1", none⟩]
    ((Run.journalOf o lines)[4]?.map fun x =>
        (x.1.columns, continuation? x.1.code, x.2.entered.indents,
          x.2.entered.blocks.map Block.kind)) =
      some (0, none, [0], [.whileLoop]) := by
  decide +kernel

end Pseudocode.Indentation
