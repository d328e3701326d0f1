import Pseudocode.Proofs.BraceChains

/-! # Every block owns its brace

Between any two lines of a braced source, each open brace that belongs to a block stands for exactly
one block that is not braceless. The innermost block is the only exception: it has given up its brace
while its chain is pending, and then the next code line goes on with the chain. -/

namespace Pseudocode.Braces

open Text

/-- Number of blocks that are not braceless. -/
def owners (blocks : List Block) : Nat := blocks.countP fun b => !b.braceless

theorem owners_cons (b : Block) (outer : List Block) :
    owners (b :: outer) = owners outer + if b.braceless then 0 else 1 := by
  cases h : b.braceless <;> simp [owners, h]

/-- Number of braces that belong to a block. -/
def owned (braces : List Bool) : Nat := braces.count true

@[simp] theorem owned_cons_true (braces : List Bool) : owned (true :: braces) = owned braces + 1 := by
  simp [owned]

@[simp] theorem owned_cons_false (braces : List Bool) : owned (false :: braces) = owned braces := by
  simp [owned]

@[simp] theorem owned_replicate_false (n : Nat) (braces : List Bool) :
    owned (List.replicate n false ++ braces) = owned braces := by
  simp [owned, List.count_replicate]

/-- Every block that is not braceless has its brace. -/
structure Balanced (s : State) : Prop where
  settled : s.chainPending = false
  count : owned s.braces = owners s.blocks

/-- The innermost block has no brace, and all others have theirs. -/
structure Released (s : State) : Prop where
  settled : s.chainPending = false
  count : owned s.braces = owners s.blocks.tail

/-- What holds before the code `next`: all blocks have their braces, or `next` goes on with the chain
of the innermost block, which has none. -/
inductive Owned (next : Text) (s : State) : Prop
  | balanced (h : Balanced s)
  | pending (hp : s.chainPending = true) (hc : chainContinues s next = true)
      (count : owned s.braces = owners s.blocks.tail)

theorem Balanced.released {s : State} (h : Balanced s) (ht : s.topIsBraceless = true) :
    Released s := by
  refine ⟨h.settled, ?_⟩
  rw [h.count]
  cases hs : s.blocks with
  | nil => rfl
  | cons b outer =>
    rw [topIsBraceless_of_cons hs] at ht
    simp [owners_cons, ht]

theorem Owned.balanced_of_settled {next : Text} {s : State} (h : Owned next s)
    (hs : s.chainPending = false) : Balanced s := by
  cases h with
  | balanced h => exact h
  | pending hp => simp [hp] at hs

private theorem Owned.balanced_of_not_continues {next : Text} {s : State} (h : Owned next s)
    (hn : chainContinues s next = false) : Balanced s := by
  cases h with
  | balanced h => exact h
  | pending _ hc => simp [hc] at hn

@[simp] theorem chainContinues_nil (s : State) : chainContinues s [] = false := by
  rw [chainContinues_eq_any]
  cases s.blocks.head? <;> simp

/-! ### Ends of bodies -/

private theorem Released.close {s : State} (h : Released s) (st : Style) : Balanced (s.close st) :=
  ⟨by simpa using h.settled, by simpa using h.count⟩

private theorem Released.finishBodies {st : Style} {next : Text} {n : Nat} {s : State} (h : Released s)
    (hn : s.blocks.length ≤ n) : Owned next (finishBodies st next n s) := by
  induction n generalizing s with
  | zero =>
    have hs : s.blocks = [] := List.length_eq_zero_iff.mp (Nat.le_zero.mp hn)
    exact .balanced ⟨h.settled, by rw [Braces.finishBodies, h.count, hs]; rfl⟩
  | succ n ih =>
    rw [Braces.finishBodies]
    split
    · next hc => exact .pending rfl hc h.count
    · have hb := h.close st
      dsimp only
      split
      · next ht =>
        apply ih (hb.released ht)
        rw [State.blocks_close, List.length_tail]
        omega
      · exact .balanced hb

theorem Released.finishBody {s : State} (h : Released s) (st : Style) (next : Text) :
    Owned next (finishBody st next s) :=
  h.finishBodies (Nat.le_refl _)

theorem Released.finishBody_nil {s : State} (h : Released s) (st : Style) :
    Balanced (Braces.finishBody st [] s) :=
  (h.finishBody st []).balanced_of_not_continues (chainContinues_nil _)

private theorem blocks_closeUnfilledMany (st : Style) {n : Nat} {s : State} (hn : s.blocks.length ≤ n) :
    (closeUnfilledMany st n s).blocks = s.blocks.dropWhile (·.braceless) := by
  induction n generalizing s with
  | zero =>
    have hs : s.blocks = [] := List.length_eq_zero_iff.mp (Nat.le_zero.mp hn)
    simp [closeUnfilledMany, hs]
  | succ n ih =>
    rw [closeUnfilledMany]
    cases hs : s.blocks with
    | nil => simp [State.topIsBraceless, hs]
    | cons b outer =>
      rw [topIsBraceless_of_cons hs]
      cases hb : b.braceless with
      | false => simp [hs, hb]
      | true =>
        simp only [↓reduceIte]
        rw [ih (by rw [State.blocks_close, List.length_tail]; omega), State.blocks_close, hs]
        simp [hb]

private theorem frame_closeUnfilledMany (st : Style) (n : Nat) (s : State) :
    (closeUnfilledMany st n s).braces = s.braces ∧
      (closeUnfilledMany st n s).chainPending = s.chainPending := by
  induction n generalizing s with
  | zero => exact ⟨rfl, rfl⟩
  | succ n ih =>
    rw [closeUnfilledMany]
    split
    · simpa using ih (s.close st)
    · exact ⟨rfl, rfl⟩

/-- After the braceless blocks are gone, the innermost block is the one whose brace was closed. -/
theorem owners_tail_dropWhile_braceless (blocks : List Block) :
    owners (blocks.dropWhile (·.braceless)).tail = owners blocks - 1 := by
  induction blocks with
  | nil => rfl
  | cons b outer ih =>
    cases hb : b.braceless with
    | false => simp [hb, owners_cons]
    | true => simpa [hb, owners_cons] using ih

/-! ### Closing braces -/

private theorem Owned.dropPending {next : Text} {s : State} (h : Owned next s) (st : Style) :
    Balanced (dropPending st s) := by
  unfold Braces.dropPending
  cases h with
  | balanced h =>
    rw [if_neg (by simp [h.settled])]
    exact h
  | pending hp hc count =>
    rw [if_pos hp]
    have hr : Released { s with chainPending := false } := ⟨rfl, count⟩
    exact hr.finishBody_nil st

private theorem Balanced.closeUnfilled {s : State} {outer : List Bool} (h : Balanced s)
    (hb : s.braces = true :: outer) (st : Style) :
    Released (closeUnfilled st { s with braces := outer }) := by
  have hcount := h.count
  rw [hb, owned_cons_true] at hcount
  obtain ⟨hbraces, hpending⟩ := frame_closeUnfilledMany st s.blocks.length { s with braces := outer }
  refine ⟨hpending.trans h.settled, ?_⟩
  unfold Braces.closeUnfilled
  rw [hbraces, blocks_closeUnfilledMany st (Nat.le_refl _), owners_tail_dropWhile_braceless]
  change owned outer = owners s.blocks - 1
  omega

theorem Owned.closeBrace {next : Text} {s : State} (h : Owned next s) (st : Style) (line : Nat)
    (next' : Text) : Owned next' (closeBrace st line next' s) := by
  have hd := h.dropPending st
  unfold Braces.closeBrace
  dsimp only
  cases hb : (Braces.dropPending st s).braces with
  | nil => exact .balanced ⟨hd.settled, hd.count⟩
  | cons brace outer =>
    cases brace with
    | true => exact (hd.closeUnfilled hb st).finishBody st next'
    | false =>
      refine .balanced ⟨hd.settled, ?_⟩
      simpa [hb] using hd.count

theorem Owned.closeMany {following : Text} {s : State} (h : Owned following s) (st : Style)
    (line n : Nat) : Owned following (closeMany st line following n s) := by
  induction n generalizing s with
  | zero => exact h
  | succ n ih => exact ih (h.closeBrace st line following)

/-- The code before which a line stands once its leading braces are taken: its own, if any is left. -/
def upcoming (rest following : Text) : Text := if rest.isEmpty then following else rest

theorem Owned.closeLeading {following code : Text} {s : State} (h : Owned (upcoming code following) s)
    (st : Style) (line n : Nat) :
    Owned (upcoming (closeLeading st line following n code s).1 following)
      (closeLeading st line following n code s).2 := by
  induction n generalizing code s with
  | zero => exact h
  | succ n ih =>
    rw [Braces.closeLeading]
    cases after? "\x7d" code with
    | none => exact h
    | some rest => exact ih (h.closeBrace st line _)

/-! ### Entering a line -/

/-- What holds while a line is converted. A pending chain is left to the next line only when the line
was all structure, and a block is taken away only for code. -/
structure Entered (following : Text) (entry : Entry) (s : State) : Prop where
  owned : Owned following s
  settled : entry.code ≠ [] → s.chainPending = false
  taken : entry.code = [] → entry.taken = none

private theorem Balanced.entered {s : State} (h : Balanced s) (following code : Text) :
    Entered following { code } s :=
  ⟨.balanced h, fun _ => h.settled, fun _ => rfl⟩

private theorem balanced_of_closeRepeat? {st : Style} {rest : Text} {s t : State} (h : Released s)
    (ht : closeRepeat? st rest s = some t) : Balanced t := by
  unfold closeRepeat? at ht
  split at ht
  · next b outer cond hs hcond =>
    split at ht
    · obtain rfl := Option.some.inj ht
      have hcount := h.count
      rw [hs] at hcount
      exact ⟨by simpa using h.settled, by simpa using hcount⟩
    · simp at ht
  · simp at ht

private theorem take_of_accepts {s : State} {b : Block} {outer : List Block} (hs : s.blocks = b :: outer)
    {kind : Kind} (ha : b.kind.accepts kind = true) (line : Nat) :
    s.take kind line = (some b, { s with blocks := outer }) := by
  simp [State.take, hs, ha]

theorem exists_cons_of_chainContinues {s : State} {next : Text}
    (h : chainContinues s next = true) :
    ∃ b outer, s.blocks = b :: outer ∧ continues b next = true := by
  rw [chainContinues_eq_any] at h
  cases hs : s.blocks with
  | nil => simp [hs] at h
  | cons b outer => exact ⟨b, outer, rfl, by simpa [hs] using h⟩

private theorem entered_enterPending {rest following : Text} {s : State} (hr : Released s)
    (hc : chainContinues s rest = true) (hne : rest ≠ []) (st : Style) (line : Nat) :
    Entered following (enterPending st line following rest s).1
      (enterPending st line following rest s).2 := by
  unfold enterPending
  cases ht : closeRepeat? st rest s with
  | some t =>
    have hb := balanced_of_closeRepeat? hr ht
    dsimp only
    split
    · next htop => exact ⟨(hb.released htop).finishBody st following, by simp, by simp⟩
    · exact hb.entered following []
  | none =>
    cases hk : continuation? rest with
    | none => exact (hr.finishBody_nil st).entered following rest
    | some kind =>
      obtain ⟨b, outer, hs, hb⟩ := exists_cons_of_chainContinues hc
      have ha : b.kind.accepts kind = true := by simpa [continues, hk] using hb
      have hcount := hr.count
      rw [hs, List.tail_cons] at hcount
      simp only [take_of_accepts hs ha]
      exact ⟨.balanced ⟨hr.settled, hcount⟩, fun _ => hr.settled, fun h => absurd h hne⟩

private theorem Owned.checkOrphan {next : Text} {s : State} (h : Owned next s) (line : Nat) (rest : Text) :
    Owned next (checkOrphan line rest s) := by
  unfold Braces.checkOrphan
  split
  · cases h with
    | balanced h => exact .balanced ⟨h.settled, h.count⟩
    | pending hp hc count => exact .pending hp hc count
  · exact h

theorem chainPending_checkOrphan (line : Nat) (rest : Text) (s : State) :
    (checkOrphan line rest s).chainPending = s.chainPending := by
  unfold checkOrphan
  split <;> rfl

theorem Owned.enter {s : State} {line : Line} (h : Owned line.code s) (st : Style)
    (following : Text) :
    Entered following (enter st line following s).1 (enter st line following s).2 := by
  have hstart : Owned (upcoming (trimStart line.code) following) s := by
    cases h with
    | balanced h => exact .balanced h
    | pending hp hc count =>
      have hc' : chainContinues s (trimStart line.code) = true := by
        rw [chainContinues_eq_any] at hc ⊢
        simpa only [continues_trimStart] using hc
      -- an empty code continues nothing, so the code of this line is not empty
      have hne : trimStart line.code ≠ [] := by
        intro he
        simp [he] at hc'
      exact .pending hp (by simpa [upcoming, hne] using hc') count
  obtain ⟨rest, t, hr⟩ : ∃ rest t, Braces.closeLeading st line.number following
    (trimStart line.code).length (trimStart line.code) s = (rest, t) := ⟨_, _, rfl⟩
  have hl : Owned (upcoming rest following) t := by
    have hclosed := hstart.closeLeading st line.number (trimStart line.code).length
    rwa [hr] at hclosed
  rw [enter_of_closeLeading hr]
  by_cases hcond : (t.chainPending && !rest.isEmpty) = true
  · rw [if_pos hcond]
    simp only [Bool.and_eq_true, Bool.not_eq_true'] at hcond
    obtain ⟨hp, hne⟩ := hcond
    have hne' : rest ≠ [] := by
      intro he
      simp [he] at hne
    cases hl with
    | balanced hb => simp [hb.settled] at hp
    | pending _ hc count =>
      have hc' : chainContinues t rest = true := by simpa [upcoming, hne] using hc
      have hr : Released { t with chainPending := false } := ⟨rfl, count⟩
      exact entered_enterPending hr hc' hne' st line.number
  · rw [if_neg hcond]
    simp only [Bool.and_eq_true, Bool.not_eq_true', not_and, Bool.not_eq_false] at hcond
    by_cases he : rest = []
    · subst he
      have hf : Owned following t := hl
      exact ⟨hf.checkOrphan line.number [], by simp, by simp⟩
    · have hp : t.chainPending = false := by
        by_contra hp
        exact he (List.isEmpty_iff.mp (hcond (by simpa using hp)))
      have hb := hl.balanced_of_settled hp
      exact ⟨Owned.checkOrphan (.balanced hb) line.number rest,
        fun _ => (chainPending_checkOrphan _ _ _).trans hp, fun _ => rfl⟩

/-! ### Leaving a line -/

private theorem Balanced.openBlock {s : State} (h : Balanced s) (b : Block) (opens : Nat) :
    Balanced (openBlock b opens s) := by
  have hcount := h.count
  unfold Braces.openBlock
  split
  · refine ⟨h.settled, ?_⟩
    change owned (true :: s.braces) = owners ({ b with braceless := false } :: s.blocks)
    simp [owners_cons, hcount]
  · refine ⟨h.settled, ?_⟩
    change owned s.braces = owners ({ b with braceless := true } :: s.blocks)
    simp [owners_cons, hcount]

private theorem Balanced.placeOpened {s : State} (h : Balanced s) (st : Style) (entry : Entry)
    (opened : Option Block) : Balanced (placeOpened st entry opened s) := by
  unfold Braces.placeOpened
  cases opened with
  | some b => exact h.openBlock b _
  | none =>
    cases entry.taken with
    | none => exact h
    | some b =>
      have hr : Released (s.push b) := ⟨h.settled, h.count⟩
      exact hr.finishBody_nil st

private theorem Balanced.matchBraces {s : State} (h : Balanced s) (st : Style) (line : Nat)
    (following : Text) (unowned closes : Nat) :
    Owned following (matchBraces st line following unowned closes s) := by
  have hopened : Owned following { s with braces := List.replicate unowned false ++ s.braces } :=
    .balanced ⟨h.settled, by simpa using h.count⟩
  exact hopened.closeMany st line closes

private theorem Owned.endStatement {following : Text} {s : State} (h : Owned following s) (st : Style)
    (whole : Bool) : Owned following (endStatement st following whole s) := by
  unfold Braces.endStatement
  split
  · next hcond =>
    simp only [Bool.and_eq_true, Bool.not_eq_true'] at hcond
    obtain ⟨⟨_, hp⟩, htop⟩ := hcond
    exact ((h.balanced_of_settled hp).released htop).finishBody st following
  · exact h

private theorem Entered.leave {following : Text} {entry : Entry} {s : State} (h : Entered following entry s)
    (st : Style) (line : Line) {opened : Option Block} (ho : OpensOnCode entry opened) :
    Owned following (leave st line following entry opened s) := by
  by_cases he : entry.code = []
  · have hentry : entry = { code := [] } := by
      obtain ⟨code, taken⟩ := entry
      exact congrArg₂ Entry.mk he (h.taken he)
    rw [ho he, hentry, leave_of_code_nil]
    exact h.owned
  · have hb := h.owned.balanced_of_settled (h.settled he)
    rw [leave_eq]
    exact ((hb.placeOpened st entry opened).matchBraces st _ following _ _).endStatement st _

/-! ### Whole sessions -/

theorem Owned.sameNesting {next : Text} {s t : State} (h : Owned next s) (hs : s.SameNesting t) :
    Owned next t := by
  cases h with
  | balanced h =>
    exact .balanced ⟨hs.chainPending.trans h.settled, by rw [hs.braces, hs.blocks]; exact h.count⟩
  | pending hp hc count =>
    refine .pending (hs.chainPending.trans hp) ?_ (by rw [hs.braces, hs.blocks]; exact count)
    rwa [chainContinues_eq_any, hs.blocks, ← chainContinues_eq_any]

private theorem Entered.sameNesting {following : Text} {entry : Entry} {s t : State}
    (h : Entered following entry s) (hs : s.SameNesting t) : Entered following entry t :=
  ⟨h.owned.sameNesting hs, fun he => hs.chainPending.trans (h.settled he), h.taken⟩

theorem owned_of_reached {st : Style} {lines rest : List Line} {s : State}
    (h : Reached st .braces OpensOnCode lines rest s) :
    Owned (Line.nextCode rest) s := by
  induction h with
  | start hs =>
    have hinit : Owned (Line.nextCode lines) {} := .balanced ⟨rfl, rfl⟩
    exact hinit.sameNesting hs
  | pass _ hl hs ih =>
    rw [Line.nextCode_cons_of_not_code hl] at ih
    exact ih.sameNesting hs
  | @code line rest s entered converted entry opened _ hl he hs ho ih =>
    rw [Line.nextCode_cons_of_code hl] at ih
    have hentered := ih.enter st (Line.nextCode rest)
    rw [show enter st line (Line.nextCode rest) s = (entry, entered) from he] at hentered
    exact (hentered.sameNesting hs).leave st line ho

private theorem exists_code_of_chainContinues {s : State} {rest : List Line}
    (h : chainContinues s (Line.nextCode rest) = true) :
    ∃ line, rest.find? Line.isCode = some line ∧ chainContinues s line.code = true := by
  unfold Line.nextCode at h
  cases hf : rest.find? Line.isCode with
  | none => simp [hf] at h
  | some line => exact ⟨line, rfl, by simpa [hf] using h⟩

/-- Between any two lines the braces that belong to blocks are as many as the blocks that are not
braceless, less the innermost one if its chain is pending. A pending chain has an innermost block,
and the next code line goes on with it; so a branch takes only a block without a brace, and no chain
is pending at the end. -/
theorem braces_owned {st : Style} {lines rest : List Line} {s : State}
    (h : Reached st .braces OpensOnCode lines rest s) :
    s.braces.count true + (if s.chainPending && !s.topIsBraceless then 1 else 0) =
        s.blocks.countP (fun b => !b.braceless) ∧
      (s.chainPending = true → ∃ b outer line, s.blocks = b :: outer ∧
        rest.find? Line.isCode = some line ∧
          ((∃ kind, continuation? line.code = some kind ∧ b.kind.accepts kind = true) ∨
            b.kind = .repeatLoop ∧ Name.beginsWith "while" (trimStart line.code) = true)) ∧
      (∀ line following, rest = line :: following → line.isCode = true →
        ∀ b, (s.enter st .braces line following).1.taken = some b →
          (s.enter st .braces line following).2.braces.count true =
            (s.enter st .braces line following).2.blocks.countP (fun b => !b.braceless)) ∧
      (rest.find? Line.isCode = none → s.chainPending = false) := by
  have ho := owned_of_reached h
  refine ⟨?_, ?_, ?_, ?_⟩
  · cases ho with
    | balanced hb => simpa [hb.settled, owned, owners] using hb.count
    | pending hp hc count =>
      obtain ⟨b, outer, hs, _⟩ := exists_cons_of_chainContinues hc
      change owned s.braces + _ = owners s.blocks
      rw [hs, List.tail_cons] at count
      rw [topIsBraceless_of_cons hs, hs, owners_cons, hp, count]
      cases b.braceless <;> simp
  · intro hp
    cases ho with
    | balanced hb => simp [hb.settled] at hp
    | pending _ hc _ =>
      obtain ⟨line, hl, hline⟩ := exists_code_of_chainContinues hc
      obtain ⟨b, outer, hs, hb⟩ := exists_cons_of_chainContinues hline
      refine ⟨b, outer, line, hs, hl, ?_⟩
      unfold continues at hb
      cases hk : continuation? line.code with
      | some kind => exact .inl ⟨kind, rfl, by simpa [hk] using hb⟩
      | none => exact .inr (by simpa [hk] using hb)
  · rintro line following rfl hl b ht
    rw [Line.nextCode_cons_of_code hl] at ho
    have he := ho.enter st (Line.nextCode following)
    have hne : (enter st line (Line.nextCode following) s).1.code ≠ [] := by
      intro hcode
      have hnone := he.taken hcode
      rw [show (enter st line (Line.nextCode following) s).1.taken = some b from ht] at hnone
      simp at hnone
    exact (he.owned.balanced_of_settled (he.settled hne)).count
  · intro hn
    by_contra hp
    cases ho with
    | balanced hb => simp [hb.settled] at hp
    | pending _ hc _ =>
      obtain ⟨line, hl, _⟩ := exists_code_of_chainContinues hc
      simp [hn] at hl

/-- Braces and branches in an order that no program has. -/
theorem braces_owned_malformed :
    let lines : List Line :=
      [⟨1, .code, [], 0, "\x7d else if (b) \x7b", none⟩, ⟨2, .code, [], 0, "catch (E e) \x7b", none⟩,
       ⟨3, .code, [], 0, "\x7d else if (b) \x7b", none⟩, ⟨4, .code, [], 0, "\x7d", none⟩,
       ⟨5, .code, [], 0, "\x7d catch (Exception e) \x7b", none⟩]
    ∃ r : Run, Run.ofLines ⟨.braces, .cambridge⟩ lines = r.finish ⟨.braces, .cambridge⟩ ∧
      Reached .cambridge .braces OpensOnCode lines [] r.state ∧
      r.state.braces.count true + (if r.state.chainPending && !r.state.topIsBraceless then 1 else 0) =
        r.state.blocks.countP (fun b => !b.braceless) ∧ r.state.chainPending = false := by
  intro lines
  obtain ⟨r, hr, h⟩ := Run.exists_reached_ofLines ⟨.braces, .cambridge⟩ lines
  obtain ⟨hcount, _, _, hp⟩ := braces_owned h
  exact ⟨r, hr, h, hcount, hp rfl⟩

end Pseudocode.Braces
