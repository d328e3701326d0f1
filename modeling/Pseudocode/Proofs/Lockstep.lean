import Pseudocode.Proofs.BraceChains
import Pseudocode.Proofs.StatementTree

/-! # Nestings in step

The nesting is steered by an outline of the state: kinds, names and braces of the open blocks, columns
and pending chains. Neither the spelling nor the lines written so far play a part. So two states with
one outline, be it in two dialects, go through the same steps when they enter and leave a line. -/

namespace Pseudocode

/-- The kind of a block as far as nesting goes: whether a routine is a procedure shows only in its
header and its last line. -/
def Kind.outline : Kind → Kind
  | .procedure => .function
  | k => k

/-- A block without what only its header and its last line show. -/
def Block.outline (b : Block) : Block :=
  { kind := b.kind.outline, loopVariable := b.loopVariable, name := b.name, braceless := b.braceless }

/-- What steers the nesting. -/
structure Outline where
  blocks : List Block
  indents : List Nat
  braces : List Bool
  chainPending : Bool
  tryDepth : Option Nat
  deriving DecidableEq, Repr

def State.outline (s : State) : Outline :=
  ⟨s.blocks.map Block.outline, s.indents, s.braces, s.chainPending, s.tryDepth⟩

/-! ### What an outline tells -/

@[simp] theorem Kind.accepts_outline (k next : Kind) : k.outline.accepts next = k.accepts next := by
  cases k <;> cases next <;> rfl

@[simp] theorem Kind.isTryChain_outline (k : Kind) : k.outline.isTryChain = k.isTryChain := by
  cases k <;> rfl

theorem Kind.outline_eq_repeatLoop {k : Kind} : k.outline = .repeatLoop ↔ k = .repeatLoop := by
  cases k <;> decide

private theorem Kind.outline_eq_classBody {k : Kind} : k.outline = .classBody ↔ k = .classBody := by
  cases k <;> decide

@[simp] theorem openClass?_map_outline (blocks : List Block) :
    openClass? (blocks.map Block.outline) = openClass? blocks := by
  cases blocks with
  | nil => rfl
  | cons b outer => simp [openClass?, Block.outline, Kind.outline_eq_classBody]

@[simp] theorem State.innermostTry?_map_outline (blocks : List Block) :
    innermostTry? (blocks.map Block.outline) = innermostTry? blocks := by
  induction blocks with
  | nil => rfl
  | cons b outer ih => simp [innermostTry?_cons, ih, Block.outline]

@[simp] theorem Braces.continues_outline (b : Block) (next : Text) :
    continues b.outline next = continues b next := by
  simp [continues, Block.outline, Kind.outline_eq_repeatLoop]

theorem Block.braceless_of_outline {b c : Block} (h : b.outline = c.outline) :
    b.braceless = c.braceless := by
  injection h

theorem Block.outline_braceless_congr {b c : Block} (h : b.outline = c.outline) (braceless : Bool) :
    { b with braceless }.outline = { c with braceless }.outline :=
  congrArg (fun b : Block => { b with braceless }) h

theorem Block.isTryChain_of_outline {b c : Block} (h : b.outline = c.outline) :
    b.kind.isTryChain = c.kind.isTryChain := by
  rw [← Kind.isTryChain_outline, ← Kind.isTryChain_outline c.kind]
  exact congrArg (fun b => b.kind.isTryChain) h

theorem Block.isRepeat_of_outline {b c : Block} (h : b.outline = c.outline) :
    b.kind = .repeatLoop ↔ c.kind = .repeatLoop := by
  have hk : b.kind.outline = c.kind.outline := congrArg Block.kind h
  rw [← Kind.outline_eq_repeatLoop, hk, Kind.outline_eq_repeatLoop]

theorem Block.accepts_of_outline {b c : Block} (h : b.outline = c.outline) (next : Kind) :
    b.kind.accepts next = c.kind.accepts next := by
  have hk : b.kind.outline = c.kind.outline := congrArg Block.kind h
  rw [← Kind.accepts_outline, hk, Kind.accepts_outline]

section

variable {s t : State} (h : s.outline = t.outline)

include h

theorem State.blocks_of_outline : s.blocks.map Block.outline = t.blocks.map Block.outline :=
  congrArg Outline.blocks h

theorem State.length_blocks_of_outline : s.blocks.length = t.blocks.length := by
  simpa using congrArg List.length (State.blocks_of_outline h)

theorem State.indents_of_outline : s.indents = t.indents := congrArg Outline.indents h

theorem State.braces_of_outline : s.braces = t.braces := congrArg Outline.braces h

theorem State.chainPending_of_outline : s.chainPending = t.chainPending :=
  congrArg Outline.chainPending h

theorem State.tryDepth_of_outline : s.tryDepth = t.tryDepth := congrArg Outline.tryDepth h

theorem State.level_of_outline : s.level = t.level := by
  rw [State.level, State.level, State.indents_of_outline h]

/-- Two states with one outline have their innermost blocks alike, if they have any. -/
theorem State.top_of_outline :
    (s.blocks = [] ∧ t.blocks = []) ∨
      ∃ b c outer outer', s.blocks = b :: outer ∧ t.blocks = c :: outer' ∧
        b.outline = c.outline ∧ outer.map Block.outline = outer'.map Block.outline := by
  have hb := State.blocks_of_outline h
  cases hs : s.blocks with
  | nil =>
    rw [hs, List.map_nil, eq_comm, List.map_eq_nil_iff] at hb
    exact .inl ⟨rfl, hb⟩
  | cons b outer =>
    cases ht : t.blocks with
    | nil => simp [hs, ht] at hb
    | cons c outer' =>
      rw [hs, ht, List.map_cons, List.map_cons, List.cons.injEq] at hb
      exact .inr ⟨b, c, outer, outer', rfl, rfl, hb.1, hb.2⟩

theorem State.topIsBraceless_of_outline : s.topIsBraceless = t.topIsBraceless := by
  obtain ⟨hs, ht⟩ | ⟨b, c, _, _, hs, ht, hbc, _⟩ := State.top_of_outline h
  · rw [Braces.topIsBraceless_of_nil hs, Braces.topIsBraceless_of_nil ht]
  · rw [Braces.topIsBraceless_of_cons hs, Braces.topIsBraceless_of_cons ht]
    exact Block.braceless_of_outline hbc

theorem Braces.chainContinues_of_outline (next : Text) :
    chainContinues s next = chainContinues t next := by
  obtain ⟨hs, ht⟩ | ⟨b, c, _, _, hs, ht, hbc, _⟩ := State.top_of_outline h
  · simp [chainContinues_eq_any, hs, ht]
  · rw [chainContinues_of_cons hs, chainContinues_of_cons ht, ← continues_outline b,
      ← continues_outline c, hbc]

theorem State.outline_push_congr {b c : Block} (hbc : b.outline = c.outline) :
    (s.push b).outline = (t.push c).outline := by
  have hkind := Block.isTryChain_of_outline hbc
  simp only [State.outline, State.push, State.note, State.depth, List.map_cons, Outline.mk.injEq,
    List.cons.injEq]
  rw [hkind, State.length_blocks_of_outline h, State.tryDepth_of_outline h]
  exact ⟨⟨hbc, State.blocks_of_outline h⟩, State.indents_of_outline h, State.braces_of_outline h,
    State.chainPending_of_outline h, rfl⟩

theorem State.outline_close_congr (st st' : Style) :
    (s.close st).outline = (t.close st').outline := by
  obtain ⟨hs, ht⟩ | ⟨b, c, outer, outer', hs, ht, hbc, houter⟩ := State.top_of_outline h
  · simp only [State.close, hs, ht]
    exact h
  · obtain ⟨_, _, _, hs'⟩ := State.close_eq_of_cons st hs
    obtain ⟨_, _, _, ht'⟩ := State.close_eq_of_cons st' ht
    obtain ⟨_, _, hb⟩ := State.exists_settleTop_eq st b outer s
    obtain ⟨_, _, hc⟩ := State.exists_settleTop_eq st' c outer' t
    have hkind := Block.isTryChain_of_outline hbc
    have htry : State.innermostTry? outer = State.innermostTry? outer' := by
      rw [← State.innermostTry?_map_outline, houter, State.innermostTry?_map_outline]
    rw [hs', ht', hb, hc]
    simp only [State.outline, State.emit, State.note, Outline.mk.injEq]
    rw [hkind, htry, State.tryDepth_of_outline h]
    exact ⟨houter, State.indents_of_outline h, State.braces_of_outline h,
      State.chainPending_of_outline h, rfl⟩

end

/-! ### Steps of the nesting -/

/-- Events that comment on a line without opening or closing a block. -/
def Event.isRemark : Event → Bool
  | .chainContinues .. | .orphan .. | .bodyBegins .. | .bodyMissing .. | .misaligned ..
  | .strayBrace .. | .openedBraceless .. => true
  | _ => false

/-- A state after some remarks. -/
def State.Remarked (s s' : State) : Prop :=
  ∃ noted : List Event, s' = { s with log := noted ++ s.log } ∧ ∀ e ∈ noted, e.isRemark = true

theorem State.Remarked.outline {s s' : State} (h : s.Remarked s') : s'.outline = s.outline := by
  obtain ⟨_, rfl, _⟩ := h
  rfl

/-- Gives the innermost block the condition under which its repetition ends. -/
def State.setExit (st : Style) (cond : Text) (s : State) : State :=
  match s.blocks with
  | b :: outer =>
    { s with blocks :=
        { b with exitCondition := some (Program.exitCondition st s.symbols cond) } :: outer }
  | [] => s

theorem State.exists_setExit_eq (st : Style) (cond : Text) (s : State) :
    ∃ blocks, s.setExit st cond = { s with blocks := blocks } ∧
      blocks.map Block.outline = s.blocks.map Block.outline := by
  unfold State.setExit
  split
  · next b outer hs => exact ⟨_, rfl, by rw [hs]; rfl⟩
  · exact ⟨s.blocks, rfl, rfl⟩

private theorem State.outline_setExit (st : Style) (cond : Text) (s : State) :
    (s.setExit st cond).outline = s.outline := by
  obtain ⟨blocks, he, hb⟩ := State.exists_setExit_eq st cond s
  rw [he, State.outline, State.outline, hb]

/-- From `s` in one style and from `t` in another the same steps lead to two further states. A step
closes the innermost block, changes what the outline tells besides the blocks, or makes a remark. No
step opens a block. -/
inductive Lockstep (st st' : Style) (s t : State) : State → State → Prop
  | refl : Lockstep st st' s t s t
  | remark {s' t' : State} (h : Lockstep st st' s t s' t') {e e' : Event}
      (he : e.isRemark = true) (he' : e'.isRemark = true) :
      Lockstep st st' s t (s'.note e) (t'.note e')
  | close {s' t' : State} (h : Lockstep st st' s t s' t') :
      Lockstep st st' s t (s'.close st) (t'.close st')
  | exit {s' t' : State} (h : Lockstep st st' s t s' t') (cond : Text) :
      Lockstep st st' s t (s'.setExit st cond) (t'.setExit st' cond)
  | indents {s' t' : State} (h : Lockstep st st' s t s' t') (indents : List Nat) :
      Lockstep st st' s t { s' with indents } { t' with indents }
  | braces {s' t' : State} (h : Lockstep st st' s t s' t') (braces : List Bool) :
      Lockstep st st' s t { s' with braces } { t' with braces }
  | pending {s' t' : State} (h : Lockstep st st' s t s' t') (chainPending : Bool) :
      Lockstep st st' s t { s' with chainPending } { t' with chainPending }

namespace Lockstep

variable {st st' : Style} {s t s' t' s'' t'' : State}

theorem trans (h : Lockstep st st' s t s' t') (h' : Lockstep st st' s' t' s'' t'') :
    Lockstep st st' s t s'' t'' := by
  induction h' with
  | refl => exact h
  | remark _ he he' ih => exact ih.remark he he'
  | close _ ih => exact ih.close
  | exit _ cond ih => exact ih.exit cond
  | indents _ indents ih => exact ih.indents indents
  | braces _ braces ih => exact ih.braces braces
  | pending _ chainPending ih => exact ih.pending chainPending

theorem outline (h : Lockstep st st' s t s' t') (ho : s.outline = t.outline) :
    s'.outline = t'.outline := by
  induction h with
  | refl => exact ho
  | remark _ _ _ ih => exact ih
  | close _ ih => exact State.outline_close_congr ih st st'
  | exit _ cond ih =>
    rw [State.outline_setExit, State.outline_setExit]
    exact ih
  | indents _ indents ih =>
    exact congrArg (fun o : Outline => { o with indents }) ih
  | braces _ braces ih =>
    exact congrArg (fun o : Outline => { o with braces }) ih
  | pending _ chainPending ih =>
    exact congrArg (fun o : Outline => { o with chainPending }) ih

/-- Nothing is learnt about names on the way. -/
theorem symbols (h : Lockstep st st' s t s' t') : s'.symbols = s.symbols := by
  induction h with
  | refl => rfl
  | remark _ _ _ ih => exact ih
  | close _ ih => rw [State.symbols_close, ih]
  | exit _ cond ih =>
    obtain ⟨blocks, he, _⟩ := State.exists_setExit_eq st cond _
    rw [he]
    exact ih
  | indents _ _ ih => exact ih
  | braces _ _ ih => exact ih
  | pending _ _ ih => exact ih

end Lockstep

/-! ### Entering and leaving a line -/

/-- The same code is left for two states, and a block was taken away from both or from neither, after
steps that they made together. -/
inductive EnterAlike (st st' : Style) (s t : State) : Entry × State → Entry × State → Prop
  | kept {code : Text} {s' t' : State} (h : Lockstep st st' s t s' t') :
      EnterAlike st st' s t ({ code }, s') ({ code }, t')
  | taken {code : Text} {s' t' : State} (h : Lockstep st st' s t s' t') {b c : Block}
      {outer outer' : List Block} (hs : s'.blocks = b :: outer) (ht : t'.blocks = c :: outer') :
      EnterAlike st st' s t (⟨code, some b⟩, { s' with blocks := outer })
        (⟨code, some c⟩, { t' with blocks := outer' })

/-- Two states make steps together after the one block that they push: the block that the line opened,
with its brace settled, or else the block that was taken away. -/
inductive LeaveAlike (st st' : Style) (s t : State) :
    Option Block → Option Block → Option Block → Option Block → State → State → Prop
  | plain {s' t' : State} (h : Lockstep st st' s t s' t') :
      LeaveAlike st st' s t none none none none s' t'
  | opened {b c : Block} {taken taken' : Option Block} {braceless : Bool} {s₁ t₁ s' t' : State}
      (hs : s.Remarked s₁) (ht : t.Remarked t₁)
      (h : Lockstep st st' (s₁.push { b with braceless }) (t₁.push { c with braceless }) s' t') :
      LeaveAlike st st' s t (some b) (some c) taken taken' s' t'
  | restored {b c : Block} {s' t' : State} (h : Lockstep st st' (s.push b) (t.push c) s' t') :
      LeaveAlike st st' s t none none (some b) (some c) s' t'

section

variable {st st' : Style} {s t s' t' : State}

theorem EnterAlike.outline {p q : Entry × State} (h : EnterAlike st st' s t p q)
    (ho : s.outline = t.outline) :
    p.2.outline = q.2.outline ∧ p.1.code = q.1.code ∧
      p.1.taken.map Block.outline = q.1.taken.map Block.outline := by
  cases h with
  | kept h => exact ⟨h.outline ho, rfl, rfl⟩
  | @taken _ s' t' h b c outer outer' hs ht =>
    have hout := h.outline ho
    have hblocks := State.blocks_of_outline hout
    rw [hs, ht, List.map_cons, List.map_cons, List.cons.injEq] at hblocks
    refine ⟨?_, rfl, congrArg some hblocks.1⟩
    have houter : { s'.outline with blocks := outer.map Block.outline } =
        { t'.outline with blocks := outer'.map Block.outline } := by
      rw [hout, hblocks.2]
    exact houter

theorem EnterAlike.symbols {p q : Entry × State} (h : EnterAlike st st' s t p q) :
    p.2.symbols = s.symbols := by
  cases h with
  | kept h => exact h.symbols
  | taken h _ _ => exact h.symbols

variable {opened opened' taken taken' : Option Block}

theorem LeaveAlike.outline (h : LeaveAlike st st' s t opened opened' taken taken' s' t')
    (ho : s.outline = t.outline) (hopened : opened.map Block.outline = opened'.map Block.outline)
    (htaken : taken.map Block.outline = taken'.map Block.outline) : s'.outline = t'.outline := by
  cases h with
  | plain h => exact h.outline ho
  | @opened b c _ _ braceless s₁ t₁ _ _ hs ht h =>
    have hbc : b.outline = c.outline := Option.some.inj hopened
    have ho₁ : s₁.outline = t₁.outline := by rw [hs.outline, ht.outline, ho]
    exact h.outline (State.outline_push_congr ho₁ (Block.outline_braceless_congr hbc braceless))
  | restored h => exact h.outline (State.outline_push_congr ho (Option.some.inj htaken))

theorem LeaveAlike.symbols (h : LeaveAlike st st' s t opened opened' taken taken' s' t') :
    s'.symbols = s.symbols := by
  cases h with
  | plain h => exact h.symbols
  | opened hs _ h =>
    obtain ⟨_, rfl, _⟩ := hs
    exact h.symbols
  | restored h => exact h.symbols

end

theorem take_alike {st st' : Style} {s t s' t' : State} (h : Lockstep st st' s t s' t')
    (ho : s'.outline = t'.outline) (code : Text) (next : Kind) (line : Nat) :
    EnterAlike st st' s t (⟨code, (s'.take next line).1⟩, (s'.take next line).2)
      (⟨code, (t'.take next line).1⟩, (t'.take next line).2) := by
  obtain ⟨hs, ht⟩ | ⟨b, c, outer, outer', hs, ht, hbc, houter⟩ := State.top_of_outline ho
  · simp only [State.take, hs, ht]
    exact .kept (h.remark rfl rfl)
  · simp only [State.take, hs, ht]
    rw [Block.accepts_of_outline hbc]
    cases c.kind.accepts next with
    | true => exact .taken h hs ht
    | false => exact .kept (h.remark rfl rfl)

namespace Indentation

variable (st st' : Style) {s t : State}

private theorem lockstep_leaveBodiesUntil (stop : List Nat → Bool) (n : Nat) (h : s.outline = t.outline) :
    Lockstep st st' s t (leaveBodiesUntil st stop n s) (leaveBodiesUntil st' stop n t) := by
  induction n generalizing s t with
  | zero => exact .refl
  | succ n ih =>
    have hi := State.indents_of_outline h
    rw [leaveBodiesUntil, leaveBodiesUntil, hi]
    cases stop t.indents with
    | true => exact .refl
    | false =>
      have hleave : Lockstep st st' s t (leaveBody st s) (leaveBody st' t) := by
        unfold leaveBody
        rw [hi]
        exact (Lockstep.refl.indents _).close
      exact hleave.trans (ih (hleave.outline h))

private theorem lockstep_settleHeader (line : Line) (h : s.outline = t.outline) :
    Lockstep st st' s t (settleHeader st line s) (settleHeader st' line t) := by
  unfold settleHeader
  rw [State.length_blocks_of_outline h, State.indents_of_outline h, State.level_of_outline h]
  split
  · exact .refl
  split
  · exact (Lockstep.refl.remark rfl rfl).indents _
  have hmissing : Lockstep st st' s t ((s.note (.bodyMissing line.number)).close st)
      ((t.note (.bodyMissing line.number)).close st') :=
    (Lockstep.refl.remark rfl rfl).close
  obtain ⟨hs, ht⟩ | ⟨b, c, _, _, hs, ht, hbc, _⟩ := State.top_of_outline h
  · simpa [State.topKind, hs, ht] using hmissing
  · cases continuation? line.code with
    | none => simpa [State.topKind, hs, ht] using hmissing
    | some next =>
      simp only [State.topKind, hs, ht, List.head?_cons, Option.map_some]
      rw [Block.accepts_of_outline hbc]
      split
      · exact .refl
      · exact hmissing

private theorem lockstep_checkAligned (line : Line) (popped : Bool) (h : s.outline = t.outline) :
    Lockstep st st' s t (checkAligned line popped s) (checkAligned line popped t) := by
  unfold checkAligned
  rw [State.level_of_outline h]
  split
  · exact .remark .refl rfl rfl
  · exact .refl

theorem enter_alike (line : Line) (h : s.outline = t.outline) :
    EnterAlike st st' s t (enter st line s) (enter st' line t) := by
  have hsettle := lockstep_settleHeader st st' line h
  have hsettled := hsettle.outline h
  unfold enter
  cases continuation? line.code with
  | some kind =>
    simp only [State.indents_of_outline hsettled]
    have hleave := lockstep_leaveBodiesUntil st st' (chainReached line.columns)
      (settleHeader st' line t).indents.length hsettled
    exact take_alike (hsettle.trans hleave) (hleave.outline hsettled) line.code kind line.number
  | none =>
    simp only [State.indents_of_outline hsettled]
    have hleave := lockstep_leaveBodiesUntil st st' (bodyReached line.columns)
      (settleHeader st' line t).indents.length hsettled
    have hleft := hleave.outline hsettled
    rw [State.indents_of_outline hleft]
    exact .kept ((hsettle.trans hleave).trans (lockstep_checkAligned st st' line _ hleft))

theorem leave_alike {entry entry' : Entry} {opened opened' : Option Block}
    (htaken : entry.taken.map Block.outline = entry'.taken.map Block.outline)
    (hopened : opened.map Block.outline = opened'.map Block.outline) :
    LeaveAlike st st' s t opened opened' entry.taken entry'.taken (leave entry opened s)
      (leave entry' opened' t) := by
  unfold leave
  cases opened with
  | some b =>
    obtain ⟨c, rfl, hc⟩ := Option.map_eq_some_iff.mp hopened.symm
    have hflag : c = { c with braceless := b.braceless } := by
      rw [← Block.braceless_of_outline hc]
    have hpush : Lockstep st st' (s.push { b with braceless := b.braceless })
        (t.push { c with braceless := b.braceless }) (s.push b) (t.push c) := by
      rw [← hflag]
      exact .refl
    exact .opened ⟨[], rfl, by simp⟩ ⟨[], rfl, by simp⟩ hpush
  | none =>
    obtain rfl := Option.map_eq_none_iff.mp hopened.symm
    cases ht : entry.taken with
    | some b =>
      rw [ht] at htaken
      obtain ⟨c, hc, _⟩ := Option.map_eq_some_iff.mp htaken.symm
      rw [hc]
      exact .restored .refl
    | none =>
      rw [ht] at htaken
      rw [Option.map_eq_none_iff.mp htaken.symm]
      exact .plain .refl

end Indentation

namespace Braces

open Text

variable (st st' : Style) {s t : State}

private theorem lockstep_finishBodies (next : Text) (n : Nat) (h : s.outline = t.outline) :
    Lockstep st st' s t (finishBodies st next n s) (finishBodies st' next n t) := by
  induction n generalizing s t with
  | zero => exact .refl
  | succ n ih =>
    rw [finishBodies, finishBodies, chainContinues_of_outline h]
    cases chainContinues t next with
    | true => exact (Lockstep.refl.remark rfl rfl).pending true
    | false =>
      have hclose : Lockstep st st' s t (s.close st) (t.close st') := .close .refl
      have hclosed := hclose.outline h
      simp only [Bool.false_eq_true, ↓reduceIte, State.topIsBraceless_of_outline hclosed]
      split
      · exact hclose.trans (ih hclosed)
      · exact hclose

theorem lockstep_finishBody (next : Text) (h : s.outline = t.outline) :
    Lockstep st st' s t (finishBody st next s) (finishBody st' next t) := by
  unfold finishBody
  rw [State.length_blocks_of_outline h]
  exact lockstep_finishBodies st st' next _ h

private theorem lockstep_closeUnfilled (h : s.outline = t.outline) :
    Lockstep st st' s t (closeUnfilled st s) (closeUnfilled st' t) := by
  unfold closeUnfilled
  rw [State.length_blocks_of_outline h]
  generalize t.blocks.length = n
  induction n generalizing s t with
  | zero => exact .refl
  | succ n ih =>
    rw [closeUnfilledMany, closeUnfilledMany, State.topIsBraceless_of_outline h]
    have hclose : Lockstep st st' s t (s.close st) (t.close st') := .close .refl
    split
    · exact hclose.trans (ih (hclose.outline h))
    · exact .refl

private theorem lockstep_dropPending (h : s.outline = t.outline) :
    Lockstep st st' s t (dropPending st s) (dropPending st' t) := by
  unfold dropPending
  rw [State.chainPending_of_outline h]
  have hpending : Lockstep st st' s t { s with chainPending := false }
      { t with chainPending := false } := .pending .refl false
  split
  · exact hpending.trans (lockstep_finishBody st st' [] (hpending.outline h))
  · exact .refl

theorem lockstep_closeBrace (line : Nat) (next : Text) (h : s.outline = t.outline) :
    Lockstep st st' s t (closeBrace st line next s) (closeBrace st' line next t) := by
  have hdrop := lockstep_dropPending st st' h
  have hbraces := State.braces_of_outline (hdrop.outline h)
  unfold closeBrace
  simp only [hbraces]
  cases (dropPending st' t).braces with
  | nil => exact hdrop.remark rfl rfl
  | cons owned outer =>
    have houter := hdrop.braces outer
    cases owned with
    | false => exact houter
    | true =>
      have hunfilled := lockstep_closeUnfilled st st' (houter.outline h)
      have hbody := lockstep_finishBody st st' next (hunfilled.outline (houter.outline h))
      exact (houter.trans hunfilled).trans hbody

theorem lockstep_closeMany (line : Nat) (following : Text) (n : Nat) (h : s.outline = t.outline) :
    Lockstep st st' s t (closeMany st line following n s) (closeMany st' line following n t) := by
  induction n generalizing s t with
  | zero => exact .refl
  | succ n ih =>
    have hclose := lockstep_closeBrace st st' line following h
    exact hclose.trans (ih (hclose.outline h))

theorem lockstep_closeLeading (line : Nat) (following : Text) (n : Nat) (code : Text)
    (h : s.outline = t.outline) :
    (closeLeading st line following n code s).1 = (closeLeading st' line following n code t).1 ∧
      Lockstep st st' s t (closeLeading st line following n code s).2
        (closeLeading st' line following n code t).2 := by
  induction n generalizing code s t with
  | zero => exact ⟨rfl, .refl⟩
  | succ n ih =>
    rw [closeLeading, closeLeading]
    cases after? "\x7d" code with
    | none => exact ⟨rfl, .refl⟩
    | some rest =>
      have hclose := lockstep_closeBrace st st' line
        (if (trimStart rest).isEmpty then following else trimStart rest) h
      obtain ⟨hcode, hrest⟩ := ih (trimStart rest) (hclose.outline h)
      exact ⟨hcode, hclose.trans hrest⟩

private theorem closeRepeat?_of_cons {b : Block} {outer : List Block}
    (hs : s.blocks = b :: outer) (st : Style) (rest : Text) :
    closeRepeat? st rest s =
      if b.kind = .repeatLoop then
        (tailCondition? rest).map fun cond => (s.setExit st cond).close st
      else none := by
  unfold closeRepeat? State.setExit
  rw [hs]
  cases tailCondition? rest with
  | none => simp
  | some cond => rfl

/-- The tail of a repetition ends it in both states or in neither. -/
theorem closeRepeat?_alike (rest : Text) (h : s.outline = t.outline) :
    (closeRepeat? st rest s = none ∧ closeRepeat? st' rest t = none) ∨
      ∃ s' t', closeRepeat? st rest s = some s' ∧ closeRepeat? st' rest t = some t' ∧
        Lockstep st st' s t s' t' := by
  obtain ⟨hs, ht⟩ | ⟨b, c, outer, outer', hs, ht, hbc, _⟩ := State.top_of_outline h
  · exact .inl (by simp [closeRepeat?, hs, ht])
  · rw [closeRepeat?_of_cons hs, closeRepeat?_of_cons ht]
    simp only [Block.isRepeat_of_outline hbc]
    by_cases hk : c.kind = .repeatLoop
    · cases tailCondition? rest with
      | none => exact .inl (by simp)
      | some cond =>
        refine .inr ⟨(s.setExit st cond).close st, (t.setExit st' cond).close st', ?_, ?_, ?_⟩
        · simp [hk]
        · simp [hk]
        · exact (Lockstep.refl.exit cond).close
    · exact .inl (by simp [hk])

private theorem enterPending_alike {u v : State} (hl : Lockstep st st' u v s t) (h : s.outline = t.outline)
    (line : Nat) (following rest : Text) :
    EnterAlike st st' u v (enterPending st line following rest s)
      (enterPending st' line following rest t) := by
  unfold enterPending
  obtain ⟨hs, ht⟩ | ⟨s', t', hs, ht, hclose⟩ := closeRepeat?_alike st st' rest h
  · simp only [hs, ht]
    cases continuation? rest with
    | some kind => exact take_alike hl h rest kind line
    | none => exact .kept (hl.trans (lockstep_finishBody st st' [] h))
  · have hclosed := hclose.outline h
    simp only [hs, ht, State.topIsBraceless_of_outline hclosed]
    have hl' := hl.trans hclose
    split
    · exact .kept (hl'.trans (lockstep_finishBody st st' following hclosed))
    · exact .kept hl'

private theorem lockstep_checkOrphan (line : Nat) (rest : Text) :
    Lockstep st st' s t (checkOrphan line rest s) (checkOrphan line rest t) := by
  unfold checkOrphan
  cases continuation? rest with
  | none => exact .refl
  | some kind => exact .remark .refl rfl rfl

theorem enter_alike (line : Line) (following : Text) (h : s.outline = t.outline) :
    EnterAlike st st' s t (enter st line following s) (enter st' line following t) := by
  obtain ⟨hcode, hlead⟩ := lockstep_closeLeading st st' line.number following
    (trimStart line.code).length (trimStart line.code) h
  have hled := hlead.outline h
  unfold enter
  simp only [hcode, State.chainPending_of_outline hled]
  split
  · have hpending := hlead.pending false
    exact enterPending_alike st st' hpending (hpending.outline h) line.number following _
  · exact .kept (hlead.trans (lockstep_checkOrphan st st' line.number _))

private theorem lockstep_matchBraces (line : Nat) (following : Text) (unowned closes : Nat)
    (h : s.outline = t.outline) :
    Lockstep st st' s t (matchBraces st line following unowned closes s)
      (matchBraces st' line following unowned closes t) := by
  unfold matchBraces
  rw [State.braces_of_outline h]
  have hbraces : Lockstep st st' s t { s with braces := List.replicate unowned false ++ t.braces }
      { t with braces := List.replicate unowned false ++ t.braces } := .braces .refl _
  exact hbraces.trans (lockstep_closeMany st st' line following closes (hbraces.outline h))

private theorem lockstep_endStatement (following : Text) (whole : Bool) (h : s.outline = t.outline) :
    Lockstep st st' s t (endStatement st following whole s) (endStatement st' following whole t) := by
  unfold endStatement
  rw [State.chainPending_of_outline h, State.topIsBraceless_of_outline h]
  split
  · exact lockstep_finishBody st st' following h
  · exact .refl

/-- What follows once the block of a line is in its place. -/
theorem lockstep_rest (line : Nat) (following : Text) (unowned closes : Nat) (whole : Bool)
    {u v : State} (hl : Lockstep st st' u v s t) (h : s.outline = t.outline) :
    Lockstep st st' u v
      (endStatement st following whole (matchBraces st line following unowned closes s))
      (endStatement st' following whole (matchBraces st' line following unowned closes t)) := by
  have hm := lockstep_matchBraces st st' line following unowned closes h
  exact (hl.trans hm).trans (lockstep_endStatement st st' following whole (hm.outline h))

/-- A block is pushed after a remark or before its brace is put on the stack. -/
theorem openBlock_alike {b c : Block} (hbc : b.outline = c.outline) (opens : Nat)
    (h : s.outline = t.outline) :
    ∃ braceless s₁ t₁, s.Remarked s₁ ∧ t.Remarked t₁ ∧
      (s₁.push { b with braceless }).outline = (t₁.push { c with braceless }).outline ∧
      Lockstep st st' (s₁.push { b with braceless }) (t₁.push { c with braceless })
        (openBlock b opens s) (openBlock c opens t) := by
  unfold openBlock
  split
  · have hpush := State.outline_push_congr h (Block.outline_braceless_congr hbc false)
    refine ⟨false, s, t, ⟨[], rfl, by simp⟩, ⟨[], rfl, by simp⟩, hpush, ?_⟩
    simp only [State.braces_of_outline hpush]
    exact .braces .refl _
  · have hs : s.Remarked (s.note (.openedBraceless b.kind)) := ⟨[_], rfl, by simp [Event.isRemark]⟩
    have ht : t.Remarked (t.note (.openedBraceless c.kind)) := ⟨[_], rfl, by simp [Event.isRemark]⟩
    have ho : (s.note (.openedBraceless b.kind)).outline = (t.note (.openedBraceless c.kind)).outline :=
      h
    exact ⟨true, _, _, hs, ht,
      State.outline_push_congr ho (Block.outline_braceless_congr hbc true), .refl⟩

private theorem leave_alike (line : Line) (following : Text) {entry entry' : Entry}
    {opened opened' : Option Block} (h : s.outline = t.outline) (hcode : entry.code = entry'.code)
    (htaken : entry.taken.map Block.outline = entry'.taken.map Block.outline)
    (hopened : opened.map Block.outline = opened'.map Block.outline) :
    LeaveAlike st st' s t opened opened' entry.taken entry'.taken
      (leave st line following entry opened s) (leave st' line following entry' opened' t) := by
  rw [leave_eq, leave_eq, hcode]
  unfold placeOpened
  cases opened with
  | some b =>
    obtain ⟨c, rfl, hc⟩ := Option.map_eq_some_iff.mp hopened.symm
    obtain ⟨braceless, s₁, t₁, hs, ht, hpush, hplace⟩ :=
      openBlock_alike st st' hc.symm (braceCounts entry'.code).1 h
    rw [hcode]
    exact .opened hs ht (lockstep_rest st st' _ _ _ _ _ hplace (hplace.outline hpush))
  | none =>
    obtain rfl := Option.map_eq_none_iff.mp hopened.symm
    cases ht : entry.taken with
    | some b =>
      rw [ht] at htaken
      obtain ⟨c, hc, hbc⟩ := Option.map_eq_some_iff.mp htaken.symm
      have hpush := State.outline_push_congr h hbc.symm
      have hfinish := lockstep_finishBody st st' [] hpush
      rw [hc]
      exact .restored (lockstep_rest st st' _ _ _ _ _ hfinish (hfinish.outline hpush))
    | none =>
      rw [ht] at htaken
      rw [Option.map_eq_none_iff.mp htaken.symm]
      exact .plain (lockstep_rest st st' _ _ _ _ _ .refl h)

end Braces

namespace State

variable (st st' : Style) {s t : State}

/-- Two states with one outline enter a line alike. -/
theorem enter_alike (conv : Convention) (line : Line) {following following' : List Line}
    (hf : Line.nextCode following = Line.nextCode following') (h : s.outline = t.outline) :
    EnterAlike st st' s t (s.enter st conv line following) (t.enter st' conv line following') := by
  cases conv with
  | indentation => exact Indentation.enter_alike st st' line h
  | braces =>
    unfold State.enter
    rw [hf]
    exact Braces.enter_alike st st' line _ h

/-- Two states with one outline leave a line alike, if the blocks taken and opened are alike. -/
theorem leave_alike (conv : Convention) (line : Line) {following following' : List Line}
    (hf : Line.nextCode following = Line.nextCode following') {entry entry' : Entry}
    {opened opened' : Option Block} (h : s.outline = t.outline) (hcode : entry.code = entry'.code)
    (htaken : entry.taken.map Block.outline = entry'.taken.map Block.outline)
    (hopened : opened.map Block.outline = opened'.map Block.outline) :
    LeaveAlike st st' s t opened opened' entry.taken entry'.taken
      (s.leave st conv line following entry opened)
      (t.leave st' conv line following' entry' opened') := by
  cases conv with
  | indentation => exact Indentation.leave_alike st st' htaken hopened
  | braces =>
    unfold State.leave
    rw [hf]
    exact Braces.leave_alike st st' line _ h hcode htaken hopened

end State

end Pseudocode
