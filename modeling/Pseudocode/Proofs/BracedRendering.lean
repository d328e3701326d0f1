import Pseudocode.Proofs.BracedLayout

/-! # Braced programs are rendered as trees

For every tree of statements and every layout of it with braces, taking the lines one after another
writes the rendering of the tree. A body that ends closes its block at once, unless the next code
line goes on with its chain; so what holds after a statement depends on the code that follows it
(`Ended`), and that code must not be meant for the end of the statement (`Apart`). -/

namespace Pseudocode.Braces

open Text Program

/-! ### Blocks and braces -/

/-- The stacks hold the given blocks and braces, and `out` has been written. -/
structure Standing (symbols : Symbols) (blocks : List Block) (braces : List Bool) (pending : Bool)
    (out : List Text) (s : State) : Prop where
  symbols : s.symbols = symbols
  blocks : s.blocks = blocks
  braces : s.braces = braces
  pending : s.chainPending = pending
  output : s.output = out
  tryAligned : s.TryAligned
  final : ∀ b ∈ s.blocks, b.routine = none

section

variable {st : Style} {symbols : Symbols} {braces : List Bool} {out : List Text} {s : State}

/-- A statement has ended inside some blocks before the code `next`: braceless blocks of which it was
the body have ended with it, up to one whose chain goes on. -/
def Ended (st : Style) (symbols : Symbols) (next : Text) (braces : List Bool) :
    List Block → List Text → State → Prop
  | [], out, s => Standing symbols [] braces false out s
  | b :: outer, out, s =>
    if b.braceless then
      if continues b next then Standing symbols (b :: outer) braces true out s
      else Ended st symbols next braces outer (out ++ [b.closingLine st outer.length]) s
    else Standing symbols (b :: outer) braces false out s

/-- The body of `b` has ended before the code `next`. -/
def BodyEnded (st : Style) (symbols : Symbols) (next : Text) (braces : List Bool) (b : Block)
    (outer : List Block) (out : List Text) (s : State) : Prop :=
  if continues b next then Standing symbols (b :: outer) braces true out s
  else Ended st symbols next braces outer (out ++ [b.closingLine st outer.length]) s

theorem Standing.close {b : Block} {outer : List Block}
    (h : Standing symbols (b :: outer) braces false out s) (st : Style) :
    Standing symbols outer braces false (out ++ [b.closingLine st outer.length]) (s.close st) := by
  have hblocks : (s.close st).blocks = outer := by rw [State.blocks_close, h.blocks, List.tail_cons]
  have hfinal := h.final
  rw [h.blocks] at hfinal
  refine ⟨by simp [h.symbols], hblocks, by simp [h.braces], by simp [h.pending], ?_,
    h.tryAligned.close st, ?_⟩
  · rw [h.tryAligned.output_close st h.blocks (hfinal b (by simp)), h.output]
  · rw [hblocks]
    exact fun c hc => hfinal c (List.mem_cons_of_mem b hc)

theorem Standing.finishBody {b : Block} {outer : List Block}
    (h : Standing symbols (b :: outer) braces false out s) (st : Style) (next : Text) :
    BodyEnded st symbols next braces b outer out (finishBody st next s) := by
  induction outer generalizing b out s with
  | nil =>
    unfold BodyEnded
    split
    · next hc =>
      rw [finishBody_of_continues h.blocks st hc]
      exact ⟨h.symbols, h.blocks, h.braces, rfl, h.output, h.tryAligned, h.final⟩
    · next hc =>
      have hclosed := h.close st
      rw [finishBody_of_not_continues h.blocks st (by simpa using hc),
        topIsBraceless_of_nil hclosed.blocks]
      exact hclosed
  | cons c outer ih =>
    unfold BodyEnded
    split
    · next hc =>
      rw [finishBody_of_continues h.blocks st hc]
      exact ⟨h.symbols, h.blocks, h.braces, rfl, h.output, h.tryAligned, h.final⟩
    · next hc =>
      have hclosed := h.close st
      rw [finishBody_of_not_continues h.blocks st (by simpa using hc),
        topIsBraceless_of_cons hclosed.blocks, Ended]
      split
      · exact ih hclosed
      · exact hclosed

theorem Standing.endStatement {blocks : List Block}
    (h : Standing symbols blocks braces false out s) (st : Style) (next : Text) :
    Ended st symbols next braces blocks out (endStatement st next true s) := by
  cases blocks with
  | nil =>
    unfold Braces.endStatement
    rw [topIsBraceless_of_nil h.blocks, Bool.and_false]
    exact h
  | cons b outer =>
    unfold Braces.endStatement Ended
    rw [topIsBraceless_of_cons h.blocks, h.pending]
    cases hb : b.braceless with
    | true => exact h.finishBody st next
    | false => exact h

theorem Ended.standing {next : Text} {blocks : List Block}
    (h : Ended st symbols next braces blocks out s)
    (hb : blocks.head?.any (·.braceless) = false) : Standing symbols blocks braces false out s := by
  cases blocks with
  | nil => exact h
  | cons b outer =>
    have hb' : b.braceless = false := by simpa using hb
    rwa [Ended, hb', if_neg Bool.false_ne_true] at h

/-! ### Leaving a line -/

theorem Standing.emitAll {blocks : List Block} {pending : Bool}
    (h : Standing symbols blocks braces pending out s) (texts : List Text) :
    Standing symbols blocks braces pending (out ++ texts) (s.emitAll texts) :=
  ⟨h.symbols, h.blocks, h.braces, h.pending, by rw [State.emitAll, h.output], h.tryAligned, h.final⟩

theorem closeMany_replicate (hs : s.chainPending = false) (st : Style) (line : Nat)
    (following : Text) (n : Nat) :
    closeMany st line following n { s with braces := List.replicate n false ++ s.braces } = s := by
  induction n with
  | zero => rfl
  | succ n ih =>
    rw [closeMany, closeBrace, dropPending, if_neg (by simp [hs])]
    exact ih

theorem Standing.leave_statement {blocks : List Block}
    (h : Standing symbols blocks braces false out s) (st : Style) (line : Line) (next : Text)
    {code : Text} (hne : code ≠ []) (hcount : (braceCounts code).1 = (braceCounts code).2) :
    Ended st symbols next braces blocks out (leave st line next { code } none s) := by
  have hwhole : (!List.isEmpty code) = true := by simpa using hne
  rw [leave_eq]
  simp only [hcount, hwhole, placeOpened, matchBraces, closeMany_replicate h.pending,
    Option.isNone_none, Option.isSome_none, Bool.and_self, decide_true, Bool.false_eq_true,
    ↓reduceIte]
  exact h.endStatement st next

/-- A header leaves its block open, and no brace but its own. -/
theorem leave_header (st : Style) (line : Line) (next : Text) {code : Text} (taken : Option Block)
    (b : Block) (s : State) {n : Nat} (hcount : braceCounts code = (n, 0)) (hn : n ≤ 1) :
    leave st line next { code, taken } (some b) s = openBlock b n s := by
  have hunowned : n - 1 = 0 := by omega
  rw [leave_eq]
  simp only [hcount, hunowned, placeOpened, matchBraces, endStatement, closeMany,
    Option.isNone_some, Option.isSome_some, Bool.false_and, Bool.false_eq_true, ↓reduceIte,
    List.replicate_zero, List.nil_append]

/-- A block as a line opens it, with a brace of its own or without. -/
def opened (braced : Bool) (b : Block) : Block := { b with braceless := !braced }

/-- The braces after a block was opened. -/
def withBrace (braced : Bool) (braces : List Bool) : List Bool :=
  if braced then true :: braces else braces

private theorem openBlock_eq (b : Block) (braced : Bool) (s : State) :
    ∃ log, openBlock b braced.toNat s =
      { s.push (opened braced b) with braces := withBrace braced s.braces, log := log } := by
  cases braced with
  | false => exact ⟨_, rfl⟩
  | true => exact ⟨_, rfl⟩

theorem standing_openBlock {blocks : List Block} {b : Block} {braced : Bool}
    (hsymbols : s.symbols = symbols) (hblocks : s.blocks = blocks) (hbraces : s.braces = braces)
    (hpending : s.chainPending = false) (hout : s.output = out)
    (htry : (s.push (opened braced b)).TryAligned) (hfinal : ∀ c ∈ s.blocks, c.routine = none)
    (hb : b.routine = none) :
    Standing symbols (opened braced b :: blocks) (withBrace braced braces) false out
      (openBlock b braced.toNat s) := by
  obtain ⟨log, he⟩ := openBlock_eq b braced s
  rw [he]
  refine ⟨hsymbols, congrArg (_ :: ·) hblocks, by rw [← hbraces], hpending, hout, htry, ?_⟩
  intro c hc
  rcases List.mem_cons.mp hc with rfl | hc
  · exact hb
  · exact hfinal c hc

/-! ### Entering a line -/

private theorem after?_brace_of_ne {code : Text} (h : code.head? ≠ some '}') : after? "\x7d" code = none := by
  cases code with
  | nil => rfl
  | cons c code =>
    have hc : '}' ≠ c := by
      rintro rfl
      simp at h
    simp [after?, hc]

theorem after?_brace_cons (code : Text) : after? "\x7d" ('}' :: code) = some code := by
  simp [after?]

theorem closeLeading_of_ne {code : Text} (h : code.head? ≠ some '}') (st : Style) (line : Nat)
    (following : Text) (n : Nat) (s : State) :
    closeLeading st line following n code s = (code, s) := by
  cases n with
  | zero => rfl
  | succ n => rw [closeLeading, after?_brace_of_ne h]

theorem head?_ne_of_continuation? {code : Text} {kind : Kind} (h : continuation? code = some kind)
    (ht : trimStart code = code) : code.head? ≠ some '}' := by
  intro hb
  cases code with
  | nil => simp at hb
  | cons c code =>
    obtain rfl : c = '}' := by simpa using hb
    rw [continuation?_of_brace ht] at h
    simp at h

theorem head?_ne_of_braceCounts {code : Text} {n : Nat} (h : braceCounts code = (n, 0)) :
    code.head? ≠ some '}' := by
  intro hb
  cases code with
  | nil => simp at hb
  | cons c code =>
    obtain rfl : c = '}' := by simpa using hb
    have hcount : (braceCounts ('}' :: code)).2 = 0 := by rw [h]
    simp [braceCounts, unquoted, roles, rolesFrom, Mode.role, isQuote] at hcount

/-- A line that neither closes nor continues anything is converted as it is. -/
theorem enter_plain (hs : s.chainPending = false) (st : Style) {line : Line} {code : Text}
    (hl : trimStart line.code = code) (hb : code.head? ≠ some '}') (hk : continuation? code = none)
    (following : Text) : enter st line following s = ({ code }, s) := by
  have hlead := closeLeading_of_ne hb st line.number following code.length s
  rw [← hl] at hlead
  rw [enter_of_closeLeading hlead, hl]
  simp only [hs, Bool.false_and, Bool.false_eq_true, ↓reduceIte, checkOrphan, hk]

theorem Standing.closeBrace {b : Block} {outer : List Block}
    (h : Standing symbols (b :: outer) (true :: braces) false out s) (hb : b.braceless = false)
    (st : Style) (line : Nat) (next : Text) :
    BodyEnded st symbols next braces b outer out (closeBrace st line next s) := by
  have hpopped : Standing symbols (b :: outer) braces false out { s with braces := braces } :=
    ⟨h.symbols, h.blocks, rfl, h.pending, h.output, h.tryAligned, h.final⟩
  have htop : State.topIsBraceless { s with braces := braces } = false := by
    rw [topIsBraceless_of_cons hpopped.blocks, hb]
  rw [Braces.closeBrace, dropPending, if_neg (by simp [h.pending])]
  simp only [h.braces, ↓reduceIte]
  rw [closeUnfilled_of_not_braceless htop]
  exact hpopped.finishBody st next

/-- The body of `b` is over but for its brace, which is `joined` to the next line, or it has ended
and the chain is pending. -/
def Awaiting (symbols : Symbols) (joined : Bool) (b : Block) (outer : List Block)
    (braces : List Bool) (out : List Text) (s : State) : Prop :=
  if joined then b.braceless = false ∧ Standing symbols (b :: outer) (true :: braces) false out s
  else Standing symbols (b :: outer) braces true out s

/-- Joined or not, the code that goes on with a chain meets it pending. -/
theorem Awaiting.closeLeading {joined : Bool} {b : Block} {outer : List Block}
    (h : Awaiting symbols joined b outer braces out s) {line : Line} {code : Text}
    (hl : Says joined line code) (hne : code ≠ []) (hb : code.head? ≠ some '}')
    (hc : continues b code = true) (st : Style) (following : Text) :
    ∃ t, closeLeading st line.number following (trimStart line.code).length (trimStart line.code) s =
      (code, t) ∧ Standing symbols (b :: outer) braces true out t := by
  cases joined with
  | false =>
    have hcode : trimStart line.code = code := hl.2
    exact ⟨s, by rw [hcode, closeLeading_of_ne hb], h⟩
  | true =>
    obtain ⟨hbraceless, hs⟩ : b.braceless = false ∧
      Standing symbols (b :: outer) (true :: braces) false out s := h
    obtain ⟨after, hafter, hcode⟩ : ∃ after, trimStart line.code = '}' :: after ∧
      trimStart after = code := hl.2
    have hended := hs.closeBrace hbraceless st line.number code
    rw [BodyEnded, if_pos hc] at hended
    refine ⟨closeBrace st line.number code s, ?_, hended⟩
    have hempty : List.isEmpty code = false := by simpa using hne
    rw [hafter, List.length_cons, Braces.closeLeading, after?_brace_cons]
    simp only [hcode, hempty, Bool.false_eq_true, ↓reduceIte]
    exact closeLeading_of_ne hb st line.number following after.length _

theorem Awaiting.enter {joined : Bool} {b : Block} {outer : List Block}
    (h : Awaiting symbols joined b outer braces out s) {line : Line} {code : Text}
    (hl : Says joined line code) (hne : code ≠ []) (hb : code.head? ≠ some '}')
    (hc : continues b code = true) (st : Style) (following : Text) :
    ∃ t, enter st line following s = enterPending st line.number following code t ∧
      Standing symbols (b :: outer) braces false out t := by
  obtain ⟨t, ht, hs⟩ := h.closeLeading hl hne hb hc st following
  refine ⟨{ t with chainPending := false }, ?_, hs.symbols, hs.blocks, hs.braces, rfl, hs.output,
    hs.tryAligned, hs.final⟩
  have hempty : List.isEmpty code = false := by simpa using hne
  rw [enter_of_closeLeading ht]
  simp only [hs.pending, hempty, Bool.not_false, Bool.and_self, ↓reduceIte]

private theorem closeRepeat?_of_ne {b : Block} {outer : List Block} (hs : s.blocks = b :: outer)
    (hb : b.kind ≠ .repeatLoop) (st : Style) (code : Text) : closeRepeat? st code s = none := by
  unfold closeRepeat?
  rw [hs]
  cases tailCondition? code with
  | none => rfl
  | some cond => simp [hb]

/-- A branch takes the block before it away. -/
theorem Awaiting.enter_branch {joined : Bool} {b : Block} {outer : List Block}
    (h : Awaiting symbols joined b outer braces out s) {line : Line} {code : Text}
    (hl : Says joined line code) {kind : Kind} (hk : continuation? code = some kind)
    (ha : b.kind.accepts kind = true) (st : Style) (following : Text) :
    ∃ t, Braces.enter st line following s =
        ({ code, taken := some b }, { t with blocks := outer }) ∧
      Standing symbols (b :: outer) braces false out t := by
  have hne : code ≠ [] := by
    intro he
    simp [he] at hk
  have hc : continues b code = true := by rw [continues, hk]; exact ha
  obtain ⟨t, he, ht⟩ := h.enter hl hne (head?_ne_of_continuation? hk hl.trimStart_eq) hc st following
  refine ⟨t, ?_, ht⟩
  rw [he, enterPending, closeRepeat?_of_ne ht.blocks (ne_repeatLoop_of_accepts ha).1, hk]
  simp [State.take, ht.blocks, ha]

/-- A closing brace on a line of its own ends the body of its block. -/
theorem Standing.enter_brace {b : Block} {outer : List Block}
    (h : Standing symbols (b :: outer) (true :: braces) false out s) (hb : b.braceless = false)
    {line : Line} (hl : Says true line []) (st : Style) (following : Text) :
    ∃ t, enter st line following s = ({ code := [] }, t) ∧
      BodyEnded st symbols following braces b outer out t := by
  obtain ⟨after, hafter, hcode⟩ : ∃ after, trimStart line.code = '}' :: after ∧
    trimStart after = [] := hl.2
  refine ⟨Braces.closeBrace st line.number following s, ?_, h.closeBrace hb st line.number following⟩
  have hlead : closeLeading st line.number following (trimStart line.code).length
      (trimStart line.code) s = ([], Braces.closeBrace st line.number following s) := by
    rw [hafter, List.length_cons, closeLeading, after?_brace_cons]
    simp only [hcode, List.isEmpty_nil, ↓reduceIte]
    exact closeLeading_of_ne (by simp) st line.number following after.length _
  rw [enter_of_closeLeading hlead]
  simp [checkOrphan]

/-- The tail of a loop closes it with the condition under which it is left. -/
theorem Standing.closeRepeat? {b : Block} {outer : List Block}
    (h : Standing symbols (b :: outer) braces false out s) (hb : b.kind = .repeatLoop)
    {code cond : Text} (ht : tailCondition? code = some cond) (st : Style) :
    ∃ t, closeRepeat? st code s = some t ∧
      Standing symbols outer braces false
        (out ++ [{ b with exitCondition := some (exitCondition st symbols cond) }.closingLine st
          outer.length]) t := by
  let b' : Block := { b with exitCondition := some (exitCondition st symbols cond) }
  have htry : State.TryAligned { s with blocks := b' :: outer } := by
    have hs := h.tryAligned
    unfold State.TryAligned at hs ⊢
    rw [h.blocks, State.innermostTry?_cons] at hs
    rw [State.innermostTry?_cons]
    exact hs
  have hfinal : ∀ c ∈ b' :: outer, c.routine = none := by
    have hs := h.final
    rw [h.blocks] at hs
    intro c hc
    rcases List.mem_cons.mp hc with rfl | hc
    · exact hs b (by simp)
    · exact hs c (by simp [hc])
  have hexit : Standing symbols (b' :: outer) braces false out { s with blocks := b' :: outer } :=
    ⟨h.symbols, rfl, h.braces, h.pending, h.output, htry, hfinal⟩
  refine ⟨_, ?_, hexit.close st⟩
  unfold Braces.closeRepeat?
  rw [h.blocks, ht]
  simp only [b', ← h.symbols]
  exact if_pos hb

theorem Awaiting.enter_tail {joined : Bool} {b : Block} {outer : List Block}
    (h : Awaiting symbols joined b outer braces out s) (hb : b.kind = .repeatLoop) {line : Line}
    {code cond : Text} (hl : Says joined line code) (ht : IsTail cond code) (st : Style)
    (following : Text) :
    ∃ t, Braces.enter st line following s = ({ code := [] }, t) ∧
      Ended st symbols following braces outer
        (out ++ [{ b with exitCondition := some (exitCondition st symbols cond) }.closingLine st
          outer.length]) t := by
  obtain ⟨rest, hrest⟩ := ht.exists_cons
  obtain ⟨t, he, hs⟩ := h.enter hl (by simp [hrest]) (by simp [hrest]) (ht.continues hb) st following
  obtain ⟨u, hu, hclosed⟩ := hs.closeRepeat? hb ht.tailCondition? st
  refine ⟨endStatement st following true u, ?_, hclosed.endStatement st following⟩
  rw [he, enterPending, hu]
  simp only [endStatement, hclosed.pending, Bool.not_false, Bool.true_and]

/-! ### Lines of a program -/

variable {convert : Line → Text → Conversion}

theorem trackLine_of_code {line : Line} {following : List Line} {t : State} {code : Text}
    {taken opens : Option Block} {written : List Text}
    (he : enter st line (Line.nextCode following) s = ({ code, taken }, t)) (hne : code ≠ [])
    (hc : convert line code = ⟨written, opens⟩) :
    trackLine st .braces convert line following s =
      leave st line (Line.nextCode following) { code, taken } opens
        (t.emitAll (st.indented t.depth written)) :=
  trackLine_eq (show s.enter st .braces line following = _ from he) hne hc

theorem trackLine_of_structure {line : Line} {following : List Line} {t : State}
    (he : enter st line (Line.nextCode following) s = ({ code := [] }, t)) :
    trackLine st .braces convert line following s = t := by
  have hentry : s.enter st .braces line following = ({ code := [] }, t) := he
  unfold trackLine
  rw [hentry]
  simp only [List.isEmpty_nil, ↓reduceIte, Style.indented, List.map_nil]
  rw [State.emitAll, List.append_nil]
  exact leave_of_code_nil st line (Line.nextCode following) t

theorem Standing.depth {blocks : List Block} {pending : Bool}
    (h : Standing symbols blocks braces pending out s) : s.depth = blocks.length := by
  rw [State.depth, h.blocks]

theorem Standing.track_simple {blocks : List Block}
    (h : Standing symbols blocks braces false out s) {p : Phrase} (hw : (Stmt.simple p).Braceable)
    {line : Line} (hl : Says false line p.code) (hc : convert line p.code = ⟨p.written, none⟩)
    (st : Style) (following : List Line) :
    Ended st symbols (Line.nextCode following) braces blocks
      (out ++ st.indented blocks.length p.written)
      (trackLine st .braces convert line following s) := by
  obtain ⟨hne, hb, hk, hcount⟩ := hw
  rw [trackLine_of_code (enter_plain h.pending st hl.2 hb hk _) hne hc, h.depth]
  exact (h.emitAll _).leave_statement st line _ hne hcount

theorem Standing.track_header {blocks : List Block}
    (h : Standing symbols blocks braces false out s) {p : Header} {body : Suite}
    (hw : body.Braceable p) (hk : continuation? p.code = none) (hr : p.block.routine = none)
    {line : Line} (hl : Says false line p.code)
    (hc : convert line p.code = ⟨p.written, some p.block⟩) (st : Style) (following : List Line) :
    Standing symbols (opened body.braced p.block :: blocks) (withBrace body.braced braces) false
      (out ++ st.indented blocks.length p.written)
      (trackLine st .braces convert line following s) := by
  obtain ⟨hne, hcount⟩ := hw.header
  have hb := head?_ne_of_braceCounts hcount
  rw [trackLine_of_code (enter_plain h.pending st hl.2 hb hk _) hne hc, h.depth,
    leave_header st line _ none p.block _ hcount (Bool.toNat_le _)]
  have hout := h.emitAll (st.indented blocks.length p.written)
  exact standing_openBlock hout.symbols hout.blocks hout.braces hout.pending hout.output
    (hout.tryAligned.push _) hout.final hr

theorem Awaiting.track_branch {joined : Bool} {b : Block} {outer : List Block}
    (h : Awaiting symbols joined b outer braces out s) {p : Header} {body : Suite}
    (hw : body.Braceable p) (hk : continuation? p.code = some p.block.kind)
    (ha : b.kind.accepts p.block.kind = true) (hr : p.block.routine = none) {line : Line}
    (hl : Says joined line p.code) (hc : convert line p.code = ⟨p.written, some p.block⟩)
    (st : Style) (following : List Line) :
    Standing symbols (opened body.braced p.block :: outer) (withBrace body.braced braces) false
      (out ++ st.indented outer.length p.written)
      (trackLine st .braces convert line following s) := by
  obtain ⟨hne, hcount⟩ := hw.header
  obtain ⟨t, he, ht⟩ := h.enter_branch hl hk ha st (Line.nextCode following)
  rw [trackLine_of_code he hne hc, leave_header st line _ (some b) p.block _ hcount (Bool.toNat_le _)]
  have hout := ht.emitAll (st.indented outer.length p.written)
  have hfinal : ∀ c ∈ outer, c.routine = none := by
    intro c hm
    exact ht.final c (by rw [ht.blocks]; exact List.mem_cons_of_mem b hm)
  exact standing_openBlock ht.symbols rfl ht.braces ht.pending hout.output
    (hout.tryAligned.replace hout.blocks (isTryChain_eq_of_accepts ha)) hfinal hr

theorem Awaiting.track_tail {joined : Bool} {b : Block} {outer : List Block}
    (h : Awaiting symbols joined b outer braces out s) (hb : b.kind = .repeatLoop) {line : Line}
    {code cond : Text} (hl : Says joined line code) (ht : IsTail cond code) (st : Style)
    (convert : Line → Text → Conversion) (following : List Line) :
    Ended st symbols (Line.nextCode following) braces outer
      (out ++ [{ b with exitCondition := some (exitCondition st symbols cond) }.closingLine st
        outer.length])
      (trackLine st .braces convert line following s) := by
  obtain ⟨t, he, hended⟩ := h.enter_tail hb hl ht st (Line.nextCode following)
  rw [trackLine_of_structure he]
  exact hended

theorem Standing.track_brace {b : Block} {outer : List Block}
    (h : Standing symbols (b :: outer) (true :: braces) false out s) (hb : b.braceless = false)
    {line : Line} (hl : Says true line []) (st : Style) (convert : Line → Text → Conversion)
    (following : List Line) :
    BodyEnded st symbols (Line.nextCode following) braces b outer out
      (trackLine st .braces convert line following s) := by
  obtain ⟨t, he, hended⟩ := h.enter_brace hb hl st (Line.nextCode following)
  rw [trackLine_of_structure he]
  exact hended

/-! ### Looking ahead -/

/-- A branch that comes next is not meant for the end of a statement. -/
def Apart (isOpen : Bool) (next : Text) : Prop :=
  ∀ kind, continuation? next = some kind →
    (kind = .elseIfBranch ∨ kind = .elseBranch) ∧ isOpen = false

theorem apart_of_none {isOpen : Bool} {next : Text} (h : continuation? next = none) :
    Apart isOpen next := by
  intro kind hk
  simp [h] at hk

theorem continuation?_of_joined {line : Line} {code : Text} (h : Says true line code) :
    continuation? line.code = none := by
  obtain ⟨after, hafter, _⟩ := h.2
  exact continuation?_of_brace hafter

theorem continuation?_of_alone {line : Line} {code : Text} (h : Says false line code) :
    continuation? line.code = continuation? code := by
  rw [← continuation?_trimStart, show trimStart line.code = code from h.2]

theorem continues_of_alone {line : Line} {code : Text} (h : Says false line code) (b : Block) :
    continues b line.code = continues b code := by
  rw [← continues_trimStart, show trimStart line.code = code from h.2]

private theorem exists_cons_of_bracedAs {t : Stmt} {lines : List Line} (hw : t.Braceable)
    (hl : t.BracedAs convert lines) :
    ∃ line rest, lines = line :: rest ∧ line.isCode = true ∧ continuation? line.code = none := by
  cases t with
  | simple p =>
    obtain ⟨line, rfl, hline, _⟩ := hl
    exact ⟨line, [], rfl, hline.1, by rw [continuation?_of_alone hline]; exact hw.2.2.1⟩
  | chain p body later =>
    obtain ⟨line, inner, more, joined, rfl, hline, _⟩ := hl
    exact ⟨line, _, rfl, hline.1, by rw [continuation?_of_alone hline]; exact hw.2.1⟩
  | doWhile p body cond =>
    obtain ⟨line, inner, tail, code, joined, rfl, hline, _⟩ := hl
    exact ⟨line, _, rfl, hline.1, by rw [continuation?_of_alone hline]; exact hw.2.1⟩

theorem continuation?_nextCode_stmts {stmts : Stmts} {lines following : List Line}
    (hw : stmts.Braceable) (hl : stmts.BracedAs convert lines)
    (hn : continuation? (Line.nextCode following) = none) :
    continuation? (Line.nextCode (lines ++ following)) = none := by
  cases stmts with
  | nil =>
    obtain rfl : lines = [] := hl
    exact hn
  | cons t rest =>
    obtain ⟨first, more, rfl, ht, _⟩ := hl
    obtain ⟨line, others, rfl, hcode, hk⟩ := exists_cons_of_bracedAs hw.1 ht
    rw [List.cons_append, List.cons_append, Line.nextCode_cons_of_code hcode]
    exact hk

/-- The code after a body in braces that is joined to it begins with the brace; that after a single
statement is not meant for the end of the statement. -/
def BodyApart (joined : Bool) (next : Text) : Suite → Prop
  | .block _ => joined = true → continuation? next = none
  | .single t => Apart t.endsOpen next

theorem bodyApart_of_tail {joined : Bool} {line : Line} {code cond : Text}
    (hl : Says joined line code) (ht : IsTail cond code) (body : Suite) :
    BodyApart joined line.code body := by
  have hnone : continuation? line.code = none := by
    cases joined with
    | true => exact continuation?_of_joined hl
    | false => rw [continuation?_of_alone hl, ht.continuation?]
  cases body with
  | block => exact fun _ => hnone
  | single => exact apart_of_none hnone

theorem bodyApart_of_branches {later : Branches} {p : Header} {body : Suite} {joined : Bool}
    {inner more following : List Line} (hbody : body.Braceable p)
    (hinner : body.BracedAs convert joined inner)
    (hw : later.Braceable p.block.kind body.endsOpen) (hl : later.BracedAs convert joined more)
    (hn : Apart (later.endsOpen p.block.kind body.endsOpen) (Line.nextCode following)) :
    BodyApart joined (Line.nextCode (more ++ following)) body := by
  cases later with
  | nil =>
    obtain ⟨rfl, rfl⟩ := hl
    cases body with
    | block => exact fun h => absurd h Bool.false_ne_true
    | single t =>
      intro kind hk
      obtain ⟨hkind, hopen⟩ := hn kind hk
      exact ⟨hkind, (Bool.or_eq_false_iff.mp hopen).2⟩
  | cons p' body' later' =>
    obtain ⟨ha, hopen, hk', _⟩ := hw
    obtain ⟨line, inner', more', joined', rfl, hline, _⟩ := hl
    rw [List.cons_append, Line.nextCode_cons_of_code hline.1]
    cases body with
    | block =>
      rintro rfl
      exact continuation?_of_joined hline
    | single t =>
      obtain ⟨rfl, _⟩ := hinner
      intro kind hk
      rw [continuation?_of_alone hline, hk'] at hk
      obtain rfl : p'.block.kind = kind := by simpa using hk
      have hallowed : allowsSingle p.block.kind = true := hbody.2.2.1
      refine ⟨?_, hopen⟩
      rcases accepts_cases ha with ⟨_, hkind⟩ | ⟨htry | htry, _⟩
      · exact hkind
      · simp [htry, allowsSingle] at hallowed
      · simp [htry, allowsSingle] at hallowed

/-! ### Whole trees -/

/-- The body of `b` is over, but for its brace if that is `joined` to the next line. -/
def Concluded (st : Style) (symbols : Symbols) (joined : Bool) (next : Text) (braces : List Bool)
    (b : Block) (outer : List Block) (out : List Text) (s : State) : Prop :=
  if joined then b.braceless = false ∧ Standing symbols (b :: outer) (true :: braces) false out s
  else BodyEnded st symbols next braces b outer out s

theorem Concluded.awaiting {joined : Bool} {next : Text} {b : Block} {outer : List Block}
    (h : Concluded st symbols joined next braces b outer out s)
    (hc : joined = false → continues b next = true) :
    Awaiting symbols joined b outer braces out s := by
  cases joined with
  | true => exact h
  | false =>
    have hended : BodyEnded st symbols next braces b outer out s := h
    rwa [BodyEnded, if_pos (hc rfl)] at hended

theorem continues_eq_false {b : Block} {next : Text} (hb : b.kind ≠ .repeatLoop)
    (hn : Apart (awaitsElse b.kind) next) : continues b next = false := by
  unfold continues
  cases hk : continuation? next with
  | none => simp [hb]
  | some kind =>
    obtain ⟨hkind, hopen⟩ := hn kind hk
    apply Bool.eq_false_iff.mpr
    intro ha
    rcases accepts_cases ha with ⟨hif | hif, _⟩ | ⟨_, htry | htry⟩
    · simp [hif, awaitsElse] at hopen
    · simp [hif, awaitsElse] at hopen
    · simp [htry] at hkind
    · simp [htry] at hkind

-- The four statements follow the tree: each takes the lines of a part of it, and says how the part
-- has ended before the code that follows.
mutual
theorem track_stmt (t : Stmt) (following : List Line) {lines : List Line} {blocks : List Block}
    {braces : List Bool} {out : List Text} {s : State} (hw : t.Braceable)
    (hl : t.BracedAs convert lines) (hn : Apart t.endsOpen (Line.nextCode following))
    (hs : Standing symbols blocks braces false out s) :
    Ended st symbols (Line.nextCode following) braces blocks
      (out ++ t.render st symbols blocks.length) (track st .braces convert lines following s) := by
  cases t with
  | simple p =>
    obtain ⟨line, rfl, hline, hc⟩ := hl
    rw [track_cons_of_code _ _ _ hline.1, track_nil]
    exact hs.track_simple hw hline hc st _
  | chain p body later =>
    obtain ⟨hkind, hk, hr, hbody, hlater⟩ := hw
    obtain ⟨line, inner, more, joined, rfl, hline, hc, hinner, hmore⟩ := hl
    rw [track_cons_of_code _ _ _ hline.1, track_append]
    have hheader := hs.track_header hbody hk hr hline hc st ((inner ++ more) ++ following)
    have hconcluded := track_suite body (more ++ following) hbody hinner
      (bodyApart_of_branches hbody hinner hlater hmore hn) hheader
    have hloop : p.block.kind ≠ .repeatLoop := by
      intro he
      simp [he, beginsChain] at hkind
    have hended := track_branches later following hlater hmore hloop hn hconcluded
    rw [Stmt.render]
    simpa only [List.append_assoc] using hended
  | doWhile p body cond =>
    obtain ⟨hkind, hk, hr, hbody⟩ := hw
    obtain ⟨line, inner, tail, code, joined, rfl, hline, hc, hinner, htail, hcond⟩ := hl
    rw [track_cons_of_code _ _ _ hline.1, track_append]
    have hheader := hs.track_header hbody hk hr hline hc st ((inner ++ [tail]) ++ following)
    have hnext : Line.nextCode ([tail] ++ following) = tail.code :=
      Line.nextCode_cons_of_code htail.1 following
    have hconcluded := track_suite body ([tail] ++ following) hbody hinner
      (by rw [hnext]; exact bodyApart_of_tail htail hcond body) hheader
    have hawaiting := hconcluded.awaiting (by
      rintro rfl
      rw [hnext, continues_of_alone htail]
      exact hcond.continues hkind)
    rw [track_cons_of_code _ _ _ htail.1, track_nil, Stmt.render]
    have hended := hawaiting.track_tail hkind htail hcond st convert following
    simp only [List.append_assoc] at hended ⊢
    exact hended

theorem track_suite (body : Suite) (following : List Line) {p : Header} {joined : Bool}
    {lines : List Line} {outer : List Block} {braces : List Bool} {out : List Text} {s : State}
    (hw : body.Braceable p) (hl : body.BracedAs convert joined lines)
    (hn : BodyApart joined (Line.nextCode following) body)
    (hs : Standing symbols (opened body.braced p.block :: outer) (withBrace body.braced braces) false
      out s) :
    Concluded st symbols joined (Line.nextCode following) braces (opened body.braced p.block) outer
      (out ++ body.render st symbols (outer.length + 1))
      (track st .braces convert lines following s) := by
  cases body with
  | single t =>
    obtain ⟨rfl, ht⟩ := hl
    exact track_stmt t following hw.2.2.2 ht hn hs
  | block stmts =>
    obtain ⟨inner, hinner, hlines⟩ := hl
    cases joined with
    | true =>
      obtain rfl : lines = inner := hlines
      exact ⟨rfl, track_stmts stmts following hw.2 hinner (hn rfl) rfl hs⟩
    | false =>
      obtain ⟨line, rfl, hline⟩ : ∃ line, lines = inner ++ [line] ∧ Says true line [] := hlines
      have hnext : Line.nextCode ([line] ++ following) = line.code :=
        Line.nextCode_cons_of_code hline.1 following
      have hdone := track_stmts stmts ([line] ++ following) hw.2 hinner
        (by rw [hnext]; exact continuation?_of_joined hline) rfl hs
      rw [track_append, track_cons_of_code _ _ _ hline.1, track_nil]
      exact hdone.track_brace rfl hline st convert following

theorem track_stmts (stmts : Stmts) (following : List Line) {lines : List Line} {blocks : List Block}
    {braces : List Bool} {out : List Text} {s : State} (hw : stmts.Braceable)
    (hl : stmts.BracedAs convert lines) (hn : continuation? (Line.nextCode following) = none)
    (hb : blocks.head?.any (·.braceless) = false)
    (hs : Standing symbols blocks braces false out s) :
    Standing symbols blocks braces false (out ++ stmts.render st symbols blocks.length)
      (track st .braces convert lines following s) := by
  cases stmts with
  | nil =>
    obtain rfl : lines = [] := hl
    simpa [Stmts.render] using hs
  | cons t rest =>
    obtain ⟨first, more, rfl, ht, hrest⟩ := hl
    have hnext := continuation?_nextCode_stmts hw.2 hrest hn
    have hended := track_stmt t (more ++ following) hw.1 ht (apart_of_none hnext) hs
    have hdone := track_stmts rest following hw.2 hrest hn hb (hended.standing hb)
    rw [track_append, Stmts.render]
    simpa only [List.append_assoc] using hdone

theorem track_branches (later : Branches) (following : List Line) {last : Block}
    {bodyOpen braced joined : Bool} {lines : List Line} {outer : List Block} {braces : List Bool}
    {out : List Text} {s : State} (hw : later.Braceable last.kind bodyOpen)
    (hl : later.BracedAs convert joined lines) (hloop : last.kind ≠ .repeatLoop)
    (hn : Apart (later.endsOpen last.kind bodyOpen) (Line.nextCode following))
    (hs : Concluded st symbols joined (Line.nextCode (lines ++ following)) braces
      (opened braced last) outer out s) :
    Ended st symbols (Line.nextCode following) braces outer
      (out ++ later.render st symbols outer.length last)
      (track st .braces convert lines following s) := by
  cases later with
  | nil =>
    obtain ⟨rfl, rfl⟩ := hl
    have hended : BodyEnded st symbols (Line.nextCode following) braces (opened braced last) outer
      out s := hs
    have hlast : Apart (awaitsElse (opened braced last).kind) (Line.nextCode following) := by
      intro kind hk
      obtain ⟨hkind, hopen⟩ := hn kind hk
      exact ⟨hkind, (Bool.or_eq_false_iff.mp hopen).1⟩
    have hstops := continues_eq_false (b := opened braced last) hloop hlast
    rw [BodyEnded, hstops, if_neg Bool.false_ne_true] at hended
    exact hended
  | cons p body later =>
    obtain ⟨ha, _, hk, hr, hbody, hlater⟩ := hw
    obtain ⟨line, inner, more, joined', rfl, hline, hc, hinner, hmore⟩ := hl
    have hawaiting := hs.awaiting (by
      rintro rfl
      rw [List.cons_append, Line.nextCode_cons_of_code hline.1, continues_of_alone hline,
        continues, hk]
      exact ha)
    rw [track_cons_of_code _ _ _ hline.1, track_append]
    have hheader := hawaiting.track_branch hbody hk ha hr hline hc st ((inner ++ more) ++ following)
    have hconcluded := track_suite body (more ++ following) hbody hinner
      (bodyApart_of_branches hbody hinner hlater hmore hn) hheader
    have hloop' := (ne_repeatLoop_of_accepts ha).2
    have hended := track_branches later following hlater hmore hloop' hn hconcluded
    rw [Branches.render]
    simpa only [List.append_assoc] using hended
end

end

/-- A braced program is written as the rendering of its tree. Nothing stays open: every block has been
closed by the last line that belongs to it. -/
theorem braced_render (st : Style) (convert : Line → Text → Conversion) (symbols : Symbols)
    (program : Stmts) (hw : program.Braceable) (lines : List Line)
    (hl : program.BracedAs convert (lines.filter Line.isCode)) :
    let s := track st .braces convert lines [] { symbols := symbols }
    (s.closeAll st).output = program.render st symbols 0 ∧ s.output = program.render st symbols 0 ∧
      s.blocks = [] ∧ s.braces = [] ∧ s.chainPending = false := by
  intro s
  have hstart : Standing symbols [] [] false [] { symbols := symbols } :=
    ⟨rfl, rfl, rfl, rfl, rfl, rfl, by simp⟩
  have hdone : Standing symbols [] [] false ([] ++ program.render st symbols 0)
      (track st .braces convert (lines.filter Line.isCode) [] { symbols := symbols }) :=
    track_stmts program [] hw hl rfl rfl hstart
  rw [track_filter_isCode] at hdone
  have hclosed : s.closeAll st = s := by rw [State.closeAll, hdone.blocks]; rfl
  rw [hclosed]
  exact ⟨hdone.output, hdone.output, hdone.blocks, hdone.braces, hdone.pending⟩

/-- A loop with its condition at the end as the only statement of a branch, before an `else`. -/
theorem braced_render_nested :
    let conditional : Header := ⟨⟨"if (a)", ["IF a THEN"]⟩, { kind := .ifBranch }⟩
    let loop : Header := ⟨⟨"do \x7b", ["REPEAT"]⟩, { kind := .repeatLoop }⟩
    let otherwise : Header := ⟨⟨"else", ["ELSE"]⟩, { kind := .elseBranch }⟩
    let step : Phrase := ⟨"x++;", ["x <- x + 1"]⟩
    let body : Stmt := .doWhile loop (.block (.cons (.simple step) .nil)) "x < 3"
    let program : Stmts := .cons
      (.chain conditional (.single body) (.cons otherwise (.single (.simple step)) .nil)) .nil
    let line (number : Nat) (code : Text) : Line := ⟨number, .code, [], 0, code, none⟩
    let lines : List Line := [line 1 "if (a)", line 2 "do \x7b", line 3 "  x++;",
      line 4 "\x7d while (x < 3);", line 5 "else", line 6 "  x++;"]
    let convert : Line → Text → Conversion := fun _ code =>
      match [conditional, loop, otherwise].find? (·.code = code) with
      | some h => ⟨h.written, some h.block⟩
      | none => ⟨step.written, none⟩
    let s := track .cambridge .braces convert lines [] {}
    program.Braceable ∧ program.BracedAs convert (lines.filter Line.isCode) ∧
      (s.closeAll .cambridge).output =
        ["IF a THEN".toList, "   REPEAT".toList, "      x <- x + 1".toList,
         "   UNTIL NOT (x < 3)".toList, "ELSE".toList, "   x <- x + 1".toList, "ENDIF".toList] ∧
      s.blocks = [] := by
  intro conditional loop otherwise step body program line lines convert s
  have hstep : (Stmt.simple step).Braceable := by
    refine ⟨?_, ?_, ?_, ?_⟩ <;> decide
  have hbody : body.Braceable :=
    ⟨by decide, by decide, by decide, by decide, hstep, trivial⟩
  have hw : program.Braceable :=
    ⟨⟨by decide, by decide, by decide, ⟨by decide, by decide, by decide, hbody⟩,
      by decide, by decide, by decide, by decide, ⟨by decide, by decide, by decide, hstep⟩, trivial⟩,
      trivial⟩
  have hstepLine : ∀ n, (Stmt.simple step).BracedAs convert [line n "  x++;"] :=
    fun n => ⟨line n "  x++;", rfl, ⟨rfl, rfl⟩, rfl⟩
  have hbodyLines : body.BracedAs convert
      [line 2 "do \x7b", line 3 "  x++;", line 4 "\x7d while (x < 3);"] :=
    ⟨line 2 "do \x7b", [line 3 "  x++;"], line 4 "\x7d while (x < 3);", "while (x < 3);", true, rfl,
      ⟨rfl, rfl⟩, rfl, ⟨[line 3 "  x++;"], ⟨[line 3 "  x++;"], [], rfl, hstepLine 3, rfl⟩, rfl⟩,
      ⟨rfl, " while (x < 3);", rfl, rfl⟩, " ", "", rfl, rfl, rfl⟩
  have hl : program.BracedAs convert (lines.filter Line.isCode) :=
    ⟨lines, [], rfl,
      ⟨line 1 "if (a)", _, [line 5 "else", line 6 "  x++;"], false, rfl, ⟨rfl, rfl⟩, rfl,
        ⟨rfl, hbodyLines⟩, line 5 "else", [line 6 "  x++;"], [], false, rfl, ⟨rfl, rfl⟩, rfl,
        ⟨rfl, hstepLine 6⟩, rfl, rfl⟩,
      rfl⟩
  obtain ⟨hout, _, hblocks, _⟩ := braced_render .cambridge convert {} program hw lines hl
  exact ⟨hw, hl, hout.trans (by decide +kernel), hblocks⟩

end Pseudocode.Braces
