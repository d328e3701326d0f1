import Pseudocode.Proofs.BraceOwnership
import Pseudocode.Proofs.BracedRendering

/-! # Braces in headers

A line that opens a block may have any braces in its code. Where more of them open than close, the block
keeps exactly one. A header without braces leaves its block to the next whole statement. Braces that open
and close within a header are taken for those of a body, and then the block is over before its body
begins. -/

namespace Pseudocode.Braces

open Text

/-! ### Ends of bodies and braces -/

theorem finishBody_cases (st : Style) (next : Text) {s : State} {b : Block} {outer : List Block}
    (hs : s.blocks = b :: outer) :
    (finishBody st next s).braces = s.braces ∧
      ((finishBody st next s).chainPending = true ∧ (finishBody st next s).blocks = b :: outer ∨
        (finishBody st next s).blocks <:+ outer) := by
  induction outer generalizing b s with
  | nil =>
    cases hc : continues b next with
    | true =>
      rw [finishBody_of_continues hs st hc]
      exact ⟨rfl, .inl ⟨rfl, hs⟩⟩
    | false =>
      have hblocks : (s.close st).blocks = [] := by rw [State.blocks_close, hs, List.tail_cons]
      rw [finishBody_of_not_continues hs st hc, topIsBraceless_of_nil hblocks]
      exact ⟨State.braces_close st s, .inr (hblocks ▸ List.suffix_rfl)⟩
  | cons c outer ih =>
    cases hc : continues b next with
    | true =>
      rw [finishBody_of_continues hs st hc]
      exact ⟨rfl, .inl ⟨rfl, hs⟩⟩
    | false =>
      have hblocks : (s.close st).blocks = c :: outer := by rw [State.blocks_close, hs, List.tail_cons]
      rw [finishBody_of_not_continues hs st hc]
      split
      · obtain ⟨hbraces, hcases⟩ := ih hblocks
        refine ⟨hbraces.trans (State.braces_close st s), .inr ?_⟩
        rcases hcases with ⟨_, hkept⟩ | hclosed
        · exact hkept ▸ List.suffix_rfl
        · exact hclosed.trans (List.suffix_cons c outer)
      · exact ⟨State.braces_close st s, .inr (hblocks ▸ List.suffix_rfl)⟩

theorem closeMany_add (st : Style) (line : Nat) (following : Text) (m n : Nat) (s : State) :
    closeMany st line following (m + n) s =
      closeMany st line following n (closeMany st line following m s) := by
  induction m generalizing s with
  | zero => rw [Nat.zero_add, closeMany]
  | succ m ih => rw [Nat.succ_add, closeMany, ih, closeMany]

private theorem closeBrace_of_owned {s : State} (hp : s.chainPending = false) (hb : s.topIsBraceless = false)
    {outer : List Bool} (hs : s.braces = true :: outer) (st : Style) (line : Nat) (next : Text) :
    closeBrace st line next s = finishBody st next { s with braces := outer } := by
  have hpopped : State.topIsBraceless { s with braces := outer } = false := hb
  rw [closeBrace, dropPending, if_neg (by simp [hp])]
  simp only [hs, ↓reduceIte]
  rw [closeUnfilled_of_not_braceless hpopped]

theorem closeMany_unowned {s : State} (hp : s.chainPending = false) (st : Style) (line : Nat)
    (following : Text) (n : Nat) (outer : List Bool) :
    closeMany st line following n { s with braces := List.replicate n false ++ outer } =
      { s with braces := outer } :=
  closeMany_replicate (s := { s with braces := outer }) hp st line following n

/-! ### Leaving a header -/

section

variable (st : Style) (line : Line) (following : Text) (entry : Entry) (b : Block) {s : State}

/-- A header settles its braces and nothing else. -/
theorem leave_opened (s : State) :
    leave st line following entry (some b) s =
      matchBraces st line.number following ((braceCounts entry.code).1 - 1) (braceCounts entry.code).2
        (openBlock b (braceCounts entry.code).1 s) := by
  rw [leave_eq]
  simp only [placeOpened, endStatement, Option.isNone_some, Option.isSome_some, Bool.false_and,
    Bool.false_eq_true, ↓reduceIte]

theorem leave_of_closes_lt (hp : s.chainPending = false)
    (hcount : (braceCounts entry.code).2 < (braceCounts entry.code).1) :
    leave st line following entry (some b) s =
      { s.push { b with braceless := false } with
        braces := List.replicate ((braceCounts entry.code).1 - 1 - (braceCounts entry.code).2) false ++
          true :: s.braces } := by
  rw [leave_opened]
  generalize (braceCounts entry.code).1 = opens at *
  generalize (braceCounts entry.code).2 = closes at *
  have hunowned : List.replicate (opens - 1) false ++ true :: s.braces =
      List.replicate closes false ++
        (List.replicate (opens - 1 - closes) false ++ true :: s.braces) := by
    rw [← List.append_assoc, ← List.replicate_add]
    congr 2
    omega
  have hopen : openBlock b opens s =
      { s.push { b with braceless := false } with braces := true :: s.braces } :=
    if_pos (by omega)
  have hpush : (s.push { b with braceless := false }).chainPending = false := hp
  rw [hopen, matchBraces]
  simp only [hunowned]
  exact closeMany_unowned hpush st line.number following closes _

theorem leave_of_no_brace (hcount : braceCounts entry.code = (0, 0)) (s : State) :
    leave st line following entry (some b) s =
      (s.note (.openedBraceless b.kind)).push { b with braceless := true } := by
  rw [leave_opened, hcount]
  rfl

theorem leave_of_closes_eq (hp : s.chainPending = false) {n : Nat}
    (hcount : braceCounts entry.code = (n + 1, n + 1)) :
    leave st line following entry (some b) s =
      finishBody st following (s.push { b with braceless := false }) := by
  have hopen : openBlock b (n + 1) s =
      { s.push { b with braceless := false } with braces := true :: s.braces } :=
    if_pos (by omega)
  have hpush : (s.push { b with braceless := false }).chainPending = false := hp
  rw [leave_opened, hcount, hopen, matchBraces, closeMany_add]
  simp only [Nat.add_sub_cancel]
  rw [closeMany_unowned hpush, closeMany, closeMany]
  exact closeBrace_of_owned
    (s := { s.push { b with braceless := false } with braces := true :: s.braces }) hp rfl rfl st
    line.number following

end

/-! ### The statement after a header -/

/-- Whole statements: as many braces open as close, and the code begins with none that closes. -/
structure IsStatement (code : Text) : Prop where
  ne_nil : code ≠ []
  head : code.head? ≠ some '}'
  count : (braceCounts code).1 = (braceCounts code).2

section

variable {s : State} (hp : s.chainPending = false)

include hp

private theorem enter_of_head?_ne (st : Style) {line : Line} (hb : (trimStart line.code).head? ≠ some '}')
    (following : Text) :
    enter st line following s =
      ({ code := trimStart line.code }, checkOrphan line.number (trimStart line.code) s) := by
  have hlead := closeLeading_of_ne hb st line.number following (trimStart line.code).length s
  rw [enter_of_closeLeading hlead]
  simp only [hp, Bool.false_and, Bool.false_eq_true, ↓reduceIte]

private theorem leave_statement_of_braceless {b : Block} {outer : List Block} (hs : s.blocks = b :: outer)
    (hb : b.braceless = true) (st : Style) (line : Line) (following : Text) {code : Text}
    (hcode : IsStatement code) :
    leave st line following { code } none s = finishBody st following s := by
  have hwhole : (!List.isEmpty code) = true := by simpa using hcode.ne_nil
  rw [leave_eq]
  simp only [hcode.count, hwhole, placeOpened, matchBraces, closeMany_replicate hp, Option.isNone_none,
    Option.isSome_none, Bool.and_self, decide_true, Bool.false_eq_true, ↓reduceIte]
  rw [endStatement, if_pos (by simp [hp, topIsBraceless_of_cons hs, hb])]

end

private theorem blocks_checkOrphan (line : Nat) (rest : Text) (s : State) :
    (checkOrphan line rest s).blocks = s.blocks := by
  unfold checkOrphan
  split <;> rfl

private theorem statement_in_braceless (st : Style) {t : State} (hp : t.chainPending = false) {b : Block}
    {outer : List Block} (ht : t.blocks = b :: outer) (hb : b.braceless = true) {next : Line}
    (hnext : IsStatement (trimStart next.code)) (following : Text) :
    (enter st next following t).1 = { code := trimStart next.code } ∧
      (enter st next following t).2.blocks = t.blocks ∧
      ∀ v, (enter st next following t).2.SameNesting v →
        let w := leave st next following (enter st next following t).1 none v
        w.chainPending = true ∧ w.blocks = t.blocks ∨ w.blocks <:+ outer := by
  have henter := enter_of_head?_ne hp st hnext.head following
  rw [henter]
  refine ⟨rfl, blocks_checkOrphan .., fun v hv => ?_⟩
  have hblocks : v.blocks = b :: outer := hv.blocks.trans ((blocks_checkOrphan ..).trans ht)
  have hpending : v.chainPending = false := hv.chainPending.trans ((chainPending_checkOrphan ..).trans hp)
  dsimp only
  rw [leave_statement_of_braceless hpending hblocks hb st next following hnext, ht]
  exact (finishBody_cases st following hblocks).2

/-! ### Headers in a session -/

/-- The stacks after a line that opens the block `b` on top of `s`. Where more braces open than close, the
block is not braceless and exactly one brace belongs to it. Where as many close as open, the block waits
without a brace of its own exactly if there are none; then the next whole statement is converted inside the
block and ends its body: the block is closed, or its chain goes on. -/
theorem opened_by_net_braces {st : Style} {lines rest : List Line} {line : Line}
    {before entered s : State} {entry : Entry}
    (h : Reached st .braces OpensOnCode lines (line :: rest) before) (hl : line.isCode = true)
    (he : before.enter st .braces line rest = (entry, entered)) (hs : entered.SameNesting s)
    (hne : entry.code ≠ []) (b : Block) :
    let t := s.leave st .braces line rest entry (some b)
    let opens := (unquoted entry.code).count '{'
    let closes := (unquoted entry.code).count '}'
    (closes < opens →
      t.blocks = { b with braceless := false } :: s.blocks ∧
        t.braces = List.replicate (opens - 1 - closes) false ++ true :: s.braces) ∧
    (opens = closes →
      (t.blocks = { b with braceless := true } :: s.blocks ∧ t.braces = s.braces ↔ opens = 0)) ∧
    (opens = 0 → closes = 0 → ∀ u next following, t.SameNesting u →
      IsStatement (trimStart next.code) →
      let e := u.enter st .braces next following
      e.1.code = trimStart next.code ∧ e.2.blocks = t.blocks ∧
        ∀ v, e.2.SameNesting v →
          let w := v.leave st .braces next following e.1 none
          w.chainPending = true ∧ w.blocks = t.blocks ∨ w.blocks <:+ s.blocks) := by
  have hentered : Entered (Line.nextCode rest) entry entered := by
    have ho := owned_of_reached h
    rw [Line.nextCode_cons_of_code hl] at ho
    have hentered := ho.enter st (Line.nextCode rest)
    rwa [show enter st line (Line.nextCode rest) before = (entry, entered) from he] at hentered
  have hp : s.chainPending = false := hs.chainPending.trans (hentered.settled hne)
  intro t opens closes
  have ht : t = leave st line (Line.nextCode rest) entry (some b) s := rfl
  have hcounts : braceCounts entry.code = (opens, closes) := rfl
  clear_value t opens closes
  refine ⟨fun hlt => ?_, fun heq => ⟨fun hwaits => ?_, fun hzero => ?_⟩, fun ho hc u next following hu hnext => ?_⟩
  · rw [ht, leave_of_closes_lt _ _ _ _ _ hp (by rwa [hcounts]), hcounts]
    exact ⟨rfl, rfl⟩
  · -- a brace that opens is closed again, so the block is not waiting
    by_contra hpos
    obtain ⟨n, rfl⟩ := Nat.exists_eq_succ_of_ne_zero hpos
    rw [ht, leave_of_closes_eq _ _ _ _ _ hp (by rw [hcounts, ← heq])] at hwaits
    obtain ⟨_, ⟨_, hkept⟩ | hclosed⟩ :=
      finishBody_cases st (Line.nextCode rest) (State.blocks_push s { b with braceless := false })
    · rw [hkept] at hwaits
      simp at hwaits
    · have hlength := hclosed.length_le
      rw [hwaits.1, List.length_cons] at hlength
      omega
  · rw [ht, leave_of_no_brace _ _ _ _ _ (by rw [hcounts, ← heq, hzero])]
    exact ⟨rfl, rfl⟩
  · rw [leave_of_no_brace _ _ _ _ _ (by rw [hcounts, ho, hc])] at ht
    have hblocks : u.blocks = { b with braceless := true } :: s.blocks := by rw [hu.blocks, ht]; rfl
    have hpending : u.chainPending = false := by rw [hu.chainPending, ht]; exact hp
    obtain ⟨hentry, hinside, hbody⟩ := statement_in_braceless st hpending hblocks rfl hnext
      (Line.nextCode following)
    rw [hu.blocks] at hinside hbody
    exact ⟨congrArg Entry.code hentry, hinside, hbody⟩

/-- The braces of an initialiser leave the one at the end of a header to its block. -/
theorem opened_by_net_braces_initialiser :
    let line : Line := ⟨1, .code, [], 0, "for (int x : new int[]\x7b1, 2\x7d) \x7b", none⟩
    let t := State.leave .cambridge .braces line [] { code := line.code } (some (.loop "x")) {}
    (unquoted line.code).count '}' < (unquoted line.code).count '{' ∧
      t.blocks = [.loop "x"] ∧ t.braces = [true] := by
  intro line t
  have he : State.enter .cambridge .braces line [] {} = ({ code := line.code }, {}) := by rfl
  have hnet := opened_by_net_braces (.start (.refl {})) rfl he (.refl {}) (by decide) (.loop "x")
  exact ⟨by decide, hnet.1 (by decide)⟩

/-- Without that brace the block is closed by its own header, and the statement after it stands outside. -/
theorem closed_by_initialiser :
    let line : Line := ⟨1, .code, [], 0, "for (int x : new int[]\x7b1, 2\x7d)", none⟩
    let body : Line := ⟨2, .code, "    ", 4, "System.out.println(x);", none⟩
    (unquoted line.code).count '{' = (unquoted line.code).count '}' ∧
      (State.leave .cambridge .braces line [body] { code := line.code } (some (.loop "x")) {}).blocks =
        [] ∧
      (Run.ofLines ⟨.braces, .cambridge⟩ [line, body]).state.output =
        ["FOR EACH x IN new int[]\x7b1, 2\x7d".toList, "NEXT x".toList, "OUTPUT x".toList] := by
  decide +kernel

end Pseudocode.Braces
