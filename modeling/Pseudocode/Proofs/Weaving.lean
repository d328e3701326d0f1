import Pseudocode.Proofs.Lockstep
import Mathlib.Data.List.Forall2

/-! # Output with further lines woven in

Two states go on in step while one of them has written further lines in between. Marks tell the lines
that both have written from the others. A routine knows the place of its header in the output; the
places differ, but the marks lead from one to the other, so both headers can be rewritten. -/

namespace Pseudocode

/-! ### Marked lists -/

section

variable {α : Type}

/-- The third list consists of the other two, each in its own order. -/
inductive Interleaving : List α → List α → List α → Prop
  | nil : Interleaving [] [] []
  | left (x : α) {xs ys zs : List α} (h : Interleaving xs ys zs) : Interleaving (x :: xs) ys (x :: zs)
  | right (y : α) {xs ys zs : List α} (h : Interleaving xs ys zs) :
      Interleaving xs (y :: ys) (y :: zs)

/-- The members of a list that are marked. -/
def marked : List Bool → List α → List α
  | true :: marks, x :: xs => x :: marked marks xs
  | false :: marks, _ :: xs => marked marks xs
  | _, _ => []

/-- The members of a list that are not marked. -/
def unmarked (marks : List Bool) (xs : List α) : List α := marked (marks.map (!·)) xs

@[simp] theorem marked_nil_left (xs : List α) : marked [] xs = [] := rfl

@[simp] theorem marked_nil_right (marks : List Bool) : marked marks ([] : List α) = [] := by
  cases marks with
  | nil => rfl
  | cons m marks => cases m <;> rfl

@[simp] theorem marked_true (marks : List Bool) (x : α) (xs : List α) :
    marked (true :: marks) (x :: xs) = x :: marked marks xs := rfl

@[simp] theorem marked_false (marks : List Bool) (x : α) (xs : List α) :
    marked (false :: marks) (x :: xs) = marked marks xs := rfl

theorem interleaving_marked {marks : List Bool} {xs : List α} (h : marks.length = xs.length) :
    Interleaving (marked marks xs) (unmarked marks xs) xs := by
  induction marks generalizing xs with
  | nil =>
    obtain rfl := List.length_eq_zero_iff.mp h.symm
    exact .nil
  | cons m marks ih =>
    cases xs with
    | nil => cases h
    | cons x xs =>
      have hrest := ih (Nat.succ.inj h)
      cases m with
      | true => exact .left x hrest
      | false => exact .right x hrest

theorem marked_append {marks : List Bool} {xs : List α} (h : marks.length = xs.length)
    (marks' : List Bool) (xs' : List α) :
    marked (marks ++ marks') (xs ++ xs') = marked marks xs ++ marked marks' xs' := by
  induction marks generalizing xs with
  | nil =>
    obtain rfl := List.length_eq_zero_iff.mp h.symm
    rfl
  | cons m marks ih =>
    cases xs with
    | nil => cases h
    | cons x xs => cases m <;> simp [ih (Nat.succ.inj h)]

theorem unmarked_append {marks : List Bool} {xs : List α} (h : marks.length = xs.length)
    (marks' : List Bool) (xs' : List α) :
    unmarked (marks ++ marks') (xs ++ xs') = unmarked marks xs ++ unmarked marks' xs' := by
  unfold unmarked
  rw [List.map_append, marked_append (by simpa using h)]

@[simp] theorem marked_replicate_true (xs : List α) :
    marked (List.replicate xs.length true) xs = xs := by
  induction xs with
  | nil => rfl
  | cons x xs ih => simp [List.replicate_succ, ih]

@[simp] theorem marked_replicate_false (n : Nat) (xs : List α) :
    marked (List.replicate n false) xs = [] := by
  induction n generalizing xs with
  | zero => rfl
  | succ n ih =>
    cases xs with
    | nil => rfl
    | cons x xs => simp [List.replicate_succ, ih]

@[simp] theorem unmarked_replicate_true (n : Nat) (xs : List α) :
    unmarked (List.replicate n true) xs = [] := by
  simp [unmarked]

@[simp] theorem unmarked_replicate_false (xs : List α) :
    unmarked (List.replicate xs.length false) xs = xs := by
  simp [unmarked]

theorem length_marked {marks : List Bool} {xs : List α} (h : marks.length = xs.length) :
    (marked marks xs).length = marks.count true := by
  induction marks generalizing xs with
  | nil => simp
  | cons m marks ih =>
    cases xs with
    | nil => cases h
    | cons x xs => cases m <;> simp [ih (Nat.succ.inj h)]

/-- A marked place in a list, and its place among the marked ones. -/
inductive Placed : List Bool → Nat → Nat → Prop
  | intro (before after : List Bool) :
      Placed (before ++ true :: after) before.length (before.count true)

namespace Placed

variable {marks : List Bool} {i j : Nat}

theorem append (h : Placed marks i j) (more : List Bool) : Placed (marks ++ more) i j := by
  obtain ⟨before, after⟩ := h
  rw [List.append_assoc, List.cons_append]
  exact .intro before (after ++ more)

variable {xs : List α} (h : Placed marks i j) (hl : marks.length = xs.length)

include h hl

/-- What stands at a marked place can be changed: of the marked members the same one changes, and the
others stay. -/
theorem exists_split :
    ∃ ys x zs ms ms', xs = ys ++ x :: zs ∧ ys.length = i ∧ ms.length = j ∧
      ∀ y, marked marks (ys ++ y :: zs) = ms ++ y :: ms' ∧
        unmarked marks (ys ++ y :: zs) = unmarked marks xs := by
  obtain ⟨before, after⟩ := h
  rw [List.length_append, List.length_cons] at hl
  obtain ⟨x, zs, hdrop⟩ : ∃ x zs, xs.drop before.length = x :: zs := by
    apply List.exists_cons_of_length_pos
    rw [List.length_drop]
    omega
  have hys : before.length = (xs.take before.length).length := by
    rw [List.length_take]
    omega
  have hsplit : xs = xs.take before.length ++ x :: zs := by
    rw [← hdrop, List.take_append_drop]
  refine ⟨xs.take before.length, x, zs, marked before (xs.take before.length), marked after zs,
    hsplit, hys.symm, length_marked hys, ?_⟩
  intro y
  have hunmarked (y : α) : unmarked (before ++ true :: after) (xs.take before.length ++ y :: zs) =
      unmarked before (xs.take before.length) ++ unmarked after zs := by
    rw [unmarked_append hys]
    rfl
  refine ⟨?_, ?_⟩
  · rw [marked_append hys, marked_true]
  · rw [hunmarked, ← hunmarked x, ← hsplit]

theorem getElem?_marked : (marked marks xs)[j]? = xs[i]? := by
  obtain ⟨ys, x, zs, ms, ms', rfl, rfl, rfl, hy⟩ := h.exists_split hl
  rw [(hy x).1]
  simp

theorem marked_set (y : α) : marked marks (xs.set i y) = (marked marks xs).set j y := by
  obtain ⟨ys, x, zs, ms, ms', rfl, rfl, rfl, hy⟩ := h.exists_split hl
  rw [(hy x).1]
  simpa using (hy y).1

theorem unmarked_set (y : α) : unmarked marks (xs.set i y) = unmarked marks xs := by
  obtain ⟨ys, x, zs, ms, ms', rfl, rfl, rfl, hy⟩ := h.exists_split hl
  simpa using (hy y).2

end Placed

end

/-! ### Blocks and states -/

/-- A block with its header, if the header is provisional, at a place. -/
def Block.placedAt (n : Nat) (b : Block) : Block :=
  { b with routine := b.routine.map fun r => { r with headerIndex := n } }

@[simp] theorem Block.outline_placedAt (n : Nat) (b : Block) : (b.placedAt n).outline = b.outline :=
  rfl

/-- Two blocks differ at most in the places of their headers, and the marks lead from one place to the
other. -/
structure Block.Woven (marks : List Bool) (b c : Block) : Prop where
  alike : b.placedAt 0 = c.placedAt 0
  placed : ∀ r ∈ b.routine, ∀ r' ∈ c.routine, Placed marks r.headerIndex r'.headerIndex

namespace Block.Woven

variable {marks : List Bool} {b c : Block}

theorem append (h : b.Woven marks c) (more : List Bool) : b.Woven (marks ++ more) c :=
  ⟨h.alike, fun r hr r' hr' => (h.placed r hr r' hr').append more⟩

theorem outline (h : b.Woven marks c) : b.outline = c.outline := by
  rw [← outline_placedAt 0 b, h.alike, outline_placedAt]

theorem map_placedAt {bs cs : List Block} (h : List.Forall₂ (Block.Woven marks) bs cs) :
    bs.map (placedAt 0) = cs.map (placedAt 0) := by
  rw [← List.forall₂_eq_eq_eq, List.forall₂_map_left_iff, List.forall₂_map_right_iff]
  exact h.imp fun _ _ => Block.Woven.alike

theorem map_outline {bs cs : List Block} (h : List.Forall₂ (Block.Woven marks) bs cs) :
    bs.map Block.outline = cs.map Block.outline := by
  have houtline (blocks : List Block) :
      (blocks.map (placedAt 0)).map Block.outline = blocks.map Block.outline := by
    rw [List.map_map]
    rfl
  rw [← houtline bs, map_placedAt h, houtline]

theorem rel_append {x y : Option Block} (h : Option.Rel (Block.Woven marks) x y)
    (more : List Bool) : Option.Rel (Block.Woven (marks ++ more)) x y := by
  cases h with
  | none => exact .none
  | some h => exact .some (h.append more)

theorem rel_outline {x y : Option Block} (h : Option.Rel (Block.Woven marks) x y) :
    x.map Block.outline = y.map Block.outline := by
  cases h with
  | none => rfl
  | some h => exact congrArg some h.outline

/-- Only the provisional header of a routine can stand elsewhere. -/
theorem eq_or_exists (h : b.Woven marks c) :
    (b.routine = none ∧ c = b) ∨
      ∃ r j, b.routine = some r ∧ Placed marks r.headerIndex j ∧
        c = { b with routine := some { r with headerIndex := j } } := by
  obtain ⟨halike, hplaced⟩ := h
  obtain ⟨_, _, _, _, routine, _⟩ := b
  obtain ⟨_, _, _, _, routine', _⟩ := c
  simp only [placedAt, mk.injEq] at halike
  obtain ⟨rfl, rfl, rfl, rfl, hroutine, rfl⟩ := halike
  cases routine with
  | none =>
    obtain rfl := Option.map_eq_none_iff.mp hroutine.symm
    exact .inl ⟨rfl, rfl⟩
  | some r =>
    obtain ⟨r', rfl, hr⟩ := Option.map_eq_some_iff.mp hroutine.symm
    refine .inr ⟨r, r'.headerIndex, rfl, hplaced r rfl r' rfl, ?_⟩
    have hr' : r' = { r with headerIndex := r'.headerIndex } :=
      congrArg (fun r : Routine => { r with headerIndex := r'.headerIndex }) hr
    rw [← hr']

end Block.Woven

/-- Two states differ at most in what they have written, in the places of headers and in their events.
The marked lines of the first are those of the second; the others are `extra`. -/
structure State.Woven (marks : List Bool) (extra : List Text) (s t : State) : Prop where
  blocks : List.Forall₂ (Block.Woven marks) s.blocks t.blocks
  indents : s.indents = t.indents
  braces : s.braces = t.braces
  chainPending : s.chainPending = t.chainPending
  tryDepth : s.tryDepth = t.tryDepth
  symbols : s.symbols = t.symbols
  length : marks.length = s.output.length
  output : t.output = marked marks s.output
  extra : extra = unmarked marks s.output

namespace State

namespace Woven

variable {marks : List Bool} {extra : List Text} {s t : State} (h : s.Woven marks extra t)

include h

theorem outline : s.outline = t.outline := by
  rw [State.outline, State.outline, Block.Woven.map_outline h.blocks, h.indents, h.braces,
    h.chainPending, h.tryDepth]

theorem depth : s.depth = t.depth := h.blocks.length_eq

theorem interleaving : Interleaving t.output extra s.output := by
  rw [h.output, h.extra]
  exact interleaving_marked h.length

/-- The second state has written the marked lines. -/
theorem length_output : t.output.length = marks.count true := by
  rw [h.output, length_marked h.length]

theorem note (e e' : Event) : (s.note e).Woven marks extra (t.note e') := { h with }

theorem withSymbols (symbols : Symbols) :
    (s.withSymbols symbols).Woven marks extra (t.withSymbols symbols) :=
  { h with symbols := rfl }

/-- Both states write the same lines. -/
theorem emitAll (lines : List Text) :
    (s.emitAll lines).Woven (marks ++ List.replicate lines.length true) extra (t.emitAll lines) where
  blocks := h.blocks.imp fun _ _ hbc => hbc.append _
  indents := h.indents
  braces := h.braces
  chainPending := h.chainPending
  tryDepth := h.tryDepth
  symbols := h.symbols
  length := by simp [State.emitAll, h.length]
  output := by
    change t.output ++ lines = _
    rw [State.emitAll, marked_append h.length, marked_replicate_true, h.output]
  extra := by
    rw [State.emitAll, unmarked_append h.length, unmarked_replicate_true, List.append_nil, h.extra]

/-- Only the first state writes lines. -/
theorem weave (lines : List Text) :
    (s.emitAll lines).Woven (marks ++ List.replicate lines.length false) (extra ++ lines) t where
  blocks := h.blocks.imp fun _ _ hbc => hbc.append _
  indents := h.indents
  braces := h.braces
  chainPending := h.chainPending
  tryDepth := h.tryDepth
  symbols := h.symbols
  length := by simp [State.emitAll, h.length]
  output := by
    rw [State.emitAll, marked_append h.length, marked_replicate_false, List.append_nil, h.output]
  extra := by
    rw [State.emitAll, unmarked_append h.length, unmarked_replicate_false, h.extra]

theorem push {b c : Block} (hbc : b.Woven marks c) : (s.push b).Woven marks extra (t.push c) :=
  { h with
    blocks := .cons hbc h.blocks
    tryDepth := by
      simp only [State.push, Block.isTryChain_of_outline hbc.outline, h.depth, h.tryDepth] }

theorem setExit (st : Style) (cond : Text) :
    (s.setExit st cond).Woven marks extra (t.setExit st cond) := by
  have hblocks := h.blocks
  have hexit : Program.exitCondition st s.symbols cond = Program.exitCondition st t.symbols cond := by
    rw [h.symbols]
  unfold State.setExit
  rw [hexit]
  cases hs : s.blocks with
  | nil =>
    rw [hs, List.forall₂_nil_left_iff] at hblocks
    rw [hblocks]
    exact h
  | cons b outer =>
    rw [hs] at hblocks
    obtain ⟨c, outer', hbc, houter, ht⟩ := List.forall₂_cons_left_iff.mp hblocks
    rw [ht]
    refine { h with blocks := .cons ⟨?_, hbc.placed⟩ houter }
    exact congrArg (fun b : Block => { b with
      exitCondition := some (Program.exitCondition st t.symbols cond) }) hbc.alike

/-! ### Closing -/

/-- The same header is rewritten, wherever it stands. -/
theorem settleRoutine (st : Style) {r : Routine} {j : Nat} (hr : Placed marks r.headerIndex j) :
    (s.settleRoutine st r).Woven marks extra
      (t.settleRoutine st { r with headerIndex := j }) := by
  have hline : t.output[j]? = s.output[r.headerIndex]? := by
    rw [h.output]
    exact hr.getElem?_marked h.length
  unfold State.settleRoutine
  simp only [hline, h.symbols]
  cases s.output[r.headerIndex]? with
  | none => exact h.note _ _
  | some line =>
    refine { h with length := ?_, output := ?_, extra := ?_ }
    · simp [h.length]
    · rw [hr.marked_set h.length, ← h.output]
      rfl
    · rw [hr.unmarked_set h.length, ← h.extra]

private theorem settleTop (st : Style) {b c : Block} (hbc : b.Woven marks c) {outer outer' : List Block}
    (houter : List.Forall₂ (Block.Woven marks) outer outer') :
    (s.settleTop st b outer).Woven marks extra (t.settleTop st c outer') := by
  have hbelow : State.Woven marks extra { s with blocks := outer } { t with blocks := outer' } :=
    { h with blocks := houter }
  unfold State.settleTop
  obtain ⟨hr, rfl⟩ | ⟨r, j, hr, hplaced, rfl⟩ := hbc.eq_or_exists
  · rw [hr]
    exact hbelow
  · rw [hr]
    exact hbelow.settleRoutine st hplaced

end Woven

/-- Closing writes the same line for both states. -/
theorem Woven.close {marks : List Bool} {extra : List Text} {s t : State}
    (h : s.Woven marks extra t) (st : Style) :
    ∃ more, (s.close st).Woven (marks ++ more) extra (t.close st) := by
  have hblocks := h.blocks
  cases hs : s.blocks with
  | nil =>
    rw [hs, List.forall₂_nil_left_iff] at hblocks
    refine ⟨[], ?_⟩
    rw [List.append_nil]
    simp only [State.close, hs, hblocks]
    exact h.note _ _
  | cons b outer =>
    rw [hs] at hblocks
    obtain ⟨c, outer', hbc, houter, ht⟩ := List.forall₂_cons_left_iff.mp hblocks
    have hkind : s.closingKind st b = t.closingKind st c := by
      unfold closingKind settledKind
      rw [h.symbols]
      obtain ⟨_, rfl⟩ | ⟨r, j, hr, _, rfl⟩ := hbc.eq_or_exists
      · rfl
      · rw [hr]
        rfl
    have htry := Block.isTryChain_of_outline hbc.outline
    have hinner : innermostTry? outer = innermostTry? outer' := by
      rw [← innermostTry?_map_outline, Block.Woven.map_outline houter, innermostTry?_map_outline]
    have hdepth : s.closingDepth b outer.length = t.closingDepth c outer'.length := by
      rw [closingDepth, closingDepth, htry, h.tryDepth, houter.length_eq]
    obtain ⟨hvariable, hexit⟩ :
        b.loopVariable = c.loopVariable ∧ b.exitCondition = c.exitCondition := by
      injection hbc.alike with _ hvariable hexit
      exact ⟨hvariable, hexit⟩
    rw [close_of_cons st hs, close_of_cons st ht, hkind, hdepth, hvariable, hexit, htry, hinner,
      h.tryDepth]
    have hsettled := h.settleTop st hbc houter
    have hbelow : State.Woven marks extra
        { s.settleTop st b outer with
          tryDepth := if c.kind.isTryChain then innermostTry? outer' else t.tryDepth }
        { t.settleTop st c outer' with
          tryDepth := if c.kind.isTryChain then innermostTry? outer' else t.tryDepth } :=
      { hsettled with tryDepth := rfl }
    exact ⟨_, (hbelow.note _ _).emitAll [_]⟩

theorem Woven.closeAll {marks : List Bool} {extra : List Text} {s t : State}
    (h : s.Woven marks extra t) (st : Style) :
    ∃ more, (s.closeAll st).Woven (marks ++ more) extra (t.closeAll st) := by
  unfold State.closeAll
  rw [h.blocks.length_eq]
  generalize t.blocks.length = n
  induction n generalizing marks s t with
  | zero => exact ⟨[], by rwa [List.append_nil]⟩
  | succ n ih =>
    obtain ⟨closed, hclosed⟩ := h.close st
    obtain ⟨more, hmore⟩ := ih hclosed
    rw [List.append_assoc] at hmore
    exact ⟨_, hmore⟩

end State

/-! ### Steps made together -/

section

variable {st : Style} {marks : List Bool} {extra : List Text} {s t s' t' : State}

theorem Lockstep.woven (hl : Lockstep st st s t s' t') (h : s.Woven marks extra t) :
    ∃ more, s'.Woven (marks ++ more) extra t' := by
  induction hl with
  | refl => exact ⟨[], by rwa [List.append_nil]⟩
  | remark _ _ _ ih =>
    obtain ⟨more, h⟩ := ih
    exact ⟨more, h.note _ _⟩
  | close _ ih =>
    obtain ⟨more, h⟩ := ih
    obtain ⟨more', h'⟩ := h.close st
    exact ⟨more ++ more', by rwa [← List.append_assoc]⟩
  | exit _ cond ih =>
    obtain ⟨more, h⟩ := ih
    exact ⟨more, h.setExit st cond⟩
  | indents _ _ ih =>
    obtain ⟨more, h⟩ := ih
    exact ⟨more, { h with indents := rfl }⟩
  | braces _ _ ih =>
    obtain ⟨more, h⟩ := ih
    exact ⟨more, { h with braces := rfl }⟩
  | pending _ _ ih =>
    obtain ⟨more, h⟩ := ih
    exact ⟨more, { h with chainPending := rfl }⟩

theorem EnterAlike.woven {p q : Entry × State} (he : EnterAlike st st s t p q)
    (h : s.Woven marks extra t) :
    ∃ more, p.2.Woven (marks ++ more) extra q.2 ∧ p.1.code = q.1.code ∧
      Option.Rel (Block.Woven (marks ++ more)) p.1.taken q.1.taken := by
  cases he with
  | kept hl =>
    obtain ⟨more, h'⟩ := hl.woven h
    exact ⟨more, h', rfl, .none⟩
  | taken hl hs ht =>
    obtain ⟨more, h'⟩ := hl.woven h
    have hblocks := h'.blocks
    rw [hs, ht] at hblocks
    obtain ⟨hbc, houter⟩ := List.forall₂_cons.mp hblocks
    exact ⟨more, { h' with blocks := houter }, rfl, .some hbc⟩

theorem LeaveAlike.woven {opened opened' taken taken' : Option Block}
    (hl : LeaveAlike st st s t opened opened' taken taken' s' t') (h : s.Woven marks extra t)
    (hopened : Option.Rel (Block.Woven marks) opened opened')
    (htaken : Option.Rel (Block.Woven marks) taken taken') :
    ∃ more, s'.Woven (marks ++ more) extra t' := by
  cases hl with
  | plain hl => exact hl.woven h
  | @opened b c _ _ braceless _ _ _ _ hs ht hl =>
    obtain ⟨noted, rfl, _⟩ := hs
    obtain ⟨noted', rfl, _⟩ := ht
    cases hopened with
    | some hbc =>
      have hflagged : Block.Woven marks { b with braceless } { c with braceless } :=
        ⟨congrArg (fun b : Block => { b with braceless }) hbc.alike, hbc.placed⟩
      have hremarked : State.Woven marks extra { s with log := noted ++ s.log }
          { t with log := noted' ++ t.log } := { h with }
      exact hl.woven (hremarked.push hflagged)
  | restored hl =>
    cases htaken with
    | some hbc => exact hl.woven (h.push hbc)

end

end Pseudocode
