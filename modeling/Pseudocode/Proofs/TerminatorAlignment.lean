import Pseudocode.Proofs.Journal
import Pseudocode.Proofs.RuleForms

/-! # Ends of blocks stand under their headers

Blocks are pushed, closed and taken away for a further branch of their chain. The depth of a try chain
is kept apart from the stack: it is set when a block is pushed, looked up again when one is closed, and
left alone when one is taken away. As long as each block that is taken away is replaced at once by one
of its chain, that depth is the index of the innermost block of a try chain, and every block closes at
the index at which it was pushed. A line that opens a block writes its header at just that depth. -/

namespace Pseudocode

/-! ### Operations on the stack -/

/-- The branches of an `if` statement. -/
def Kind.isIfChain (k : Kind) : Bool := k ∈ [.ifBranch, .elseIfBranch, .elseBranch]

/-- Both kinds are branches of an `if` statement, or both belong to a try chain. -/
def Kind.SameChain (a b : Kind) : Prop :=
  (a.isIfChain = true ∧ b.isIfChain = true) ∨ (a.isTryChain = true ∧ b.isTryChain = true)

instance (a b : Kind) : Decidable (a.SameChain b) := inferInstanceAs (Decidable (_ ∨ _))

theorem Kind.SameChain.isTryChain_eq {a b : Kind} (h : a.SameChain b) :
    a.isTryChain = b.isTryChain := by
  have happart (k : Kind) (hk : k.isIfChain = true) : k.isTryChain = false := by
    cases k <;> simp_all [isIfChain, isTryChain]
  rcases h with ⟨ha, hb⟩ | ⟨ha, hb⟩
  · rw [happart a ha, happart b hb]
  · rw [ha, hb]

inductive Operation
  | push (b : Block)
  | close
  | take (next : Kind) (line : Nat)
  deriving DecidableEq, Repr

/-- A state, with the index at which each open block was pushed, innermost first. -/
structure Indexed where
  state : State := {}
  indices : List Nat := []

namespace Operation

/-- The block that an operation takes away. -/
def taken? (s : State) : Operation → Option Block
  | take next line => (s.take next line).1
  | _ => none

def apply (st : Style) (x : Indexed) : Operation → Indexed
  | push b => ⟨x.state.push b, x.state.blocks.length :: x.indices⟩
  | close => ⟨x.state.close st, x.indices.tail⟩
  | take next line =>
    ⟨(x.state.take next line).2,
      if (x.state.take next line).1.isSome then x.indices.tail else x.indices⟩

def applyAll (st : Style) (ops : List Operation) (x : Indexed) : Indexed := ops.foldl (apply st) x

/-- What was taken away is replaced by the next operation, with a block of its chain. -/
def Replaces : Option Block → List Operation → Prop
  | some b, push c :: _ => b.kind.SameChain c.kind
  | some _, _ => False
  | none, _ => True

instance : (held : Option Block) → (ops : List Operation) → Decidable (Replaces held ops)
  | some b, push c :: _ => inferInstanceAs (Decidable (b.kind.SameChain c.kind))
  | some _, [] | some _, close :: _ | some _, take .. :: _ => .isFalse id
  | none, _ => .isTrue trivial

/-- Every block that is taken away is replaced at once. -/
def Chained (st : Style) : List Operation → Indexed → Prop
  | [], _ => True
  | op :: ops, x => Replaces (op.taken? x.state) ops ∧ Chained st ops (op.apply st x)

instance (st : Style) : (ops : List Operation) → (x : Indexed) → Decidable (Chained st ops x)
  | [], _ => .isTrue trivial
  | op :: ops, x =>
    have := instDecidableChained st ops (op.apply st x)
    inferInstanceAs (Decidable (Replaces (op.taken? x.state) ops ∧ Chained st ops (op.apply st x)))

end Operation

/-! ### What the operations keep -/

namespace State

/-- The innermost block of a try chain stands at an index of the stack. -/
def InnermostTryAt (k : Nat) (blocks : List Block) : Prop :=
  ∃ inner b outer, blocks = inner ++ b :: outer ∧ b.kind.isTryChain = true ∧
    (∀ c ∈ inner, c.kind.isTryChain = false) ∧ outer.length = k

theorem innermostTry?_eq_some_iff {k : Nat} {blocks : List Block} :
    innermostTry? blocks = some k ↔ InnermostTryAt k blocks := by
  induction blocks with
  | nil => simp [innermostTry?, InnermostTryAt]
  | cons b outer ih =>
    rw [innermostTry?_cons]
    by_cases hb : b.kind.isTryChain = true
    · rw [if_pos hb, Option.some.injEq]
      constructor
      · rintro rfl
        exact ⟨[], b, outer, rfl, hb, by simp, rfl⟩
      · rintro ⟨inner, c, rest, heq, hc, hinner, rfl⟩
        cases inner with
        | nil => simp_all
        | cons d inner =>
          obtain ⟨rfl, _⟩ := List.cons.inj heq
          simp [hinner b (by simp)] at hb
    · rw [if_neg hb, ih]
      constructor
      · rintro ⟨inner, c, rest, rfl, hc, hinner, hk⟩
        refine ⟨b :: inner, c, rest, rfl, hc, ?_, hk⟩
        simpa [hb] using hinner
      · rintro ⟨inner, c, rest, heq, hc, hinner, hk⟩
        cases inner with
        | nil =>
          obtain ⟨rfl, _⟩ := List.cons.inj heq
          exact absurd hc hb
        | cons d inner =>
          obtain ⟨rfl, rfl⟩ := List.cons.inj heq
          exact ⟨inner, c, rest, rfl, hc, fun c hc => hinner c (by simp [hc]), hk⟩

end State

open State

/-- What holds between two operations: the depth of try chains still counts a block that was just
taken away, and blocks were pushed at the indices at which they stand. -/
structure Indexed.Aligned (held : Option Block) (x : Indexed) : Prop where
  tryDepth : x.state.tryDepth = innermostTry? (held.toList ++ x.state.blocks)
  indices : x.indices = (List.range x.state.blocks.length).reverse

namespace Indexed.Aligned

variable {x : Indexed} {held : Option Block}

theorem tryAligned (h : x.Aligned none) : x.state.TryAligned := h.tryDepth

theorem push_indices (h : x.Aligned held) (b : Block) :
    x.state.blocks.length :: x.indices = (List.range (x.state.push b).blocks.length).reverse := by
  rw [h.indices, blocks_push, List.length_cons, List.range_succ, List.reverse_append]
  rfl

private theorem tail_indices (h : x.Aligned held) :
    x.indices.tail = (List.range x.state.blocks.tail.length).reverse := by
  rw [h.indices, List.length_tail]
  cases x.state.blocks.length with
  | zero => rfl
  | succ n => rw [List.range_succ, List.reverse_append]; rfl

theorem head?_indices (h : x.Aligned held) {b : Block} {outer : List Block}
    (hs : x.state.blocks = b :: outer) : x.indices.head? = some outer.length := by
  rw [h.indices, hs, List.length_cons, List.range_succ, List.reverse_append]
  rfl

theorem apply (h : x.Aligned none) (st : Style) (op : Operation) :
    (op.apply st x).Aligned (op.taken? x.state) := by
  cases op with
  | push b => exact ⟨h.tryAligned.push b, h.push_indices b⟩
  | close =>
    refine ⟨h.tryAligned.close st, ?_⟩
    simpa [Operation.apply] using h.tail_indices
  | take next line =>
    rcases x.state.take_cases next line with ⟨b, outer, hs, _, ht⟩ | ⟨_, above, ht⟩
    · have htail := h.tail_indices
      rw [hs, List.tail_cons] at htail
      constructor
      · simpa [Operation.apply, Operation.taken?, ht, hs] using h.tryDepth
      · simpa [Operation.apply, ht] using htail
    · constructor
      · simpa [Operation.apply, Operation.taken?, ht, note] using h.tryDepth
      · simpa [Operation.apply, ht, note] using h.indices

theorem replace {b c : Block} (h : x.Aligned (some b)) (hk : b.kind.SameChain c.kind)
    (st : Style) : ((Operation.push c).apply st x).Aligned none := by
  refine ⟨?_, h.push_indices c⟩
  have hbefore : { x.state with blocks := b :: x.state.blocks }.TryAligned := h.tryDepth
  exact hbefore.replace rfl hk.isTryChain_eq.symm

theorem tryAligned_apply {op : Operation} {following : List Operation} (h : x.Aligned held)
    (hheld : Operation.Replaces held (op :: following)) (hop : ∀ next line, op ≠ .take next line) (st : Style) :
    (op.apply st x).state.TryAligned := by
  cases op with
  | take next line => exact absurd rfl (hop next line)
  | close =>
    cases held with
    | none => exact (h.apply st .close).tryAligned
    | some b => exact hheld.elim
  | push c =>
    cases held with
    | none => exact (h.apply st (.push c)).tryAligned
    | some b => exact (h.replace hheld st).tryAligned

theorem applyAll {ops following : List Operation} {st : Style} (h : x.Aligned held)
    (hheld : Operation.Replaces held (ops ++ following))
    (hchained : Operation.Chained st (ops ++ following) x) :
    ∃ held', (Operation.applyAll st ops x).Aligned held' ∧
      Operation.Replaces held' following ∧
      Operation.Chained st following (Operation.applyAll st ops x) := by
  induction ops generalizing x held with
  | nil => exact ⟨held, h, hheld, hchained⟩
  | cons op ops ih =>
    obtain ⟨hreplaces, hchained⟩ := hchained
    cases held with
    | none => exact ih (h.apply st op) hreplaces hchained
    | some b =>
      cases op with
      | push c => exact ih (h.replace hheld st) hreplaces hchained
      | close => exact hheld.elim
      | take next line => exact hheld.elim

end Indexed.Aligned

private theorem Indexed.aligned_initial : Indexed.Aligned none {} := ⟨rfl, rfl⟩

private theorem State.TryAligned.closingDepth {s : State} (h : s.TryAligned) {b : Block}
    {outer : List Block} (hs : s.blocks = b :: outer) : s.closingDepth b outer.length = outer.length := by
  unfold State.closingDepth
  rw [h, hs, innermostTry?_cons]
  split
  · rfl
  · rfl

/-! ### Headers -/

private theorem Line.exists_attachComment (line : Line) (indent : Text) (before : List Text) (text : Text)
    (rest : List Text) :
    ∃ before' text', attachComment (line.comment.getD []) ((before ++ [text]).map (indent ++ ·) ++ rest) =
      (before' ++ [text']).map (indent ++ ·) ++ rest ∧ before'.length = before.length ∧ text <+: text' := by
  cases before with
  | nil =>
    refine ⟨[], text ++ line.commentSuffix, ?_, rfl, List.prefix_append ..⟩
    exact (attachComment_cons ..).trans (by simp)
  | cons first before =>
    refine ⟨(first ++ line.commentSuffix) :: before, text, ?_, rfl, List.prefix_refl _⟩
    exact (attachComment_cons ..).trans (by simp)

private theorem Run.exists_header_of_opened (o : Options) (line : Line) (following : List Line) (r : Run)
    {b : Block} (hb : (r.passage o line following).opened = some b) :
    ∃ held before text rest, (r.passage o line following).converted.output =
      (r.passage o line following).entered.output ++ List.replicate held [] ++
        (before ++ [text]).map (o.dialect.style.indent (r.passage o line following).converted.depth ++ ·) ++ rest ∧
      before.length ≤ 1 ∧ ∃ word ∈ o.dialect.openingWords b.kind, word <+: text := by
  have hdepth : (r.passage o line following).converted.depth =
      (r.passage o line following).entered.depth := by
    rw [State.depth, (r.sameNesting_passage o line following).blocks]
    rfl
  cases r.handled_passage o line following with
  | passed _ _ opened => simp [opened] at hb
  | @taken held _ outcome rule opened _ output =>
    have hopening := (Context.form_of_convert? rule).opening
    rw [← opened, hb] at hopening
    obtain ⟨before, text, rest, hlines, hbefore, hheads⟩ := hopening.headed
    obtain ⟨before', text', hattached, hlength, htext⟩ := line.exists_attachComment
      (o.dialect.style.indent (r.passage o line following).entered.depth) before text rest
    obtain ⟨word, hword, hleads⟩ := hheads o.dialect rfl
    refine ⟨held, before', text', rest, ?_, hlength ▸ hbefore, word, hword, hleads.trans htext⟩
    rw [output, hlines, hdepth]
    exact (congrArg (_ ++ ·) hattached).trans (List.append_assoc ..).symm

/-! ### Alignment -/

/-- After any operations that replace at once what they take away: a push or a close leaves as the
depth of try chains the index of their innermost block, and a close ends a block at the index at which
it was pushed. Line by line: the block that a line opens is pushed at the depth at which the line
writes its header, which begins with a word for such blocks; one line may stand above it, at the same depth. -/
theorem ends_align_with_headers :
    (∀ (st : Style) (before following : List Operation) (op : Operation),
      Operation.Chained st (before ++ op :: following) {} →
        let x := Operation.applyAll st before {}
        let y := op.apply st x
        ((∀ next line, op ≠ .take next line) →
          ∀ k, y.state.tryDepth = some k ↔ InnermostTryAt k y.state.blocks) ∧
        (op = .close → ∀ b outer, x.state.blocks = b :: outer →
          ∃ k, x.indices.head? = some k ∧ k = outer.length ∧
            y.state.output = (x.state.settleTop st b outer).output ++
              [Text.spaces (k * st.indentWidth) ++
                st.terminator (x.state.closingKind st b) b.loopVariable b.exitCondition])) ∧
    ∀ (o : Options) (line : Line) (following : List Line) (r : Run) (b : Block),
      let p := r.passage o line following
      p.opened = some b →
        (∃ braceless n, p.Places { b with braceless } n) ∧
        ∃ held before text rest, p.converted.output = p.entered.output ++ List.replicate held [] ++
          (before ++ [text]).map (Text.spaces (p.converted.blocks.length * o.dialect.style.indentWidth) ++ ·) ++
            rest ∧
          before.length ≤ 1 ∧ ∃ word ∈ o.dialect.openingWords b.kind, word <+: text := by
  constructor
  · intro st before following op hchained x y
    obtain ⟨held, haligned, hreplaces, _⟩ :=
      Indexed.aligned_initial.applyAll trivial hchained
    constructor
    · intro hop k
      have hy : y.state.TryAligned := haligned.tryAligned_apply hreplaces hop st
      rw [← innermostTry?_eq_some_iff, hy]
    · rintro rfl b outer hs
      cases held with
      | some c => exact hreplaces.elim
      | none =>
        refine ⟨outer.length, haligned.head?_indices hs, rfl, ?_⟩
        change (x.state.close st).output = _
        rw [close_of_cons st hs, haligned.tryAligned.closingDepth hs]
        rfl
  · intro o line following r b p hb
    refine ⟨?_, r.exists_header_of_opened o line following hb⟩
    cases r.leaves_passage o line following with
    | plain ho => simp [p, ho] at hb
    | restored ho => simp [p, ho] at hb
    | @opened c ho braceless n h =>
      obtain rfl : c = b := Option.some.inj (ho.symm.trans hb)
      exact ⟨braceless, n, h⟩

/-- A try chain in a branch in a try chain. Closing the inner chain brings back the outer one, and the
header of a further block stands where the block will end. -/
theorem ends_align_with_headers_nested :
    let before : List Operation :=
      [.push { kind := .tryBranch }, .push { kind := .ifBranch }, .push { kind := .tryBranch },
       .take .catchBranch 4, .push { kind := .catchBranch }]
    let following : List Operation :=
      [.take .elseBranch 6, .push { kind := .elseBranch }, .close, .take .catchBranch 8,
       .push { kind := .catchBranch }, .close]
    let inner := Operation.applyAll .cambridge (before ++ [.close]) {}
    let line : Line := ⟨9, .code, [], 6, "while a:", none⟩
    let p := Run.passage ⟨.indentation, .cambridge⟩ line [] { state := inner.state }
    Operation.Chained .cambridge (before ++ .close :: following) {} ∧
      InnermostTryAt 0 inner.state.blocks ∧ inner.state.output = ["      ENDTRY"] ∧
      p.opened = some { kind := .whileLoop } ∧ p.converted.blocks.length = 2 ∧
      p.converted.output = ["      ENDTRY", "      WHILE a DO"] ∧
      ∃ held before text rest, ["      ENDTRY".toList, "      WHILE a DO".toList] =
        ["      ENDTRY".toList] ++ List.replicate held [] ++ (before ++ [text]).map (Text.spaces 6 ++ ·) ++ rest ∧
        before.length ≤ 1 ∧ "WHILE" <+: text := by
  intro before following inner line p
  have hchained : Operation.Chained .cambridge (before ++ .close :: following) {} := by
    decide +kernel
  obtain ⟨hsequences, hlines⟩ := ends_align_with_headers
  obtain ⟨htry, hclose⟩ := hsequences .cambridge before following .close hchained
  obtain ⟨k, hk, _, houtput⟩ := hclose rfl { kind := .catchBranch }
    [{ kind := .ifBranch }, { kind := .tryBranch }] (by decide +kernel)
  obtain rfl : 2 = k := by
    have hindices : (Operation.applyAll .cambridge before {}).indices.head? = some 2 := by
      decide +kernel
    exact Option.some.inj (hindices.symm.trans hk)
  have hinner : inner.state.tryDepth = some 0 := by decide +kernel
  have hopened : p.opened = some { kind := .whileLoop } := by decide +kernel
  have hdepth : p.converted.blocks.length = 2 := by decide +kernel
  have hentered : p.entered.output = ["      ENDTRY".toList] := by decide +kernel
  have hwritten : p.converted.output = ["      ENDTRY".toList, "      WHILE a DO".toList] := by decide +kernel
  obtain ⟨_, held, above, text, rest, hheader, habove, word, hword, hleads⟩ := hlines _ _ _ _ _ hopened
  obtain rfl := List.mem_singleton.mp hword
  rw [hdepth] at hheader
  exact ⟨hchained, (htry (by simp) 0).mp hinner, houtput, hopened, hdepth, hwritten,
    held, above, text, rest, hwritten ▸ hentered ▸ hheader, habove, hleads⟩

end Pseudocode
