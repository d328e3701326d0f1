import Pseudocode.Proofs.StatementTree

/-! # Indented programs are rendered as trees

For every tree of statements and every choice of columns for its bodies, taking the lines one after
another writes the rendering of the tree. Blocks are closed late, by the first line that does not
belong to them, so between two lines the state may lag behind the tree: what is written then lacks
the ends of the inner blocks (`Ready`). -/

namespace Pseudocode.Program

/-! ### Programs laid out by indentation -/

mutual
/-- Statements that indented sources have, with headers that are recognised for what they are. -/
def Stmt.Indentable : Stmt → Prop
  | .simple p => p.code ≠ [] ∧ Indentation.continuation? p.code = none
  | .chain h body later =>
    h.code ≠ [] ∧ Indentation.continuation? h.code = none ∧ beginsChain h.block.kind = true ∧
      h.block.routine = none ∧ body.Indentable ∧ later.Indentable h.block.kind
  | .doWhile .. => False

/-- A body has at least one statement. -/
def Suite.Indentable : Suite → Prop
  | .block stmts => stmts ≠ .nil ∧ stmts.Indentable
  | .single _ => False

def Stmts.Indentable : Stmts → Prop
  | .nil => True
  | .cons s rest => s.Indentable ∧ rest.Indentable

/-- Every branch may follow the one before it, which is of kind `before`. -/
def Branches.Indentable (before : Kind) : Branches → Prop
  | .nil => True
  | .cons h body later =>
    before.accepts h.block.kind = true ∧ Indentation.continuation? h.code = some h.block.kind ∧
      h.block.routine = none ∧ body.Indentable ∧ later.Indentable h.block.kind
end

section

variable (convert : Line → Text → Conversion)

/-- A line at a column holds a phrase, and the converter makes of it what the phrase says. -/
structure ShownAt (column : Nat) (line : Line) (p : Phrase) (opens : Option Block) : Prop where
  isCode : line.isCode = true
  columns : line.columns = column
  code : line.code = p.code
  converted : convert line p.code = ⟨p.written, opens⟩

mutual
/-- The lines of a statement whose headers stand at `column`. The bodies of a chain share a deeper
column. -/
def Stmt.IndentedAt (column : Nat) : Stmt → List Line → Prop
  | .simple p, lines => ∃ line, lines = [line] ∧ ShownAt convert column line p none
  | .chain h body later, lines =>
    ∃ line inner more deeper, lines = line :: (inner ++ more) ∧
      ShownAt convert column line h.toPhrase (some h.block) ∧ column < deeper ∧
      body.IndentedAt deeper inner ∧ later.IndentedAt column deeper more
  | .doWhile .., _ => False

def Suite.IndentedAt (column : Nat) : Suite → List Line → Prop
  | .block stmts, lines => stmts.IndentedAt column lines
  | .single _, _ => False

def Stmts.IndentedAt (column : Nat) : Stmts → List Line → Prop
  | .nil, lines => lines = []
  | .cons s rest, lines =>
    ∃ first more, lines = first ++ more ∧ s.IndentedAt column first ∧ rest.IndentedAt column more

def Branches.IndentedAt (column deeper : Nat) : Branches → List Line → Prop
  | .nil, lines => lines = []
  | .cons h body later, lines =>
    ∃ line inner more, lines = line :: (inner ++ more) ∧
      ShownAt convert column line h.toPhrase (some h.block) ∧
      body.IndentedAt deeper inner ∧ later.IndentedAt column deeper more
end

end

end Pseudocode.Program

namespace Pseudocode.Indentation

open Program

/-! ### Levels -/

/-- The columns of some levels, innermost first; each level is a block with the column of its body. -/
def columnsOf (levels : List (Block × Nat)) : List Nat := levels.map (·.2) ++ [0]

/-- The column of the innermost body. -/
def columnOf (levels : List (Block × Nat)) : Nat := (columnsOf levels).head?.getD 0

@[simp] theorem columnOf_cons (x : Block × Nat) (levels : List (Block × Nat)) :
    columnOf (x :: levels) = x.2 := rfl

theorem exists_columnsOf_eq (levels : List (Block × Nat)) :
    ∃ outer, columnsOf levels = columnOf levels :: outer := by
  cases levels with
  | nil => exact ⟨[], rfl⟩
  | cons x levels => exact ⟨columnsOf levels, rfl⟩

theorem bodyReached_columnsOf_cons (cur : Nat) (x : Block × Nat) (levels : List (Block × Nat)) :
    bodyReached cur (columnsOf (x :: levels)) = decide (x.2 ≤ cur) := by
  obtain ⟨outer, h⟩ := exists_columnsOf_eq levels
  change bodyReached cur (x.2 :: columnsOf levels) = _
  rw [h, bodyReached]

theorem bodyReached_columnsOf {cur : Nat} {levels : List (Block × Nat)} (h : columnOf levels ≤ cur) :
    bodyReached cur (columnsOf levels) = true := by
  cases levels with
  | nil => rfl
  | cons x levels => simpa [bodyReached_columnsOf_cons] using h

theorem chainReached_columnsOf_cons (cur : Nat) (x : Block × Nat) (levels : List (Block × Nat)) :
    chainReached cur (columnsOf (x :: levels)) = decide (columnOf levels ≤ cur) := by
  obtain ⟨outer, h⟩ := exists_columnsOf_eq levels
  change chainReached cur (x.2 :: columnsOf levels) = _
  rw [h, chainReached]

/-- The stacks hold exactly the given levels, and `out` has been written. -/
structure Levels (levels : List (Block × Nat)) (out : List Text) (s : State) : Prop where
  blocks : s.blocks = levels.map (·.1)
  indents : s.indents = columnsOf levels
  output : s.output = out
  tryAligned : s.TryAligned
  final : ∀ x ∈ levels, x.1.routine = none

theorem Levels.depth {levels : List (Block × Nat)} {out : List Text} {s : State}
    (h : Levels levels out s) : s.depth = levels.length := by
  rw [State.depth, h.blocks, List.length_map]

theorem Levels.note {levels : List (Block × Nat)} {out : List Text} {s : State}
    (h : Levels levels out s) (e : Event) : Levels levels out (s.note e) :=
  ⟨h.blocks, h.indents, h.output, h.tryAligned, h.final⟩

theorem Levels.emitAll {levels : List (Block × Nat)} {out : List Text} {s : State}
    (h : Levels levels out s) (texts : List Text) : Levels levels (out ++ texts) (s.emitAll texts) :=
  ⟨h.blocks, h.indents, by rw [State.emitAll, h.output], h.tryAligned, h.final⟩

private theorem Levels.leaveBody {x : Block × Nat} {levels : List (Block × Nat)} {out : List Text} {s : State}
    (h : Levels (x :: levels) out s) (st : Style) :
    Levels levels (out ++ [x.1.closingLine st levels.length]) (leaveBody st s) := by
  have ht : State.TryAligned { s with indents := s.indents.tail } := h.tryAligned
  have hb : State.blocks { s with indents := s.indents.tail } = x.1 :: levels.map (·.1) := h.blocks
  refine ⟨?_, ?_, ?_, ht.close st, fun y hy => h.final y (List.mem_cons_of_mem x hy)⟩
  · simp only [Indentation.leaveBody, State.blocks_close, h.blocks, List.map_cons, List.tail_cons]
  · simp only [Indentation.leaveBody, State.indents_close, h.indents]
    rfl
  · rw [Indentation.leaveBody, ht.output_close st hb (h.final x (by simp)), List.length_map]
    rw [← h.output]

theorem Levels.leaveBodiesUntil {inner levels : List (Block × Nat)} {out : List Text} {s : State}
    (h : Levels (inner ++ levels) out s) (st : Style) {stop : List Nat → Bool}
    (hgo : ∀ x rest, x :: rest <:+ inner → stop (columnsOf (x :: rest ++ levels)) = false)
    (hstop : stop (columnsOf levels) = true) {n : Nat} (hn : inner.length ≤ n) :
    Levels levels (out ++ State.closingLines st levels.length (inner.map (·.1)))
      (leaveBodiesUntil st stop n s) := by
  induction inner generalizing n out s with
  | nil =>
    have hs : Levels levels out s := h
    simp only [List.map_nil, State.closingLines, List.append_nil]
    cases n with
    | zero => exact hs
    | succ n =>
      rw [Indentation.leaveBodiesUntil, hs.indents, if_pos hstop]
      exact hs
  | cons x inner ih =>
    obtain ⟨n, rfl⟩ : ∃ k, n = k + 1 := ⟨n - 1, by simp only [List.length_cons] at hn; omega⟩
    have hx := hgo x inner (List.suffix_refl _)
    rw [Indentation.leaveBodiesUntil, h.indents, hx, if_neg Bool.false_ne_true]
    have hleft := h.leaveBody st
    have hrest := ih hleft (fun y rest hy => hgo y rest (hy.trans (List.suffix_cons x inner)))
      (by simpa using hn)
    simpa [State.closingLines] using hrest

/-! ### Between two lines -/

/-- A line at `column` inside `levels` comes next: `out` is what will have been written once the
deeper levels are closed. -/
def Ready (st : Style) (column : Nat) (levels : List (Block × Nat)) (out : List Text) (s : State) :
    Prop :=
  ∃ inner written, Levels (inner ++ levels) written s ∧ (∀ x ∈ inner, column < x.2) ∧
    written ++ State.closingLines st levels.length (inner.map (·.1)) = out

theorem Levels.ready {levels : List (Block × Nat)} {out : List Text} {s : State}
    (h : Levels levels out s) (st : Style) (column : Nat) : Ready st column levels out s :=
  ⟨[], out, h, by simp, by simp [State.closingLines]⟩

theorem Ready.outer {st : Style} {column deeper : Nat} {b : Block} {levels : List (Block × Nat)}
    {out : List Text} {s : State} (h : Ready st deeper ((b, deeper) :: levels) out s)
    (hc : column < deeper) :
    Ready st column levels (out ++ [b.closingLine st levels.length]) s := by
  obtain ⟨inner, written, hl, hi, rfl⟩ := h
  refine ⟨inner ++ [(b, deeper)], written, by simpa using hl, ?_, ?_⟩
  · intro x hx
    rcases List.mem_append.mp hx with hx | hx
    · exact Nat.lt_trans hc (hi x hx)
    · obtain rfl := List.mem_singleton.mp hx
      exact hc
  · rw [List.map_append, List.map_singleton, State.closingLines_append_singleton, List.length_cons,
      List.append_assoc]

theorem Levels.settleHeader_eq {levels : List (Block × Nat)} {out : List Text} {s : State}
    (h : Levels levels out s) (st : Style) (line : Line) : settleHeader st line s = s := by
  rw [Indentation.settleHeader, if_pos]
  rw [h.blocks, h.indents, columnsOf]
  simp

/-- A line that continues no chain closes what is deeper than it. -/
theorem Ready.enter_plain {st : Style} {column : Nat} {levels : List (Block × Nat)} {out : List Text}
    {s : State} (h : Ready st column levels out s) (hc : columnOf levels = column) {line : Line}
    (hl : line.columns = column) (hk : continuation? line.code = none) :
    ∃ t, enter st line s = ({ code := line.code }, t) ∧ Levels levels out t := by
  obtain ⟨inner, written, hs, hi, rfl⟩ := h
  have hgo : ∀ x rest, x :: rest <:+ inner →
      bodyReached column (columnsOf (x :: rest ++ levels)) = false := by
    intro x rest hx
    have hdeep := hi x (hx.subset (by simp))
    rw [List.cons_append, bodyReached_columnsOf_cons]
    simpa using hdeep
  have hleft := hs.leaveBodiesUntil st hgo (bodyReached_columnsOf (Nat.le_of_eq hc))
    (n := s.indents.length) (by rw [hs.indents, columnsOf]; simp)
  refine ⟨_, by unfold enter; rw [hs.settleHeader_eq, hk, hl], ?_⟩
  unfold checkAligned
  split
  · exact hleft.note _
  · exact hleft

theorem Ready.enter_branch {st : Style} {column deeper : Nat} {b : Block}
    {levels : List (Block × Nat)} {out : List Text} {s : State}
    (h : Ready st deeper ((b, deeper) :: levels) out s) (hc : columnOf levels = column)
    (hd : column < deeper) {line : Line} (hl : line.columns = column) {kind : Kind}
    (hk : continuation? line.code = some kind) (ha : b.kind.accepts kind = true) :
    ∃ t, enter st line s =
        ({ code := line.code, taken := some b }, { t with blocks := t.blocks.tail }) ∧
      Levels ((b, deeper) :: levels) out t := by
  obtain ⟨inner, written, hs, hi, rfl⟩ := h
  have hgo : ∀ x rest, x :: rest <:+ inner →
      chainReached column (columnsOf (x :: rest ++ (b, deeper) :: levels)) = false := by
    intro x rest hx
    rw [List.cons_append, chainReached_columnsOf_cons]
    have hdeep : column < columnOf (rest ++ (b, deeper) :: levels) := by
      cases rest with
      | nil => exact hd
      | cons y rest => exact Nat.lt_trans hd (hi y (hx.subset (by simp)))
    simpa using hdeep
  have hstop : chainReached column (columnsOf ((b, deeper) :: levels)) = true := by
    rw [chainReached_columnsOf_cons, hc]
    simp
  have hleft := hs.leaveBodiesUntil st hgo hstop
    (n := s.indents.length) (by rw [hs.indents, columnsOf]; simp)
  refine ⟨_, ?_, hleft⟩
  unfold enter
  rw [hs.settleHeader_eq, hk, hl]
  simp only [State.take, hleft.blocks, List.map_cons, ha, ↓reduceIte, List.tail_cons]

/-! ### Lines of a program -/

section

variable {st : Style} {convert : Line → Text → Conversion}

theorem trackLine_of_shownAt {line : Line} {following : List Line} {s t : State} {p : Phrase}
    {opens : Option Block} {column : Nat} {taken : Option Block}
    (hl : ShownAt convert column line p opens) (hp : p.code ≠ [])
    (he : enter st line s = ({ code := line.code, taken }, t)) :
    trackLine st .indentation convert line following s =
      leave { code := p.code, taken } opens (t.emitAll (st.indented t.depth p.written)) := by
  rw [hl.code] at he
  exact trackLine_eq he hp hl.converted

theorem Ready.track_simple {column : Nat} {levels : List (Block × Nat)} {out : List Text} {s : State}
    (h : Ready st column levels out s) (hc : columnOf levels = column) {line : Line} {p : Phrase}
    (hl : ShownAt convert column line p none) (hp : p.code ≠ [])
    (hk : continuation? p.code = none) (following : List Line) :
    Levels levels (out ++ st.indented levels.length p.written)
      (trackLine st .indentation convert line following s) := by
  obtain ⟨t, he, ht⟩ := h.enter_plain hc hl.columns (hl.code ▸ hk)
  rw [trackLine_of_shownAt hl hp he, ht.depth]
  exact ht.emitAll _

/-- The header of a block that has no body yet. -/
structure Waiting (b : Block) (levels : List (Block × Nat)) (out : List Text) (s : State) : Prop where
  blocks : s.blocks = b :: levels.map (·.1)
  indents : s.indents = columnsOf levels
  output : s.output = out
  tryAligned : s.TryAligned
  final : ∀ x ∈ levels, x.1.routine = none

theorem Ready.track_header {column : Nat} {levels : List (Block × Nat)} {out : List Text} {s : State}
    (h : Ready st column levels out s) (hc : columnOf levels = column) {line : Line} {p : Header}
    (hl : ShownAt convert column line p.toPhrase (some p.block)) (hp : p.code ≠ [])
    (hk : continuation? p.code = none) (following : List Line) :
    Waiting p.block levels (out ++ st.indented levels.length p.written)
      (trackLine st .indentation convert line following s) := by
  obtain ⟨t, he, ht⟩ := h.enter_plain hc hl.columns (hl.code ▸ hk)
  rw [trackLine_of_shownAt hl hp he, ht.depth]
  have hout := ht.emitAll (st.indented levels.length p.written)
  exact ⟨congrArg (p.block :: ·) hout.blocks, hout.indents, hout.output, hout.tryAligned.push _,
    hout.final⟩

/-- The first deeper line begins the body. -/
theorem Waiting.begin_body {b : Block} {levels : List (Block × Nat)} {out : List Text} {s : State}
    (h : Waiting b levels out s) (st : Style) (hb : b.routine = none) {line : Line}
    (hl : columnOf levels < line.columns) :
    Levels ((b, line.columns) :: levels) out (settleHeader st line s) := by
  have hlevel : s.level = columnOf levels := by rw [State.level, h.indents, columnOf]
  have hlen : ¬s.blocks.length < s.indents.length := by
    rw [h.blocks, h.indents, columnsOf]
    simp
  rw [Indentation.settleHeader, if_neg hlen, if_pos (by rw [hlevel]; exact hl)]
  refine ⟨h.blocks, congrArg (line.columns :: ·) h.indents, h.output, h.tryAligned, ?_⟩
  intro x hx
  rcases List.mem_cons.mp hx with rfl | hx
  · exact hb
  · exact h.final x hx

theorem Waiting.track_cons {b : Block} {levels : List (Block × Nat)} {out : List Text} {s : State}
    (h : Waiting b levels out s) (hb : b.routine = none) {line : Line} (hcode : line.isCode = true)
    (hl : columnOf levels < line.columns) (lines following : List Line) :
    track st .indentation convert (line :: lines) following s =
      track st .indentation convert (line :: lines) following (settleHeader st line s) := by
  have hs := h.begin_body st hb hl
  have henter : enter st line (settleHeader st line s) = enter st line s := by
    unfold enter
    rw [hs.settleHeader_eq]
  rw [track_cons_of_code _ _ _ hcode, track_cons_of_code _ _ _ hcode]
  congr 1
  unfold trackLine State.enter
  simp only
  rw [henter]

theorem Ready.track_branch {column deeper : Nat} {b : Block} {levels : List (Block × Nat)}
    {out : List Text} {s : State} (h : Ready st deeper ((b, deeper) :: levels) out s)
    (hc : columnOf levels = column) (hd : column < deeper) {line : Line} {p : Header}
    (hl : ShownAt convert column line p.toPhrase (some p.block))
    (hk : continuation? p.code = some p.block.kind) (ha : b.kind.accepts p.block.kind = true)
    (hr : p.block.routine = none) (following : List Line) :
    Levels ((p.block, deeper) :: levels) (out ++ st.indented levels.length p.written)
      (trackLine st .indentation convert line following s) := by
  obtain ⟨t, he, ht⟩ := h.enter_branch hc hd hl.columns (hl.code ▸ hk) ha
  have hp : p.code ≠ [] := by
    intro hn
    rw [hn] at hk
    simp [continuation?, Text.endsWith] at hk
  rw [trackLine_of_shownAt hl hp he]
  have hblocks : t.blocks = b :: levels.map (·.1) := ht.blocks
  have hdepth : State.depth { t with blocks := t.blocks.tail } = levels.length := by
    simp [State.depth, hblocks]
  rw [hdepth]
  refine ⟨?_, ht.indents, ?_, ?_, ?_⟩
  · change p.block :: t.blocks.tail = _
    rw [hblocks]
    rfl
  · change t.output ++ _ = _
    rw [ht.output]
  · have htry := ht.tryAligned.replace hblocks (isTryChain_eq_of_accepts ha)
    rwa [← show t.blocks.tail = levels.map (·.1) by rw [hblocks]; rfl] at htry
  · intro x hx
    rcases List.mem_cons.mp hx with rfl | hx
    · exact hr
    · exact ht.final x (List.mem_cons_of_mem _ hx)

/-! ### Whole trees -/

private theorem exists_cons_of_indentedAt {column : Nat} {t : Stmt} {lines : List Line}
    (h : t.IndentedAt convert column lines) :
    ∃ line rest, lines = line :: rest ∧ line.isCode = true ∧ line.columns = column := by
  cases t with
  | simple p =>
    obtain ⟨line, rfl, hl⟩ := h
    exact ⟨line, [], rfl, hl.isCode, hl.columns⟩
  | chain p body later =>
    obtain ⟨line, inner, more, deeper, rfl, hl, _⟩ := h
    exact ⟨line, _, rfl, hl.isCode, hl.columns⟩
  | doWhile => exact h.elim

theorem exists_cons_of_suite {column : Nat} {body : Suite} {lines : List Line}
    (hw : body.Indentable) (h : body.IndentedAt convert column lines) :
    ∃ line rest, lines = line :: rest ∧ line.isCode = true ∧ line.columns = column := by
  cases body with
  | single => exact hw.elim
  | block stmts =>
    cases stmts with
    | nil => exact absurd rfl hw.1
    | cons t rest =>
      obtain ⟨first, more, rfl, ht, _⟩ := h
      obtain ⟨line, lines, rfl, hl⟩ := exists_cons_of_indentedAt ht
      exact ⟨line, lines ++ more, rfl, hl⟩

variable (symbols : Symbols)

-- The four statements follow the tree: each takes the lines of a part of it from a state that may
-- still have deeper levels to close, and leads to such a state again.
mutual
theorem track_stmt (t : Stmt) {column : Nat} {lines : List Line}
    {levels : List (Block × Nat)} {out : List Text} {s : State} (hw : t.Indentable)
    (hl : t.IndentedAt convert column lines) (hc : columnOf levels = column)
    (hs : Ready st column levels out s) (following : List Line) :
    Ready st column levels (out ++ t.render st symbols levels.length)
      (track st .indentation convert lines following s) := by
  cases t with
  | simple p =>
    obtain ⟨line, rfl, hline⟩ := hl
    rw [track_cons_of_code _ _ _ hline.isCode, track_nil]
    exact (hs.track_simple hc hline hw.1 hw.2 _).ready st column
  | chain p body later =>
    obtain ⟨hp, hk, _, hr, hbody, hlater⟩ := hw
    obtain ⟨line, inner, more, deeper, rfl, hline, hd, hinner, hmore⟩ := hl
    rw [track_cons_of_code _ _ _ hline.isCode, track_append]
    have hwait := hs.track_header hc hline hp hk (inner ++ more ++ following)
    obtain ⟨first, rest, rfl, hcode, hfirst⟩ := exists_cons_of_suite hbody hinner
    have hdeep : columnOf levels < first.columns := by rw [hc, hfirst]; exact hd
    rw [hwait.track_cons hr hcode hdeep]
    have hbegun := hwait.begin_body st hr hdeep
    rw [hfirst] at hbegun
    have hdone := track_suite body hbody hinner rfl (hbegun.ready st deeper) (more ++ following)
    have hall := track_branches later hlater hmore hc hd hdone following
    simpa [Stmt.render, List.append_assoc] using hall
  | doWhile => exact hw.elim

theorem track_suite (body : Suite) {column : Nat} {lines : List Line}
    {levels : List (Block × Nat)} {out : List Text} {s : State} (hw : body.Indentable)
    (hl : body.IndentedAt convert column lines) (hc : columnOf levels = column)
    (hs : Ready st column levels out s) (following : List Line) :
    Ready st column levels (out ++ body.render st symbols levels.length)
      (track st .indentation convert lines following s) := by
  cases body with
  | block stmts => exact track_stmts stmts hw.2 hl hc hs following
  | single => exact hw.elim

theorem track_stmts (stmts : Stmts) {column : Nat} {lines : List Line}
    {levels : List (Block × Nat)} {out : List Text} {s : State} (hw : stmts.Indentable)
    (hl : stmts.IndentedAt convert column lines) (hc : columnOf levels = column)
    (hs : Ready st column levels out s) (following : List Line) :
    Ready st column levels (out ++ stmts.render st symbols levels.length)
      (track st .indentation convert lines following s) := by
  cases stmts with
  | nil =>
    obtain rfl := hl
    simpa [Stmts.render] using hs
  | cons t rest =>
    obtain ⟨first, more, rfl, hfirst, hmore⟩ := hl
    rw [track_append]
    have ht := track_stmt t hw.1 hfirst hc hs (more ++ following)
    have hrest := track_stmts rest hw.2 hmore hc ht following
    simpa [Stmts.render, List.append_assoc] using hrest

theorem track_branches (later : Branches) {column deeper : Nat} {b : Block}
    {lines : List Line} {levels : List (Block × Nat)} {out : List Text} {s : State}
    (hw : later.Indentable b.kind) (hl : later.IndentedAt convert column deeper lines)
    (hc : columnOf levels = column) (hd : column < deeper)
    (hs : Ready st deeper ((b, deeper) :: levels) out s) (following : List Line) :
    Ready st column levels (out ++ later.render st symbols levels.length b)
      (track st .indentation convert lines following s) := by
  cases later with
  | nil =>
    obtain rfl := hl
    exact hs.outer hd
  | cons p body later =>
    obtain ⟨ha, hk, hr, hbody, hlater⟩ := hw
    obtain ⟨line, inner, more, rfl, hline, hinner, hmore⟩ := hl
    rw [track_cons_of_code _ _ _ hline.isCode, track_append]
    have hbranch := hs.track_branch hc hd hline hk ha hr (inner ++ more ++ following)
    have hdone := track_suite body hbody hinner rfl (hbranch.ready st deeper) (more ++ following)
    have hall := track_branches later hlater hmore hc hd hdone following
    simpa [Branches.render, List.append_assoc] using hall
end

end

/-- An indented program is written as the rendering of its tree, and nothing stays open. -/
theorem indented_render (st : Style) (convert : Line → Text → Conversion) (symbols : Symbols)
    (program : Stmts) (hw : program.Indentable) (lines : List Line)
    (hl : program.IndentedAt convert 0 (lines.filter Line.isCode)) :
    ((track st .indentation convert lines [] {}).closeAll st).output = program.render st symbols 0 ∧
      ((track st .indentation convert lines [] {}).closeAll st).blocks = [] := by
  have hstart : Levels [] [] {} := ⟨rfl, rfl, rfl, rfl, by simp⟩
  have hdone := track_stmts symbols program hw hl rfl (hstart.ready st 0) []
  rw [track_filter_isCode] at hdone
  obtain ⟨inner, written, hs, _, hout⟩ := hdone
  rw [List.append_nil] at hs
  refine ⟨?_, State.blocks_closeAll st _⟩
  rw [hs.tryAligned.output_closeAll st, hs.output, hs.blocks]
  · simpa using hout
  · rw [hs.blocks]
    intro b hb
    obtain ⟨x, hx, rfl⟩ := List.mem_map.mp hb
    exact hs.final x hx

/-- A loop at the end of a branch: the `else` closes the loop, and the last line the chain. -/
theorem indented_render_nested :
    let conditional : Header := ⟨⟨"if a:", ["IF a THEN"]⟩, { kind := .ifBranch }⟩
    let loop : Header := ⟨⟨"while b:", ["WHILE b DO"]⟩, { kind := .whileLoop }⟩
    let otherwise : Header := ⟨⟨"else:", ["ELSE"]⟩, { kind := .elseBranch }⟩
    let step : Phrase := ⟨"x += 1", ["x <- x + 1"]⟩
    let once : Stmts := .cons (.simple step) .nil
    let branch : Stmts := .cons (.simple step) (.cons (.chain loop (.block once) .nil) .nil)
    let program : Stmts :=
      .cons (.chain conditional (.block branch) (.cons otherwise (.block once) .nil)) once
    let line (columns : Nat) (code : Text) : Line := ⟨1, .code, [], columns, code, none⟩
    let lines : List Line := [line 0 "if a:", line 4 "x += 1", line 4 "while b:", line 6 "x += 1",
      line 0 "else:", line 4 "x += 1", line 0 "x += 1"]
    let convert : Line → Text → Conversion := fun _ code =>
      match [conditional, loop, otherwise].find? (·.code = code) with
      | some h => ⟨h.written, some h.block⟩
      | none => ⟨step.written, none⟩
    let s := track .cambridge .indentation convert lines [] {}
    program.Indentable ∧ program.IndentedAt convert 0 (lines.filter Line.isCode) ∧
      (s.closeAll .cambridge).output =
        ["IF a THEN".toList, "   x <- x + 1".toList, "   WHILE b DO".toList,
         "      x <- x + 1".toList, "   ENDWHILE".toList, "ELSE".toList, "   x <- x + 1".toList,
         "ENDIF".toList, "x <- x + 1".toList] ∧
      (s.closeAll .cambridge).blocks = [] := by
  intro conditional loop otherwise step once branch program line lines convert s
  have honce : once.Indentable := ⟨⟨by decide, by decide⟩, trivial⟩
  have hloop : (Stmt.chain loop (.block once) .nil).Indentable :=
    ⟨by decide, by decide, rfl, rfl, ⟨by simp [once], honce⟩, trivial⟩
  have hw : program.Indentable :=
    ⟨⟨by decide, by decide, rfl, rfl, ⟨by simp [branch], honce.1, hloop, trivial⟩,
      rfl, by decide, rfl, ⟨by simp [once], honce⟩, trivial⟩, honce⟩
  have honceAt : ∀ column, once.IndentedAt convert column [line column "x += 1"] := by
    intro column
    exact ⟨[line column "x += 1"], [], rfl, ⟨line column "x += 1", rfl, rfl, rfl, rfl, rfl⟩, rfl⟩
  have hloopAt : (Stmt.chain loop (.block once) .nil).IndentedAt convert 4
      [line 4 "while b:", line 6 "x += 1"] :=
    ⟨line 4 "while b:", [line 6 "x += 1"], [], 6, rfl, ⟨rfl, rfl, rfl, rfl⟩, by decide, honceAt 6, rfl⟩
  have hbranchAt : branch.IndentedAt convert 4
      [line 4 "x += 1", line 4 "while b:", line 6 "x += 1"] :=
    ⟨[line 4 "x += 1"], _, rfl, ⟨line 4 "x += 1", rfl, rfl, rfl, rfl, rfl⟩, _, [], rfl, hloopAt, rfl⟩
  have hl : program.IndentedAt convert 0 (lines.filter Line.isCode) :=
    ⟨lines.take 6, [line 0 "x += 1"], rfl,
      ⟨line 0 "if a:", _, [line 0 "else:", line 4 "x += 1"], 4, rfl, ⟨rfl, rfl, rfl, rfl⟩, by decide,
        hbranchAt, line 0 "else:", [line 4 "x += 1"], [], rfl, ⟨rfl, rfl, rfl, rfl⟩, honceAt 4, rfl⟩,
      honceAt 0⟩
  obtain ⟨hout, hblocks⟩ := indented_render .cambridge convert {} program hw lines hl
  exact ⟨hw, hl, hout.trans (by decide +kernel), hblocks⟩

end Pseudocode.Indentation
