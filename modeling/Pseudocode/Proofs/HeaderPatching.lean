import Pseudocode.Proofs.ClosingStages
import Pseudocode.Proofs.RuleForms

/-! # Headers are settled in place

A routine remembers where its provisional header was written. Blank lines, comments, other statements
and inner routines are written before its block is closed; still the line at that place is the header
that its own definition wrote, and closing the block changes this line alone. -/

namespace Pseudocode

/-! ### Provisional headers -/

/-- The provisional header that a line writes for a routine. -/
def placeholder (st : Style) (r : Routine) (x : Line × Passage) : Text :=
  st.indent x.2.converted.depth ++ r.header st false none ++ x.1.commentSuffix

/-- A line opens the block of a routine and writes its provisional header, where the routine says and
after all that was written before. -/
structure Defines (st : Style) (r : Routine) (x : Line × Passage) : Prop where
  opened : x.2.opened = some (.ofRoutine r)
  fresh : x.2.entered.output.length ≤ r.headerIndex
  written : x.2.converted.output[r.headerIndex]? = some (placeholder st r x)
  plain : r.Plain

/-- The routines among some blocks, innermost first. -/
def routinesOf (blocks : List Block) : List Routine := blocks.filterMap Block.routine

theorem routinesOf_cons_of_none {b : Block} (h : b.routine = none) (blocks : List Block) :
    routinesOf (b :: blocks) = routinesOf blocks :=
  List.filterMap_cons_none h

theorem routinesOf_cons_of_some {b : Block} {r : Routine} (h : b.routine = some r)
    (blocks : List Block) : routinesOf (b :: blocks) = r :: routinesOf blocks :=
  List.filterMap_cons_some h

theorem routinesOf_append (inner outer : List Block) :
    routinesOf (inner ++ outer) = routinesOf inner ++ routinesOf outer :=
  List.filterMap_append

theorem mem_routinesOf {r : Routine} {blocks : List Block} :
    r ∈ routinesOf blocks ↔ ∃ b ∈ blocks, b.routine = some r :=
  List.mem_filterMap

namespace Run

variable (d : Dialect) (line : Line) (following : List Line) (r : Run)

/-- A line of an indented source opens a routine only by defining it. -/
theorem defines_of_opened : ∀ b ∈ (r.passage ⟨.indentation, d⟩ line following).opened,
    ∀ routine ∈ b.routine, b = .ofRoutine routine ∧
      Defines d.style routine (line, r.passage ⟨.indentation, d⟩ line following) := by
  intro b hb routine hr
  have hnesting := r.sameNesting_passage ⟨.indentation, d⟩ line following
  have hhandled := r.handled_passage ⟨.indentation, d⟩ line following
  generalize r.passage ⟨.indentation, d⟩ line following = p at *
  cases hhandled with
  | passed _ _ opened => simp [opened] at hb
  | @taken held rule outcome hconvert opened _ output =>
    have hopens : outcome.opens = some b := opened.symm.trans hb
    have hopening := (Context.form_of_convert? hconvert).opening
    rw [hopens] at hopening
    cases hopening with
    | block bare => simp [bare] at hr
    | @routine r' _ _ hlines hindex hplain =>
      obtain rfl : r' = routine := Option.some.inj hr
      have hindex : r'.headerIndex = (p.before held).output.length := hindex
      refine ⟨rfl, hb, ?_, ?_, hplain⟩
      · rw [hindex, Passage.before, State.emitAll, List.length_append]
        exact Nat.le_add_right ..
      · have hdepth : p.converted.depth = p.entered.depth := congrArg List.length hnesting.blocks
        rw [output, hlines, attachComment_cons, hindex, List.getElem?_append_right (Nat.le_refl _),
          Nat.sub_self, placeholder, hdepth]
        rfl

theorem clear_passage
    (h : (r.passage ⟨.indentation, d⟩ line following).entered.symbols.notes.Clear) :
    (r.passage ⟨.indentation, d⟩ line following).converted.symbols.notes.Clear := by
  have hhandled := r.handled_passage ⟨.indentation, d⟩ line following
  generalize r.passage ⟨.indentation, d⟩ line following = p at *
  cases hhandled with
  | passed _ _ _ symbols => exact symbols ▸ h
  | @taken held rule outcome hconvert _ symbols =>
    have hnoted : Indented.Noted (p.context ⟨.indentation, d⟩ held) rule p.entry.code outcome.notes :=
      (Context.form_of_convert? hconvert).noted
    rw [symbols]
    exact hnoted.clear h

end Run

/-! ### The headers of open routines -/

/-- The headers of the open routines stand one after another, and each is as its definition wrote
it. -/
structure HeadersKept (st : Style) (done : List (Line × Passage)) (blocks : List Block)
    (output : List Text) : Prop where
  descending : ((routinesOf blocks).map Routine.headerIndex).Pairwise (· > ·)
  provisional : ∀ b ∈ blocks, ∀ r ∈ b.routine, b = .ofRoutine r ∧
    ∃ x ∈ done, Defines st r x ∧ output[r.headerIndex]? = some (placeholder st r x)

namespace HeadersKept

variable {st : Style} {done : List (Line × Passage)} {b : Block} {blocks outer : List Block}
  {output output' : List Text}

theorem nil (st : Style) (done : List (Line × Passage)) (output : List Text) :
    HeadersKept st done [] output :=
  ⟨.nil, by simp⟩

theorem lt_length (h : HeadersKept st done blocks output) (hb : b ∈ blocks) {r : Routine}
    (hr : b.routine = some r) : r.headerIndex < output.length := by
  obtain ⟨_, x, _, _, hx⟩ := h.provisional b hb r hr
  exact (List.getElem?_eq_some_iff.mp hx).1

theorem tail (h : HeadersKept st done (b :: outer) output) : HeadersKept st done outer output := by
  refine ⟨?_, fun c hc => h.provisional c (List.mem_cons_of_mem b hc)⟩
  cases hr : b.routine with
  | none => exact routinesOf_cons_of_none hr outer ▸ h.descending
  | some r =>
    have hdescending := h.descending
    rw [routinesOf_cons_of_some hr, List.map_cons] at hdescending
    exact hdescending.of_cons

theorem lt_of_mem (h : HeadersKept st done (b :: outer) output) {r : Routine}
    (hr : b.routine = some r) {r' : Routine} (hr' : r' ∈ routinesOf outer) :
    r'.headerIndex < r.headerIndex := by
  have hdescending := h.descending
  rw [routinesOf_cons_of_some hr, List.map_cons] at hdescending
  exact List.rel_of_pairwise_cons hdescending (List.mem_map_of_mem hr')

theorem extend (h : HeadersKept st done blocks output) (hp : output <+: output')
    (more : List (Line × Passage)) : HeadersKept st (done ++ more) blocks output' := by
  refine ⟨h.descending, ?_⟩
  intro b hb r hr
  obtain ⟨hroutine, x, hx, hdefines, hline⟩ := h.provisional b hb r hr
  obtain ⟨rest, rfl⟩ := hp
  refine ⟨hroutine, x, List.mem_append_left more hx, hdefines, ?_⟩
  rw [List.getElem?_append_left (h.lt_length hb hr), hline]

theorem cons_of_none (h : HeadersKept st done blocks output) (hb : b.routine = none) :
    HeadersKept st done (b :: blocks) output := by
  refine ⟨(routinesOf_cons_of_none hb blocks).symm ▸ h.descending, ?_⟩
  intro c hc r hr
  rcases List.mem_cons.mp hc with rfl | hc
  · simp [hb] at hr
  · exact h.provisional c hc r hr

private theorem cons_of_defines (h : HeadersKept st done blocks output) {r : Routine} {x : Line × Passage}
    (hx : x ∈ done) (hdefines : Defines st r x) (houtput : output = x.2.converted.output)
    (hfresh : ∀ r' ∈ routinesOf blocks, r'.headerIndex < x.2.entered.output.length) :
    HeadersKept st done (.ofRoutine r :: blocks) output := by
  constructor
  · rw [routinesOf_cons_of_some rfl, List.map_cons, List.pairwise_cons]
    refine ⟨?_, h.descending⟩
    intro j hj
    obtain ⟨r', hr', rfl⟩ := List.mem_map.mp hj
    have hlt := hfresh r' hr'
    have hle := hdefines.fresh
    omega
  · intro c hc r' hr'
    rcases List.mem_cons.mp hc with rfl | hc
    · obtain rfl : r = r' := Option.some.inj hr'
      exact ⟨rfl, x, hx, hdefines, houtput ▸ hdefines.written⟩
    · exact h.provisional c hc r' hr'

variable {s : State}

private theorem close (h : HeadersKept st done s.blocks s.output) :
    HeadersKept st done (s.close st).blocks (s.close st).output := by
  cases hs : s.blocks with
  | nil =>
    rw [State.blocks_close, hs]
    exact nil st done _
  | cons b outer =>
    rw [hs] at h
    have houter := h.tail
    rw [State.blocks_close, hs, List.tail_cons]
    refine ⟨houter.descending, ?_⟩
    intro c hc r hr
    obtain ⟨hroutine, x, hx, hdefines, hline⟩ := houter.provisional c hc r hr
    refine ⟨hroutine, x, hx, hdefines, ?_⟩
    rw [State.getElem?_output_close_of_ne st hs (houter.lt_length hc hr), hline]
    intro r' hr'
    have hlt := h.lt_of_mem hr' (mem_routinesOf.mpr ⟨c, hc, hr⟩)
    omega

theorem closeMany (h : HeadersKept st done s.blocks s.output) (n : Nat) :
    HeadersKept st done (State.closeMany st n s).blocks (State.closeMany st n s).output := by
  induction n generalizing s with
  | zero => exact h
  | succ n ih => exact ih h.close

theorem stage (h : HeadersKept st done s.blocks s.output) {n : Nat} {taken : Option Block}
    {t : State} (hs : State.Stage st n taken s t) :
    HeadersKept st done (taken.toList ++ t.blocks) t.output := by
  have hclosed := h.closeMany n
  rwa [State.blocks_closeMany, hs.blocks, ← hs.output] at hclosed

end HeadersKept

/-- What holds of a run after some lines. -/
structure Kept (d : Dialect) (done : List (Line × Passage)) (r : Run) : Prop where
  headers : HeadersKept d.style done r.state.blocks r.state.output
  clear : r.state.symbols.notes.Clear

private theorem HeadersKept.step {d : Dialect} {done : List (Line × Passage)} {r : Run}
    (h : HeadersKept d.style done r.state.blocks r.state.output) (line : Line)
    (following : List Line) :
    HeadersKept d.style (done ++ [(line, r.passage ⟨.indentation, d⟩ line following)])
      (r.passage ⟨.indentation, d⟩ line following).left.blocks
      (r.passage ⟨.indentation, d⟩ line following).left.output := by
  obtain ⟨n, hstage⟩ := r.stage_passage d line following
  obtain ⟨hblocks, houtput, _⟩ := r.left_indented d line following
  have hnesting := r.sameNesting_passage ⟨.indentation, d⟩ line following
  have hhandled := r.handled_passage ⟨.indentation, d⟩ line following
  have hopened := r.defines_of_opened d line following
  rw [← r.met_passage ⟨.indentation, d⟩ line following] at h
  generalize r.passage ⟨.indentation, d⟩ line following = p at *
  have hentered := h.stage hstage
  have hconverted := hentered.extend hhandled.output [(line, p)]
  rw [hblocks, houtput, hnesting.blocks]
  cases ho : p.opened with
  | none => exact hconverted
  | some b =>
    have hinner : HeadersKept d.style (done ++ [(line, p)]) p.entered.blocks p.converted.output := by
      cases ht : p.entry.taken with
      | none => simpa [ht] using hconverted
      | some c => exact HeadersKept.tail (by simpa [ht] using hconverted)
    change HeadersKept d.style (done ++ [(line, p)]) (b :: p.entered.blocks) p.converted.output
    cases hr : b.routine with
    | none => exact hinner.cons_of_none hr
    | some routine =>
      obtain ⟨rfl, hdefines⟩ := hopened b ho routine hr
      refine hinner.cons_of_defines (by simp) hdefines rfl ?_
      intro r' hr'
      obtain ⟨c, hc, hcr⟩ := mem_routinesOf.mp hr'
      exact hentered.lt_length (List.mem_append_right _ hc) hcr

theorem Kept.step {d : Dialect} {done : List (Line × Passage)} {r : Run} (h : Kept d done r)
    (line : Line) (following : List Line) :
    Kept d (done ++ [(line, r.passage ⟨.indentation, d⟩ line following)])
      (r.step ⟨.indentation, d⟩ line following) := by
  obtain ⟨n, hstage⟩ := r.stage_passage d line following
  obtain ⟨_, _, hsymbols⟩ := r.left_indented d line following
  have hclear := r.clear_passage d line following
  have hmet := r.met_passage ⟨.indentation, d⟩ line following
  constructor
  · rw [← r.left_passage]
    exact h.headers.step line following
  · rw [← r.left_passage, hsymbols]
    apply hclear
    rw [hstage.symbols, hmet]
    exact h.clear

theorem kept_start (d : Dialect) (lines : List Line) :
    Kept d [] (Run.start ⟨.indentation, d⟩ lines) :=
  ⟨HeadersKept.nil d.style [] _, (Symbols.learns_surveyIndented {} _).clear Notes.clear_initial⟩

/-! ### Settled headers -/

private theorem HeadersKept.settled {d : Dialect} {done : List (Line × Passage)} {s : State} {b : Block}
    {outer : List Block} (h : HeadersKept d.style done s.blocks s.output)
    (hclear : s.symbols.notes.Clear) (hs : s.blocks = b :: outer) {r : Routine}
    (hr : b.routine = some r)
    (hparams : ∀ q ∈ r.writtenParams d.style,
      ¬ commentTail <:+: Routine.parameterText d.style q) :
    ∃ x ∈ done, Defines d.style r x ∧
      (s.close d.style).output[r.headerIndex]? =
        some (d.style.indent x.2.converted.depth ++ r.settledHeader d.style s.symbols.notes ++
          x.1.commentSuffix) ∧
      ((s.close d.style).settleRoutine d.style r).output = (s.close d.style).output := by
  obtain ⟨_, x, hx, hdefines, hline⟩ := h.provisional b (by simp [hs]) r hr
  have hlt := h.lt_length (by simp [hs]) hr
  have htype : ∀ t ∈ s.symbols.notes.returnTypes.get? r.key, '/' ∉ t :=
    fun t ht => hclear.returnTypes.get? ht
  -- the header is put between the indentation and the comment, whatever header stands there
  have hpatch (returns : Bool) {type : Option Text} (htype : ∀ t ∈ type, '/' ∉ t) :
      patchHeader (r.settledHeader d.style s.symbols.notes)
          (d.style.indent x.2.converted.depth ++ r.header d.style returns type ++
            x.1.commentSuffix) =
        d.style.indent x.2.converted.depth ++ r.settledHeader d.style s.symbols.notes ++
          x.1.commentSuffix := by
    obtain ⟨c, hc, hspace⟩ := r.head?_header d returns type
    exact patchHeader_eq hc hspace (Routine.noMark_header d hdefines.plain hparams returns htype _) ..
  have hsettled : (s.close d.style).output[r.headerIndex]? =
      some (d.style.indent x.2.converted.depth ++ r.settledHeader d.style s.symbols.notes ++
        x.1.commentSuffix) := by
    rw [State.getElem?_output_close_self d.style hs hr hlt, hline, Option.map_some, placeholder,
      hpatch false (by simp)]
  refine ⟨x, hx, hdefines, hsettled, ?_⟩
  rw [State.output_settleRoutine, State.symbols_close]
  apply List.ext_getElem?
  intro j
  by_cases hj : r.headerIndex = j
  · subst hj
    rw [List.getElem?_modify_eq, hsettled]
    exact congrArg some (hpatch (s.symbols.notes.returnsValue r.key) htype)
  · rw [List.getElem?_modify_ne _ _ hj]

/-- At every stage of closings, before and after each closing: the headers of the open routines stand
one after another in the output, and each is the line that the definition of the routine wrote. Closing
a block adds one line and changes no other but the header of its routine. If no parameter, as it is
written, holds the mark of a comment, the settled header stands between the indentation and the comment
of the provisional one, and settling it again changes nothing. -/
theorem headers_settled_in_place (d : Dialect) (lines : List Line) {k : Nat} {s t : State}
    (hk : (Run.stages ⟨.indentation, d⟩ lines)[k]? = some (s, t)) :
    ∃ n taken, State.Stage d.style n taken s t ∧ ∀ i ≤ n,
      let done := (Run.journalOf ⟨.indentation, d⟩ lines).take k
      let u := State.closeMany d.style i s
      ((routinesOf u.blocks).map Routine.headerIndex).Pairwise (· > ·) ∧
      (∀ r ∈ routinesOf u.blocks, r.headerIndex < u.output.length ∧
        ∃ x ∈ done, Defines d.style r x ∧ u.output[r.headerIndex]? = some (placeholder d.style r x)) ∧
      (i < n → ∃ b outer, u.blocks = b :: outer ∧
        State.closeMany d.style (i + 1) s = u.close d.style ∧
        (u.close d.style).output.length = u.output.length + 1 ∧
        (∀ j < u.output.length, (∀ r ∈ b.routine, r.headerIndex ≠ j) →
          (u.close d.style).output[j]? = u.output[j]?) ∧
        ∀ r ∈ b.routine,
          (∀ q ∈ r.writtenParams d.style, ¬ commentTail <:+: Routine.parameterText d.style q) →
          ∃ x ∈ done, Defines d.style r x ∧
            (u.close d.style).output[r.headerIndex]? =
              some (d.style.indent x.2.converted.depth ++ r.settledHeader d.style s.symbols.notes ++
                x.1.commentSuffix) ∧
            ((u.close d.style).settleRoutine d.style r).output = (u.close d.style).output) := by
  obtain ⟨run, rfl, ⟨hheaders, hclear⟩, n, taken, hstage⟩ := Run.stages_induction
    (fun done line following r (h : Kept d done r) => h.step line following) (kept_start d lines) hk
  refine ⟨n, taken, hstage, ?_⟩
  intro i hi done u
  have hkept : HeadersKept d.style done u.blocks u.output := hheaders.closeMany i
  refine ⟨hkept.descending, ?_, ?_⟩
  · intro r hr
    obtain ⟨b, hb, hbr⟩ := mem_routinesOf.mp hr
    obtain ⟨_, hx⟩ := hkept.provisional b hb r hbr
    exact ⟨hkept.lt_length hb hbr, hx⟩
  · intro hlt
    have hbound := hstage.bound
    have hne : u.blocks ≠ [] := by
      intro hnil
      have hlength := congrArg List.length hnil
      rw [State.blocks_closeMany, List.length_drop, List.length_nil] at hlength
      omega
    obtain ⟨b, outer, hu⟩ := List.exists_cons_of_ne_nil hne
    refine ⟨b, outer, hu, State.closeMany_succ d.style i _, State.length_output_close d.style hu,
      fun j hj => State.getElem?_output_close_of_ne d.style hu hj, ?_⟩
    intro r hr hparams
    have hsymbols : u.symbols = run.state.symbols := State.symbols_closeMany ..
    have hsettled := hkept.settled (hsymbols ▸ hclear) hu hr hparams
    rwa [hsymbols] at hsettled

/-- A routine inside another, with a comment and a blank line before it, closed by a line at the left
margin. -/
theorem headers_settled_in_place_nested :
    let o : Options := ⟨.indentation, .cambridge⟩
    let lines : List Line :=
      [⟨1, .code, [], 0, "def f(a):", some "adds"⟩, ⟨2, .blank, [], 0, [], none⟩,
       ⟨3, .code, [], 4, "def g(b, *c):", some "inner"⟩, ⟨4, .code, [], 8, "return b", none⟩,
       ⟨5, .code, [], 0, "x = 1", none⟩]
    let r : Routine := { headerIndex := 2, name := "g", params := ["b", "c"] }
    ∃ s t outer, (Run.stages o lines)[4]? = some (s, t) ∧ s.blocks = .ofRoutine r :: outer ∧
      (∀ q ∈ r.writtenParams .cambridge, ¬ commentTail <:+: Routine.parameterText .cambridge q) ∧
      ∃ x ∈ (Run.journalOf o lines).take 4, Defines .cambridge r x ∧
        (s.close .cambridge).output[r.headerIndex]? =
          some (Style.cambridge.indent x.2.converted.depth ++
            r.settledHeader .cambridge s.symbols.notes ++ x.1.commentSuffix) ∧
        ((s.close .cambridge).settleRoutine .cambridge r).output = (s.close .cambridge).output := by
  intro o lines r
  have hstages : ((Run.stages o lines)[4]?.map fun x =>
      (x.1.blocks.head?, x.1.blocks.length, x.2.blocks)) = some (some (.ofRoutine r), 2, []) := by
    decide +kernel
  have hparams : ∀ q ∈ r.writtenParams .cambridge,
      ¬ commentTail <:+: Routine.parameterText .cambridge q := by
    decide +kernel
  obtain ⟨⟨s, t⟩, hk, heq⟩ := Option.map_eq_some_iff.mp hstages
  obtain ⟨hhead, htwo, hnil⟩ : s.blocks.head? = some (.ofRoutine r) ∧ s.blocks.length = 2 ∧
      t.blocks = [] := by
    simpa using heq
  obtain ⟨outer, hs⟩ := List.head?_eq_some_iff.mp hhead
  obtain ⟨n, taken, hstage, hclosings⟩ := headers_settled_in_place .cambridge lines hk
  have hn : 0 < n := by
    have hlength := congrArg List.length hstage.blocks
    have htaken := taken.length_toList_le
    rw [List.length_drop, List.length_append, hnil, List.length_nil] at hlength
    omega
  obtain ⟨b, outer', hu, _, _, _, hsettled⟩ := (hclosings 0 (Nat.zero_le n)).2.2 hn
  obtain ⟨rfl, rfl⟩ : b = .ofRoutine r ∧ outer' = outer := List.cons.inj (hu.symm.trans hs)
  exact ⟨s, t, outer', hk, hs, hparams, hsettled r rfl hparams⟩

/-- A parameter that ends with two slashes: its type completes the mark of a comment, which is found in
the header and put after it once more. -/
theorem header_holds_mark :
    let o : Options := ⟨.indentation, .cambridge⟩
    let lines : List Line :=
      [⟨1, .code, [], 0, "def f(a  //):", none⟩, ⟨2, .code, [], 4, "pass", none⟩]
    let r : Routine := { name := "f", params := ["a  //"] }
    (∀ p ∈ r.params, ¬ commentTail <:+: p) ∧
      (Run.stages o lines)[2]?.map (fun x => routinesOf x.1.blocks) = some [r] ∧
      r.header .cambridge false none = "PROCEDURE F(a  // : INTEGER)".toList ∧
      (Run.ofLines o lines).state.output[r.headerIndex]? =
        some "PROCEDURE F(a  // : INTEGER)  // : INTEGER)".toList := by
  decide +kernel

end Pseudocode
