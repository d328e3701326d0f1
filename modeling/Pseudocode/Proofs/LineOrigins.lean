import Mathlib.Data.List.Forall2
import Pseudocode.Proofs.RoutineHeaders

/-! # Where the lines of the output come from

A code line is handed to the rules once, with the code that is left of it when the blocks are closed that it ends.
Each line of the output is the end of a block, or passes from the source, or is written by a rule, or marks code that
no rule takes. An account of the output says this for every line. It grows with the output, and what is written later
agrees with it: only headers of routines change, and they stay headers. -/

namespace Pseudocode

open Text

/-- The code that is left of a line, and the run in which it is handed to the rules. -/
structure Attempt where
  line : Line
  code : Text
  run : Run

namespace Attempt

def depth (a : Attempt) : Nat := a.run.state.depth

/-- Where the first line is written for it. -/
def place (a : Attempt) : Nat := a.run.state.output.length

/-- There is code left, and no rule takes it. -/
def unmatched (o : Options) (a : Attempt) : Bool :=
  !a.code.isEmpty &&
    (a.run.state.dispatch o.dialect.style o.convention (o.dialect.style.indent a.depth) a.code).1.isNone

theorem unmatched_iff {o : Options} {a : Attempt} :
    a.unmatched o = true ↔ a.code.isEmpty = false ∧ (a.run.ruleContext o).convert? a.code = none := by
  have hdispatch : (a.run.state.dispatch o.dialect.style o.convention (o.dialect.style.indent a.depth)
      a.code).1.isNone = ((a.run.ruleContext o).convert? a.code).isNone := by
    rw [State.dispatch_eq, Run.ruleContext, depth]
    generalize Context.convert? _ a.code = converted
    cases converted <;> rfl
  rw [unmatched, hdispatch, Bool.and_eq_true, Bool.not_eq_true', Option.isNone_iff_eq_none]

/-- Code that is left is taken by a rule or unmatched. -/
theorem exists_of_not_unmatched {o : Options} {a : Attempt} (h : ¬ a.unmatched o = true)
    (hcode : ¬ a.code.isEmpty = true) :
    ∃ name outcome, (a.run.ruleContext o).convert? a.code = some (name, outcome) := by
  have hconvert : (a.run.ruleContext o).convert? a.code ≠ none :=
    fun hnone => h (unmatched_iff.mpr ⟨by simpa using hcode, hnone⟩)
  obtain ⟨⟨name, outcome⟩, htaken⟩ := Option.ne_none_iff_exists'.mp hconvert
  exact ⟨name, outcome, htaken⟩

end Attempt

namespace Run

/-- What of a line is handed to the rules. -/
def attempt? (o : Options) (line : Line) (following : List Line) (r : Run) : Option Attempt :=
  if line.isCode then some ⟨line, (r.entryOf o line following).code, r.entered o line following⟩ else none

def attempts (o : Options) : List Line → Run → List Attempt
  | [], _ => []
  | line :: following, r => (r.attempt? o line following).toList ++ attempts o following (r.step o line following)

theorem attempt?_of_not_code {o : Options} {line : Line} {following : List Line} {r : Run}
    (h : line.isCode = false) : r.attempt? o line following = none :=
  if_neg (by simp [h])

theorem attempt?_of_code {o : Options} {line : Line} {following : List Line} {r : Run} (h : line.isCode = true) :
    r.attempt? o line following =
      some ⟨line, (r.entryOf o line following).code, r.entered o line following⟩ :=
  if_pos h

/-- Every code line is handed to the rules, once and in order. -/
theorem line_attempts (o : Options) (lines : List Line) (r : Run) :
    (attempts o lines r).map Attempt.line = lines.filter Line.isCode := by
  induction lines generalizing r with
  | nil => rfl
  | cons line following ih =>
    rw [attempts, List.map_append, ih]
    cases hl : line.isCode with
    | false =>
      rw [attempt?_of_not_code hl, List.filter_cons_of_neg (by simp [hl])]
      rfl
    | true =>
      rw [attempt?_of_code hl, List.filter_cons_of_pos hl]
      rfl

end Run

inductive Origin
  /-- The end of a block. -/
  | ending
  /-- A blank line that was held back. -/
  | held
  /-- A line of the source without code. -/
  | passed (line : Line)
  /-- The comment of a line of which no code is left. -/
  | comment (a : Attempt)
  | rule (a : Attempt)
  /-- The header of a routine, provisional or settled. -/
  | header (a : Attempt) (r : Routine)
  | fallback (a : Attempt)

def Origin.fallback? : Origin → Option Attempt
  | fallback a => some a
  | _ => none

@[simp]
theorem fallback_endings (n : Nat) : (List.replicate n Origin.ending).filterMap Origin.fallback? = [] :=
  List.filterMap_replicate_of_none rfl

@[simp]
theorem fallback_held (n : Nat) : (List.replicate n Origin.held).filterMap Origin.fallback? = [] :=
  List.filterMap_replicate_of_none rfl

/-- What is written by the origins that a source of some lines has. -/
inductive Origin.Gives (o : Options) (lines : List Line) : Origin → Text → Prop
  | ending (depth : Nat) (kind : Kind) (loopVariable exitCondition : Option Text) :
      Gives o lines ending
        (o.dialect.style.indent depth ++ o.dialect.style.terminator kind loopVariable exitCondition)
  | held : Gives o lines held []
  | passed {line : Line} {text : Text} (source : line ∈ lines) (passes : line.passthrough? = some text) :
      Gives o lines (passed line) text
  | comment {a : Attempt} {text : Text} (source : a ∈ Run.attempts o lines (Run.start o lines))
      (empty : a.code.isEmpty = true) (noted : a.line.comment = some text) :
      Gives o lines (comment a) (o.dialect.style.indent a.depth ++ "// " ++ text)
  | rule {a : Attempt} {name : Text} {outcome : Outcome} {text : Text}
      (source : a ∈ Run.attempts o lines (Run.start o lines))
      (converted : (a.run.ruleContext o).convert? a.code = some (name, outcome))
      (written : text ∈ attachComment (a.line.comment.getD []) outcome.lines) : Gives o lines (rule a) text
  | header {a : Attempt} {name : Text} {outcome : Outcome} {b : Block} {r : Routine} {lead : Text}
      (source : a ∈ Run.attempts o lines (Run.start o lines))
      (converted : (a.run.ruleContext o).convert? a.code = some (name, outcome)) (opens : outcome.opens = some b)
      (routine : b.routine = some r) (blank : ∀ c ∈ lead, c = ' ') (returns : Bool) (type : Option Text)
      (tail : Text) : Gives o lines (header a r) (lead ++ r.header o.dialect.style returns type ++ tail)
  | fallback {a : Attempt} (source : a ∈ Run.attempts o lines (Run.start o lines))
      (unmatched : a.unmatched o = true) :
      Gives o lines (fallback a) (unsupportedLine (o.dialect.style.indent a.depth) a.code ++ a.line.commentSuffix)

/-- An origin for each line of the output. The marks stand at their places, and the headers of open routines at
theirs. -/
structure Explains (o : Options) (lines : List Line) (origins : List Origin) (blocks : List Block)
    (output : List Text) : Prop where
  gives : List.Forall₂ (Origin.Gives o lines) origins output
  places : ∀ (i : Nat) (a : Attempt), origins[i]? = some (.fallback a) → a.place = i
  headers : ∀ b ∈ blocks, ∀ r ∈ b.routine, ∃ a, origins[r.headerIndex]? = some (.header a r)

/-- Further lines with their origins, for which a block may be opened. -/
structure Adds (o : Options) (lines : List Line) (place : Nat) (opened : Option Block) (more : List Origin)
    (texts : List Text) : Prop where
  gives : List.Forall₂ (Origin.Gives o lines) more texts
  places : ∀ (i : Nat) (a : Attempt), more[i]? = some (.fallback a) → a.place = place + i
  headers : ∀ b ∈ opened, ∀ r ∈ b.routine, ∃ a i, r.headerIndex = place + i ∧ more[i]? = some (.header a r)

theorem forall₂_modify {α β : Type} {R : α → β → Prop} {l : List α} {l' : List β} (h : List.Forall₂ R l l') (i : Nat)
    {f : β → β} (hf : ∀ a b, l[i]? = some a → R a b → R a (f b)) : List.Forall₂ R l (l'.modify i f) := by
  induction h generalizing i with
  | nil => simp
  | @cons a b l l' hab hrest ih =>
    cases i with
    | zero => exact .cons (hf a b rfl hab) hrest
    | succ i => exact .cons hab (ih i fun a' b' ha' => hf a' b' (by simpa using ha'))

namespace Adds

variable {o : Options} {lines : List Line} {place : Nat} {opened : Option Block} {more : List Origin}
  {texts : List Text}

/-- Lines without marks. -/
theorem unmarked (gives : List.Forall₂ (Origin.Gives o lines) more texts) (h : more.filterMap Origin.fallback? = [])
    (headers : ∀ b ∈ opened, ∀ r ∈ b.routine, ∃ a i, r.headerIndex = place + i ∧ more[i]? = some (.header a r)) :
    Adds o lines place opened more texts := by
  refine ⟨gives, fun i a hi => ?_, headers⟩
  have hmem : a ∈ more.filterMap Origin.fallback? :=
    List.mem_filterMap.mpr ⟨_, List.mem_of_getElem? hi, rfl⟩
  rw [h] at hmem
  cases hmem

theorem plain (gives : List.Forall₂ (Origin.Gives o lines) more texts) (h : more.filterMap Origin.fallback? = []) :
    Adds o lines place none more texts :=
  unmarked gives h (by simp)

theorem nil : Adds o lines place none [] [] := plain .nil rfl

theorem held (n : Nat) : Adds o lines place none (List.replicate n .held) (List.replicate n []) := by
  refine plain ?_ (fallback_held n)
  induction n with
  | zero => exact .nil
  | succ n ih => exact .cons .held ih

end Adds

namespace Explains

variable {o : Options} {lines : List Line} {origins more : List Origin} {b : Block} {blocks blocks' : List Block}
  {output texts : List Text}

theorem nil : Explains o lines [] [] [] := ⟨.nil, by simp, by simp⟩

theorem of_subset (h : Explains o lines origins blocks output) (hs : blocks' ⊆ blocks) :
    Explains o lines origins blocks' output :=
  ⟨h.gives, h.places, fun b hb => h.headers b (hs hb)⟩

theorem cons (h : Explains o lines origins blocks output)
    (hb : ∀ r ∈ b.routine, ∃ a, origins[r.headerIndex]? = some (.header a r)) :
    Explains o lines origins (b :: blocks) output :=
  ⟨h.gives, h.places, List.forall_mem_cons.mpr ⟨hb, h.headers⟩⟩

theorem append (h : Explains o lines origins blocks output) {opened : Option Block}
    (hmore : Adds o lines output.length opened more texts) :
    Explains o lines (origins ++ more) blocks (output ++ texts) := by
  refine ⟨List.rel_append h.gives hmore.gives, fun i a hi => ?_, fun b hb r hr => ?_⟩
  · by_cases hlt : i < origins.length
    · exact h.places i a (by rwa [List.getElem?_append_left hlt] at hi)
    · rw [List.getElem?_append_right (by omega), h.gives.length_eq] at hi
      have hplace := hmore.places _ a hi
      have hlength := h.gives.length_eq
      omega
  · obtain ⟨a, hheader⟩ := h.headers b hb r hr
    exact ⟨a, by rwa [List.getElem?_append_left (List.getElem?_eq_some_iff.mp hheader).1]⟩

theorem header_of_opened (h : Explains o lines origins blocks output) {opened : Option Block}
    (hmore : Adds o lines output.length opened more texts) :
    ∀ b ∈ opened, ∀ r ∈ b.routine, ∃ a, (origins ++ more)[r.headerIndex]? = some (.header a r) := by
  intro b hb r hr
  obtain ⟨a, i, hindex, hi⟩ := hmore.headers b hb r hr
  refine ⟨a, ?_⟩
  rw [hindex, ← h.gives.length_eq, List.getElem?_append_right (Nat.le_add_right ..), Nat.add_sub_cancel_left, hi]

theorem settle (h : Explains o lines origins (b :: blocks) output) (notes : Notes) :
    Explains o lines origins blocks (b.settle o.dialect.style notes output) := by
  refine ⟨?_, h.places, fun c hc => h.headers c (List.mem_cons_of_mem b hc)⟩
  unfold Block.settle
  cases hr : b.routine with
  | none => exact h.gives
  | some r =>
    refine forall₂_modify h.gives _ fun origin text horigin hgives => ?_
    obtain ⟨a, hheader⟩ := h.headers b (List.mem_cons_self ..) r hr
    obtain rfl : Origin.header a r = origin := Option.some.inj (hheader.symm.trans horigin)
    cases hgives with
    | header source converted opens routine _ _ _ _ =>
      exact .header source converted opens routine (fun c hc => by simpa using List.mem_takeWhile_imp hc) _ _ _

/-! ### Marks -/

theorem fallback_iff (h : Explains o lines origins blocks output) {i : Nat} {a : Attempt} :
    origins[i]? = some (.fallback a) ↔ a ∈ origins.filterMap Origin.fallback? ∧ a.place = i := by
  constructor
  · intro hi
    exact ⟨List.mem_filterMap.mpr ⟨_, List.mem_of_getElem? hi, rfl⟩, h.places i a hi⟩
  · rintro ⟨ha, rfl⟩
    obtain ⟨origin, hmem, horigin⟩ := List.mem_filterMap.mp ha
    cases origin with
    | fallback b =>
      obtain rfl := Option.some.inj horigin
      obtain ⟨j, hj⟩ := List.getElem?_of_mem hmem
      rw [h.places j b hj, hj]
    | _ => cases horigin

theorem mark (h : Explains o lines origins blocks output) {a : Attempt} (ha : a ∈ origins.filterMap Origin.fallback?) :
    output[a.place]? =
      some (unsupportedLine (o.dialect.style.indent a.depth) a.code ++ a.line.commentSuffix) := by
  have hplace := h.fallback_iff.mpr ⟨ha, rfl⟩
  obtain ⟨hlt, horigin⟩ := List.getElem?_eq_some_iff.mp hplace
  have hgives := h.gives.get hlt (h.gives.length_eq ▸ hlt)
  rw [List.get_eq_getElem, horigin] at hgives
  generalize htext : output.get _ = text at hgives
  cases hgives
  rw [← htext]
  simp

private theorem pairwise_places {start : Nat}
    (h : ∀ (i : Nat) (a : Attempt), origins[i]? = some (.fallback a) → a.place = start + i) :
    ((origins.filterMap Origin.fallback?).map Attempt.place).Pairwise (· < ·) ∧
      ∀ a ∈ origins.filterMap Origin.fallback?, start ≤ a.place := by
  induction origins generalizing start with
  | nil => exact ⟨.nil, by simp⟩
  | cons origin origins ih =>
    obtain ⟨hordered, hle⟩ := ih fun i a hi => by rw [h (i + 1) a hi, Nat.add_right_comm, Nat.add_assoc]
    have hle : ∀ a ∈ origins.filterMap Origin.fallback?, start < a.place := fun a ha => hle a ha
    cases origin with
    | fallback b =>
      have hb : b.place = start := h 0 b rfl
      refine ⟨List.pairwise_cons.mpr ⟨?_, hordered⟩, ?_⟩
      · intro p hp
        obtain ⟨a, ha, rfl⟩ := List.mem_map.mp hp
        exact hb ▸ hle a ha
      · exact List.forall_mem_cons.mpr ⟨hb.ge, fun a ha => (hle a ha).le⟩
    | _ => exact ⟨hordered, fun a ha => (hle a ha).le⟩

theorem ordered (h : Explains o lines origins blocks output) :
    ((origins.filterMap Origin.fallback?).map Attempt.place).Pairwise (· < ·) := by
  have hplaces : ∀ (i : Nat) (a : Attempt), origins[i]? = some (.fallback a) → a.place = 0 + i := by
    simpa using h.places
  exact (pairwise_places hplaces).1

end Explains

/-! ### Steps of the nesting -/

/-- An account of the output of a state. -/
def State.Explained (o : Options) (lines : List Line) (origins : List Origin) (s : State) : Prop :=
  Explains o lines origins s.blocks s.output

section

variable {o : Options} {lines : List Line} {origins : List Origin} {s : State}

theorem State.Explained.close (h : s.Explained o lines origins) :
    ∃ n, (s.close o.dialect.style).Explained o lines (origins ++ List.replicate n .ending) := by
  unfold State.Explained at h ⊢
  cases hs : s.blocks with
  | nil =>
    refine ⟨0, ?_⟩
    rw [close_of_nil _ hs, List.replicate_zero, List.append_nil]
    exact h
  | cons b outer =>
    refine ⟨1, ?_⟩
    rw [hs] at h
    rw [State.blocks_close, hs, output_close_of_cons _ hs]
    exact (h.settle _).append (.plain (.cons (.ending ..) .nil) rfl)

theorem State.Explained.trans {n : Nat}
    (h : ∃ m, s.Explained o lines (origins ++ List.replicate n .ending ++ List.replicate m .ending)) :
    ∃ m, s.Explained o lines (origins ++ List.replicate m .ending) := by
  obtain ⟨m, hm⟩ := h
  exact ⟨n + m, by rwa [List.append_assoc, List.replicate_append_replicate] at hm⟩

theorem State.Explained.closeMany (h : s.Explained o lines origins) (n : Nat) :
    ∃ m, (closeMany o.dialect.style n s).Explained o lines (origins ++ List.replicate m .ending) := by
  induction n generalizing s origins with
  | zero => exact ⟨0, by simpa [State.closeMany] using h⟩
  | succ n ih =>
    obtain ⟨m, hm⟩ := h.close
    exact Explained.trans (ih hm)

private theorem State.Explained.setExit (h : s.Explained o lines origins) (st : Style) (cond : Text) :
    (s.setExit st cond).Explained o lines origins := by
  unfold State.setExit
  split
  · next b outer hs =>
    unfold State.Explained at h
    rw [hs] at h
    obtain ⟨hb, _⟩ := List.forall_mem_cons.mp h.headers
    exact (h.of_subset (List.subset_cons_self b outer)).cons hb
  · exact h

variable {st' : Style} {t s' t' : State}

theorem Lockstep.explained (h : Lockstep o.dialect.style st' s t s' t') (hs : s.Explained o lines origins) :
    ∃ n, s'.Explained o lines (origins ++ List.replicate n .ending) := by
  induction h with
  | refl => exact ⟨0, by simpa using hs⟩
  | remark _ _ _ ih => exact ih
  | close _ ih =>
    obtain ⟨n, hn⟩ := ih
    exact State.Explained.trans hn.close
  | exit _ cond ih =>
    obtain ⟨n, hn⟩ := ih
    exact ⟨n, hn.setExit _ cond⟩
  | indents _ _ ih => exact ih
  | braces _ _ ih => exact ih
  | pending _ _ ih => exact ih

theorem EnterAlike.explained {p q : Entry × State} (h : EnterAlike o.dialect.style st' s t p q)
    (hs : s.Explained o lines origins) :
    ∃ n, Explains o lines (origins ++ List.replicate n .ending) (p.1.taken.toList ++ p.2.blocks) p.2.output := by
  cases h with
  | kept h => exact h.explained hs
  | taken h hblocks _ =>
    obtain ⟨n, hn⟩ := h.explained hs
    rw [State.Explained, hblocks] at hn
    exact ⟨n, hn⟩

theorem LeaveAlike.explained {opened opened' taken taken' : Option Block}
    (h : LeaveAlike o.dialect.style st' s t opened opened' taken taken' s' t')
    (hs : Explains o lines origins (taken.toList ++ s.blocks) s.output)
    (hopened : ∀ b ∈ opened, ∀ r ∈ b.routine, ∃ a, origins[r.headerIndex]? = some (.header a r)) :
    ∃ n, s'.Explained o lines (origins ++ List.replicate n .ending) := by
  cases h with
  | plain h => exact h.explained hs
  | @opened b _ _ _ _ _ _ _ _ hremarked _ h =>
    obtain ⟨_, rfl, _⟩ := hremarked
    exact h.explained ((hs.of_subset (List.subset_append_right _ _)).cons (hopened b rfl))
  | restored h => exact h.explained hs

end

/-! ### Lines of the source -/

namespace Run

variable {o : Options} {lines : List Line} {a : Attempt}

private theorem adds_writeComment (ha : a ∈ attempts o lines (start o lines)) (hcode : a.code.isEmpty = true) :
    ∃ more texts, (a.run.writeComment o a.line).state.output = a.run.state.output ++ texts ∧
      Adds o lines a.place none more texts ∧ more.filterMap Origin.fallback? = [] := by
  unfold writeComment
  split
  · next hcomment => exact ⟨[.comment a], _, rfl, .plain (.cons (.comment ha hcode hcomment) .nil) rfl, rfl⟩
  · exact ⟨[], [], (List.append_nil _).symm, .nil, rfl⟩

/-- A rule writes the header of a routine or lines that stay as they are. -/
theorem adds_of_convert? {name : Text} {outcome : Outcome} (ha : a ∈ attempts o lines (start o lines))
    (h : (a.run.ruleContext o).convert? a.code = some (name, outcome)) :
    ∃ more, Adds o lines a.place outcome.opens more (attachComment (a.line.comment.getD []) outcome.lines) ∧
      more.filterMap Origin.fallback? = [] := by
  have hrule : ∃ more,
      List.Forall₂ (Origin.Gives o lines) more (attachComment (a.line.comment.getD []) outcome.lines) ∧
        more.filterMap Origin.fallback? = [] := by
    refine ⟨(attachComment (a.line.comment.getD []) outcome.lines).map fun _ => .rule a, ?_, ?_⟩
    · exact List.forall₂_map_left_iff.mpr (List.forall₂_same.mpr fun text htext => .rule ha h htext)
    · exact List.filterMap_eq_nil_iff.mpr (List.forall_mem_map.mpr fun _ _ => rfl)
  obtain ⟨more, hgives, hnone⟩ := hrule
  have hopening := (Context.form_of_convert? h).opening
  generalize hopened : outcome.opens = opened at hopening
  cases hopening with
  | nothing => exact ⟨more, .plain hgives hnone, hnone⟩
  | block bare =>
    refine ⟨more, .unmarked hgives hnone ?_, hnone⟩
    rintro b ⟨⟩ routine hr
    cases bare.symm.trans hr
  | @routine routine _ _ provisional index _ =>
    refine ⟨[.header a routine], .unmarked ?_ rfl ?_, rfl⟩
    · rw [provisional, attachComment_cons]
      exact .cons (.header ha h hopened rfl (fun c hc => List.eq_of_mem_replicate hc) false none _) .nil
    · rintro b ⟨⟩ routine ⟨⟩
      exact ⟨a, 0, index, rfl⟩

/-- What is written for the code of a line. -/
theorem adds_handle (ha : a ∈ attempts o lines (start o lines)) :
    ∃ more texts, (a.run.handle o a.line a.code).2.state.output = a.run.state.output ++ texts ∧
      Adds o lines a.place (a.run.handle o a.line a.code).1 more texts ∧
      more.filterMap Origin.fallback? = [a].filter (Attempt.unmatched o) := by
  rw [handle]
  by_cases hu : a.unmatched o = true
  · obtain ⟨hcode, hconvert⟩ := Attempt.unmatched_iff.mp hu
    rw [List.filter_cons_of_pos hu, hcode, if_neg (by simp), convertCode_of_none hconvert, attachComment_cons]
    refine ⟨[.fallback a], _, rfl, ⟨.cons (.fallback ha hu) .nil, ?_, by simp⟩, rfl⟩
    intro i b hi
    obtain ⟨rfl, rfl⟩ : i = 0 ∧ a = b := by simpa [List.getElem?_singleton] using hi
    rfl
  · rw [List.filter_cons_of_neg hu, List.filter_nil]
    split
    · next hcode => exact adds_writeComment ha hcode
    · next hcode =>
      obtain ⟨name, outcome, hconvert⟩ := Attempt.exists_of_not_unmatched hu hcode
      obtain ⟨more, hadds, hnone⟩ := adds_of_convert? ha hconvert
      rw [convertCode_of_some hconvert]
      exact ⟨more, _, rfl, hadds, hnone⟩

variable {origins : List Origin} {line : Line} {following : List Line} {r : Run}

/-- A line extends the account by what is written for it, with its mark if it has one. -/
theorem explained_step (h : r.state.Explained o lines origins) (hline : line ∈ lines)
    (hattempt : ∀ a ∈ r.attempt? o line following, a ∈ attempts o lines (start o lines)) :
    ∃ more, (r.step o line following).state.Explained o lines (origins ++ more) ∧
      more.filterMap Origin.fallback? = (r.attempt? o line following).toList.filter (Attempt.unmatched o) := by
  cases hl : line.isCode with
  | false =>
    obtain ⟨text, htext, hstep⟩ := step_of_not_code o hl following r
    rw [hstep, attempt?_of_not_code hl]
    split
    · exact ⟨[], by simpa using h, rfl⟩
    · have hreleased := Explains.append h (.held r.held)
      have hpassed := hreleased.append (.plain (.cons (.passed hline htext) .nil) rfl)
      rw [List.append_assoc] at hpassed
      exact ⟨_, hpassed, by simp [Origin.fallback?]⟩
  | true =>
    rw [attempt?_of_code hl] at hattempt ⊢
    obtain ⟨n, hentered⟩ := (State.enter_alike o.dialect.style o.dialect.style o.convention line
      (rfl : Line.nextCode following = _) (rfl : r.state.outline = _)).explained h
    have hreleased := hentered.append (.held r.held)
    obtain ⟨more, texts, hwritten, hadds, hmarks⟩ := adds_handle (hattempt _ rfl)
    have hconverted := hreleased.append hadds
    have hopened := hreleased.header_of_opened hadds
    have hblocks := (r.sameNesting_converted o line following).blocks
    have hleave := State.leave_alike o.dialect.style o.dialect.style o.convention line
      (rfl : Line.nextCode following = _) (rfl : (r.converted o line following).2.state.outline = _)
      (rfl : (r.entryOf o line following).code = _) rfl
      (rfl : (r.converted o line following).1.map Block.outline = _)
    obtain ⟨m, hleft⟩ := hleave.explained (by rw [hblocks, converted, hwritten]; exact hconverted) hopened
    rw [step_of_code o hl, codeLine_eq]
    simp only [List.append_assoc] at hleft
    exact ⟨_, hleft, by simp [hmarks]⟩

/-! ### Whole runs -/

private theorem explained_steps {rest : List Line} (h : r.state.Explained o lines origins) (hrest : rest ⊆ lines)
    (hattempts : attempts o rest r ⊆ attempts o lines (start o lines)) :
    ∃ more, (steps o rest r).state.Explained o lines (origins ++ more) ∧
      more.filterMap Origin.fallback? = (attempts o rest r).filter (Attempt.unmatched o) := by
  induction rest generalizing r origins with
  | nil => exact ⟨[], by simpa [steps] using h, rfl⟩
  | cons line following ih =>
    obtain ⟨hline, hfollowing⟩ := List.cons_subset.mp hrest
    obtain ⟨hattempt, hlater⟩ := List.append_subset.mp hattempts
    obtain ⟨more, hstep, hmarks⟩ := explained_step h hline fun a ha => hattempt (Option.mem_toList.mpr ha)
    obtain ⟨later, hsteps, hmarks'⟩ := ih hstep hfollowing hlater
    refine ⟨more ++ later, by rwa [← List.append_assoc], ?_⟩
    rw [List.filterMap_append, hmarks, hmarks', attempts, List.filter_append]

/-- The whole output has an account, and the marks in it are those of the code that no rule takes. -/
theorem exists_explains_ofLines (o : Options) (lines : List Line) :
    ∃ origins, Explains o lines origins [] (ofLines o lines).state.output ∧
      origins.filterMap Origin.fallback? = (attempts o lines (start o lines)).filter (Attempt.unmatched o) := by
  have hstart : (start o lines).state.Explained o lines [] := by
    rw [State.Explained, (sameNesting_start o lines).blocks]
    exact .nil
  obtain ⟨origins, hsteps, hmarks⟩ := explained_steps hstart (List.Subset.refl _) (List.Subset.refl _)
  obtain ⟨n, hclosed⟩ := hsteps.closeMany (steps o lines (start o lines)).state.blocks.length
  refine ⟨_, (hclosed.of_subset (List.nil_subset _)).append (.held _), ?_⟩
  simp [hmarks]

end Run

end Pseudocode
