import Pseudocode.Proofs.LineReading

/-! # Numbers of logical lines

A logical line carries the number of the first physical line that it was read from. Joined lines, comment blocks of
which only some lines are given out, and braces that go to the header before them leave gaps; still the numbers
increase strictly, and none lies outside the source. -/

namespace Pseudocode.Line

open scoped List

/-! ### Numbers while lines are read -/

namespace Reading

/-- The number of the logical line that is given out next, at the earliest: that of the line that waits, or that of
the next physical line. -/
def nextNumber (number : Nat) : Reading → Nat
  | .joining j => j.line.number
  | _ => number

/-- A line that waits has begun before. -/
def Begun (number : Nat) : Reading → Prop
  | .joining j => j.line.number < number
  | _ => True

/-- What one step does with the numbers: it gives out one line at most, with the number that is next, and only where
it gives out none may a line wait. -/
inductive Counts (next number : Nat) : List Line × Reading → Prop
  | given {l : Line} {reading : Reading} (line : l.number = next) (after : reading.nextNumber number = number)
      (begun : reading.Begun number) : Counts next number ([l], reading)
  | skipped {reading : Reading} (after : reading.nextNumber number = number) (begun : reading.Begun number) :
      Counts next number ([], reading)
  | waiting {j : Joining} (line : j.line.number = next) : Counts next number ([], .joining j)

private theorem counts_settle (j : Joining) (number : Nat) : Counts j.line.number number (step.settle j) := by
  unfold step.settle
  split
  · exact .waiting rfl
  · exact .given rfl rfl trivial

private theorem counts_blockLine (n number : Nat) (raw text : Text) {reading : Reading}
    (hafter : reading.nextNumber number = number) (hbegun : reading.Begun number) :
    Counts n number (blockLine n raw text, reading) := by
  unfold blockLine
  split
  · exact .skipped hafter hbegun
  · exact .given rfl hafter hbegun

private theorem counts_step (conv : Convention) (reading : Reading) (number : Nat) (raw : Text) :
    Counts (reading.nextNumber number) (number + 1) (reading.step conv number raw) := by
  cases reading with
  | inBlock closing =>
    simp only [step]
    split
    · exact counts_blockLine _ _ _ _ rfl trivial
    · exact counts_blockLine _ _ _ _ rfl trivial
  | joining j => exact counts_settle (j.extend conv raw) (number + 1)
  | ready =>
    simp only [step]
    split
    · exact .given rfl rfl trivial
    split
    · split
      · exact .given rfl rfl trivial
      · exact counts_blockLine _ _ _ _ rfl trivial
    · split
      · exact .given rfl rfl trivial
      · exact counts_settle (.start conv number raw) (number + 1)

end Reading

/-- Numbers that increase strictly, from one bound up to another. -/
structure Numbered (low high : Nat) (lines : List Line) : Prop where
  increasing : (lines.map Line.number).Pairwise (· < ·)
  low_le : ∀ l ∈ lines, low ≤ l.number
  lt_high : ∀ l ∈ lines, l.number < high

private theorem numbered_nil (low high : Nat) : Numbered low high [] := ⟨.nil, by simp, by simp⟩

private theorem Numbered.cons {low next high : Nat} {lines : List Line} (h : Numbered next high lines) {l : Line}
    (hlow : low ≤ l.number) (hnext : l.number < next) (hhigh : l.number < high) : Numbered low high (l :: lines) := by
  refine ⟨?_, List.forall_mem_cons.mpr ⟨hlow, fun k hk => ?_⟩, List.forall_mem_cons.mpr ⟨hhigh, h.lt_high⟩⟩
  · rw [List.map_cons, List.pairwise_cons]
    refine ⟨?_, h.increasing⟩
    intro n hn
    obtain ⟨k, hk, rfl⟩ := List.mem_map.mp hn
    have hle := h.low_le k hk
    omega
  · have hle := h.low_le k hk
    omega

private theorem Numbered.weaken {low low' high : Nat} {lines : List Line} (h : Numbered low high lines)
    (hle : low' ≤ low) :
    Numbered low' high lines :=
  ⟨h.increasing, fun l hl => Nat.le_trans hle (h.low_le l hl), h.lt_high⟩

theorem numbered_readFrom (conv : Convention) {reading : Reading} {number : Nat} (h : reading.Begun number)
    (lines : List Text) :
    Numbered (reading.nextNumber number) (number + lines.length) (readFrom conv reading number lines) := by
  induction lines generalizing reading number with
  | nil =>
    cases reading with
    | joining j => exact (numbered_nil (number + 1) _).cons (Nat.le_refl _) (Nat.lt_succ_of_lt h) h
    | ready => exact numbered_nil _ _
    | inBlock closing => exact numbered_nil _ _
  | cons raw rest ih =>
    have hle : reading.nextNumber number ≤ number := by
      cases reading with
      | joining j => exact Nat.le_of_lt h
      | ready => exact Nat.le_refl _
      | inBlock closing => exact Nat.le_refl _
    have hhigh : number + (raw :: rest).length = number + 1 + rest.length := by
      rw [List.length_cons]
      omega
    have hcounts := reading.counts_step conv number raw
    rw [readFrom_cons, hhigh]
    generalize reading.step conv number raw = r at hcounts ⊢
    cases hcounts with
    | @given l after line hafter hbegun =>
      have hrest := ih hbegun
      rw [hafter] at hrest
      exact hrest.cons (Nat.le_of_eq line.symm) (by omega) (by omega)
    | @skipped after hafter hbegun =>
      have hrest := ih hbegun
      rw [hafter] at hrest
      exact hrest.weaken (by omega)
    | @waiting j line =>
      have hbegun : Reading.Begun (number + 1) (.joining j) := Nat.lt_succ_of_le (line.symm ▸ hle)
      exact (ih hbegun).weaken (Nat.le_of_eq line.symm)

/-! ### Numbers after braces have moved -/

private theorem map_number_foldBrace? {before after : List Line} (h : foldBrace? before = some after) :
    after.map Line.number = before.map Line.number := by
  induction before generalizing after with
  | nil => cases h
  | cons l ls ih =>
    rw [foldBrace?] at h
    split at h
    · obtain rfl := Option.some.inj h
      rfl
    · obtain ⟨after', hafter', rfl⟩ := Option.map_eq_some_iff.mp h
      rw [List.map_cons, List.map_cons, ih hafter']

private theorem map_number_foldBraces_sublist (before lines : List Line) :
    (foldBraces before lines).map Line.number <+ before.reverse.map Line.number ++ lines.map Line.number := by
  induction lines generalizing before with
  | nil => simp [foldBraces]
  | cons l ls ih =>
    rw [foldBraces]
    split
    · next after hfold =>
      split at hfold
      · have hstep := ih after
        rw [List.map_reverse, map_number_foldBrace? hfold, ← List.map_reverse] at hstep
        exact hstep.trans (List.Sublist.append_left (List.sublist_cons_self ..) _)
      · cases hfold
    · simpa using ih (l :: before)

private theorem Numbered.of_sublist {low high : Nat} {lines lines' : List Line} (h : Numbered low high lines)
    (hs : lines'.map Line.number <+ lines.map Line.number) : Numbered low high lines' := by
  have hmem : ∀ l ∈ lines', ∃ k ∈ lines, k.number = l.number := fun l hl =>
    List.mem_map.mp (hs.subset (List.mem_map_of_mem hl))
  refine ⟨h.increasing.sublist hs, fun l hl => ?_, fun l hl => ?_⟩
  · obtain ⟨k, hk, heq⟩ := hmem l hl
    exact heq ▸ h.low_le k hk
  · obtain ⟨k, hk, heq⟩ := hmem l hl
    exact heq ▸ h.lt_high k hk

/-- The numbers of the logical lines of a source are numbers of its physical lines, in order. -/
theorem numbered_ofSource (conv : Convention) (source : Text) :
    Numbered 1 (1 + (Text.physicalLines source).length) (ofSource conv source) := by
  have hbegun : Reading.ready.Begun 1 := trivial
  have hread := numbered_readFrom conv hbegun (Text.physicalLines source)
  cases conv with
  | indentation => exact hread
  | braces => exact hread.of_sublist (map_number_foldBraces_sublist [] _)

/-! ### Blank sources -/

private theorem trim_eq_nil_iff {s : Text} : Text.trim s = [] ↔ ∀ c ∈ s, Text.isBlank c = true := by
  constructor
  · intro h
    obtain ⟨b₁, b₂, hs, hb₁, hb₂⟩ := Text.exists_trim s
    rw [hs, h, List.nil_append]
    exact List.forall_mem_append.mpr ⟨hb₁, hb₂⟩
  · intro h
    rw [Text.trim, Text.trimStart, List.dropWhile_eq_nil_iff.mpr h]
    rfl

private theorem subset_of_mem_physicalLines {s line : Text} (h : line ∈ Text.physicalLines s) : line ⊆ s := by
  have hpiece : ∀ p ∈ Text.pieces '\n' s, p ⊆ s := fun p hp c hc => Text.mem_of_mem_pieces hp hc
  rcases List.mem_append.mp h with hline | hline
  · obtain ⟨p, hp, rfl⟩ := List.mem_map.mp hline
    refine List.Subset.trans ?_ (hpiece p (List.dropLast_subset _ hp))
    unfold Text.dropReturn Text.before?
    split
    · exact List.take_subset _ _
    · exact List.Subset.refl p
  · split at hline
    · cases hline
    · obtain rfl := List.mem_singleton.mp hline
      cases hlast : (Text.pieces '\n' s).getLast? with
      | none => exact List.nil_subset s
      | some p => exact hpiece p (List.mem_of_getLast? hlast)

private theorem readFrom_of_blank (conv : Convention) {lines : List Text}
    (h : ∀ raw ∈ lines, Text.trim raw = []) (number : Nat) :
    ∀ l ∈ readFrom conv .ready number lines, l.isCode = false ∧ l.code = [] := by
  induction lines generalizing number with
  | nil => exact List.forall_mem_nil _
  | cons raw rest ih =>
    obtain ⟨hraw, hrest⟩ := List.forall_mem_cons.mp h
    have hstep : Reading.ready.step conv number raw = ([blank number], .ready) := by simp [Reading.step, hraw]
    rw [readFrom_cons, hstep]
    exact List.forall_mem_cons.mpr ⟨⟨rfl, rfl⟩, ih hrest (number + 1)⟩

private theorem foldBraces_of_ne {before lines : List Line} (h : ∀ l ∈ lines, l.code ≠ "\x7b") :
    foldBraces before lines = before.reverse ++ lines := by
  induction lines generalizing before with
  | nil => simp [foldBraces]
  | cons l ls ih =>
    obtain ⟨hl, hls⟩ := List.forall_mem_cons.mp h
    rw [foldBraces, if_neg hl]
    simpa using @ih (l :: before) hls

/-- A blank source has no code. -/
theorem isCode_ofSource_of_blank {source : Text} (h : Text.trim source = []) (conv : Convention) :
    ∀ l ∈ ofSource conv source, l.isCode = false := by
  have hlines : ∀ raw ∈ Text.physicalLines source, Text.trim raw = [] := fun raw hraw =>
    trim_eq_nil_iff.mpr fun c hc => trim_eq_nil_iff.mp h c (subset_of_mem_physicalLines hraw hc)
  have hread := readFrom_of_blank conv hlines 1
  cases conv with
  | indentation => exact fun l hl => (hread l hl).1
  | braces =>
    rw [ofSource, foldBraces_of_ne fun l hl => by rw [(hread l hl).2]; decide]
    exact fun l hl => (hread l hl).1

end Pseudocode.Line
