import Pseudocode.Proofs.LineReading

/-! # Line breaks inside brackets

A logical line may be written on several physical lines: where a bracket is open, a space outside literals may be
replaced by a line break and any indentation. The reader joins the pieces to the same code, and reads the lines
after them as it would read them alone. -/

namespace Pseudocode

open Text

namespace Text

/-! ### Physical lines -/

/-- What ends a physical line. -/
def lineEnd (crlf : Bool) : Text := if crlf then "\r\n" else "\n"

private theorem pieces_ne_nil (sep : Char) (s : Text) : pieces sep s ≠ [] := by
  cases s with
  | nil => simp [pieces]
  | cons c s =>
    rw [pieces]
    split
    · simp
    · split <;> simp

private theorem pieces_of_not_mem {sep : Char} {s : Text} (h : sep ∉ s) : pieces sep s = [s] := by
  induction s with
  | nil => rfl
  | cons c s ih =>
    obtain ⟨hc, hs⟩ : sep ≠ c ∧ sep ∉ s := by simpa using h
    rw [pieces, if_neg (Ne.symm hc), ih hs]

private theorem pieces_append_cons {sep : Char} {s : Text} (h : sep ∉ s) (t : Text) :
    pieces sep (s ++ sep :: t) = s :: pieces sep t := by
  induction s with
  | nil => simp [pieces]
  | cons c s ih =>
    obtain ⟨hc, hs⟩ : sep ≠ c ∧ sep ∉ s := by simpa using h
    rw [List.cons_append, pieces, if_neg (Ne.symm hc), ih hs]

private theorem dropReturn_append (s : Text) : dropReturn (s ++ ['\r']) = s := by
  have hsuffix : ("\r" : Text).isSuffixOf (s ++ ['\r']) = true :=
    List.isSuffixOf_iff_suffix.mpr (List.suffix_append s ['\r'])
  rw [dropReturn, before?, if_pos hsuffix]
  simp

private theorem dropReturn_of_getLast? {s : Text} (h : s.getLast? ≠ some '\r') : dropReturn s = s := by
  have hsuffix : ¬ ("\r" : Text).isSuffixOf s = true := by
    intro hsuffix
    obtain ⟨t, rfl⟩ := List.isSuffixOf_iff_suffix.mp hsuffix
    simp at h
  rw [dropReturn, before?, if_neg hsuffix]
  rfl

/-- How a source goes on after a physical line: it ends there, or a line end and further lines follow. -/
inductive Ending : Text → Text → Prop
  | source : Ending [] []
  | line (crlf : Bool) (rest : Text) : Ending (lineEnd crlf ++ rest) rest

theorem physicalLines_append {line tail rest : Text} (hline : '\n' ∉ line) (hne : line ≠ [])
    (hlast : line.getLast? ≠ some '\r') (h : Ending tail rest) :
    physicalLines (line ++ tail) = line :: physicalLines rest := by
  cases h with
  | source =>
    rw [List.append_nil, physicalLines, pieces_of_not_mem hline]
    simp [physicalLines, pieces, hne]
  | line crlf rest =>
    have hpieces : ∃ first, pieces '\n' (line ++ (lineEnd crlf ++ rest)) = first :: pieces '\n' rest ∧
        dropReturn first = line := by
      cases crlf with
      | false => exact ⟨line, pieces_append_cons hline rest, dropReturn_of_getLast? hlast⟩
      | true =>
        refine ⟨line ++ ['\r'], ?_, dropReturn_append line⟩
        have hreturn : '\n' ∉ line ++ ['\r'] := by simp [hline]
        rw [← pieces_append_cons hreturn, List.append_assoc]
        rfl
    obtain ⟨first, hpieces, hfirst⟩ := hpieces
    have hsome := pieces_ne_nil '\n' rest
    rw [physicalLines, physicalLines, hpieces, List.dropLast_cons_of_ne_nil hsome, List.map_cons, hfirst,
      List.cons_append, List.getLast?_cons_of_ne_nil hsome]

/-! ### Parts of a line -/

theorem isBlank_of_mem_head?_trim {s : Text} {c : Char} (hc : c ∈ (trim s).head?) : isBlank c = false := by
  have hprefix : trim s <+: trimStart s := by
    rw [trim, trimEnd, dropEndWhile, ← List.reverse_suffix, List.reverse_reverse]
    exact List.dropWhile_suffix _
  obtain ⟨t, ht⟩ := hprefix
  obtain ⟨rest, hrest⟩ := List.head?_eq_some_iff.mp hc
  have hnot := List.head?_dropWhile_not isBlank s
  rw [← trimStart, ← ht, hrest] at hnot
  simpa using hnot

private theorem unquoted_append {s : Text} (h : Mode.code.after s = .code) (t : Text) :
    unquoted (s ++ t) = unquoted s ++ unquoted t := by
  rw [unquoted, roles, rolesFrom_append, h, List.filter_append, List.map_append]
  rfl

theorem bracketBalance_append {s : Text} (h : Mode.code.after s = .code) (braces : Bool) (t : Text) :
    bracketBalance braces (s ++ t) = bracketBalance braces s + bracketBalance braces t := by
  have hsum (u v : Text) : (u ++ v).foldr (fun c n => bracketWeight c + n) 0 =
      u.foldr (fun c n => bracketWeight c + n) 0 + v.foldr (fun c n => bracketWeight c + n) 0 := by
    induction u with
    | nil => simp
    | cons c u ih => rw [List.cons_append, List.foldr_cons, List.foldr_cons, ih, Int.add_assoc]
  rw [bracketBalance, unquoted_append h, List.filter_append, hsum]
  rfl

theorem commentFrom_append_eq_none {marker s t : Text} {m : Mode} (h : commentFrom marker m (s ++ t) = none) :
    commentFrom marker m s = none ∧ commentFrom marker (m.after s) t = none := by
  induction s generalizing m with
  | nil => exact ⟨rfl, h⟩
  | cons c s ih =>
    rw [List.cons_append, commentFrom] at h
    split at h
    · cases h
    · next hnot =>
      obtain ⟨hs, ht⟩ := ih (Option.map_eq_none_iff.mp h)
      refine ⟨?_, ht⟩
      rw [commentFrom, if_neg, hs]
      · rfl
      · -- a marker in the first part is one in the whole
        intro hfound
        obtain ⟨hrole, hlead⟩ := Bool.and_eq_true_iff.mp hfound
        refine hnot (Bool.and_eq_true_iff.mpr ⟨hrole, List.isPrefixOf_iff_prefix.mpr ?_⟩)
        exact (List.isPrefixOf_iff_prefix.mp hlead).trans (List.prefix_append (c :: s) t)

end Text

namespace Line

/-! ### Broken lines -/

/-- White space that ends no line. -/
def IsIndent (s : Text) : Prop := ∀ c ∈ s, isBlank c = true ∧ c ≠ '\n'

instance (s : Text) : Decidable (IsIndent s) := List.decidableBAll _ _

/-- A line break with the indentation of the next line. -/
structure LineBreak where
  crlf : Bool
  indent : Text

def LineBreak.text (b : LineBreak) : Text := lineEnd b.crlf ++ b.indent

/-- Replaces the characters at some places by line breaks; the text begins at place `i`. -/
def breakFrom (breaks : Nat → Option LineBreak) : Nat → Text → Text
  | _, [] => []
  | i, c :: cs => (breaks i).elim [c] LineBreak.text ++ breakFrom breaks (i + 1) cs

/-- A physical line may end with this code: no white space, and no backslash where it would continue the line. -/
def EndsLine (conv : Convention) (code : Text) : Prop :=
  code.getLast?.any (fun c => !isBlank c && !(conv.joinsBraces && c == '\\')) = true

instance (conv : Convention) (code : Text) : Decidable (EndsLine conv code) := inferInstanceAs (Decidable (_ = true))

/-- The space between two parts of a line may be replaced by a line break. -/
structure MayBreak (conv : Convention) (before after : Text) : Prop where
  quotes : Mode.code.after before = .code
  inside : 0 < bracketBalance conv.joinsBraces before
  ends : EndsLine conv before
  begins : after.head?.any (fun c => !isBlank c) = true
  opening : before.getLast?.any (· ∈ ['(', '[', '{']) = false
  closing : after.head?.any (· ∈ [')', ']', '}']) = false

instance (conv : Convention) (before after : Text) : Decidable (MayBreak conv before after) :=
  decidable_of_iff (Mode.code.after before = .code ∧ 0 < bracketBalance conv.joinsBraces before ∧
      EndsLine conv before ∧ after.head?.any (fun c => !isBlank c) = true ∧
      before.getLast?.any (· ∈ ['(', '[', '{']) = false ∧ after.head?.any (· ∈ [')', ']', '}']) = false)
    ⟨fun h => ⟨h.1, h.2.1, h.2.2.1, h.2.2.2.1, h.2.2.2.2.1, h.2.2.2.2.2⟩,
      fun h => ⟨h.1, h.2, h.3, h.4, h.5, h.6⟩⟩

/-- Code of a line that has no comment and does not go on in the next line. -/
structure OneLine (conv : Convention) (code : Text) : Prop where
  trimmed : trim code = code
  noFeed : '\n' ∉ code
  quotes : Mode.code.after code = .code
  uncommented : commentFrom conv.commentMarker .code code = none
  noBlock : conv.commentBlock? code = none
  closed : bracketBalance conv.joinsBraces code ≤ 0
  ends : EndsLine conv code

instance (conv : Convention) (code : Text) : Decidable (OneLine conv code) :=
  decidable_of_iff (trim code = code ∧ '\n' ∉ code ∧ Mode.code.after code = .code ∧
      commentFrom conv.commentMarker .code code = none ∧ conv.commentBlock? code = none ∧
      bracketBalance conv.joinsBraces code ≤ 0 ∧ EndsLine conv code)
    ⟨fun h => ⟨h.1, h.2.1, h.2.2.1, h.2.2.2.1, h.2.2.2.2.1, h.2.2.2.2.2.1, h.2.2.2.2.2.2⟩,
      fun h => ⟨h.1, h.2, h.3, h.4, h.5, h.6, h.7⟩⟩

/-- The code `whole` is `code` with further pieces, each after a space at which the line may break. -/
def Pieced (conv : Convention) (whole : Text) : Text → List (LineBreak × Text) → Prop
  | code, [] => code = whole
  | code, k :: more => MayBreak conv code k.2 ∧ IsIndent k.1.indent ∧ Pieced conv whole (code ++ ' ' :: k.2) more

/-- The line breaks stand in place of spaces at which the line may break. -/
def BreaksInside (conv : Convention) (whole : Text) (breaks : Nat → Option LineBreak) : Prop :=
  ∀ i b, breaks i = some b →
    whole[i]? = some ' ' ∧ MayBreak conv (whole.take i) (whole.drop (i + 1)) ∧ IsIndent b.indent

theorem BreaksInside.exists_pieced {conv : Convention} {whole : Text} {breaks : Nat → Option LineBreak}
    (h : BreaksInside conv whole breaks) {before s : Text} (hsplit : whole = before ++ s) :
    ∃ first more, Pieced conv whole (before ++ first) more ∧
      breakFrom breaks before.length s = first ++ more.flatMap (fun k => k.1.text ++ k.2) ∧
      (breaks before.length = none → first.head? = s.head?) := by
  induction s generalizing before with
  | nil => exact ⟨[], [], hsplit.symm, rfl, fun _ => rfl⟩
  | cons d s ih =>
    have hnextSplit : whole = before ++ [d] ++ s := by simpa using hsplit
    obtain ⟨first, more, hpieced, htext, hhead⟩ := ih hnextSplit
    rw [List.length_append, List.length_singleton] at htext hhead
    cases hbreak : breaks before.length with
    | none =>
      refine ⟨d :: first, more, by simpa using hpieced, ?_, fun _ => rfl⟩
      rw [breakFrom, hbreak, htext]
      rfl
    | some b =>
      obtain ⟨hspace, hmay, hindent⟩ := h _ b hbreak
      have htake : whole.take before.length = before := by simp [hsplit]
      have hdrop : whole.drop (before.length + 1) = s := by simp [hsplit]
      obtain rfl : d = ' ' := by simpa [hsplit] using hspace
      rw [htake, hdrop] at hmay
      -- the next character is no space, so the line does not break there
      have hnext : breaks (before.length + 1) = none := by
        by_contra hsome
        obtain ⟨b', hb'⟩ := Option.ne_none_iff_exists'.mp hsome
        have hspace' := (h _ b' hb').1
        have hbegins := hmay.begins
        rw [← List.head?_drop, hdrop] at hspace'
        rw [hspace'] at hbegins
        cases hbegins
      refine ⟨[], (b, first) :: more, ⟨?_, hindent, by simpa using hpieced⟩, ?_, fun hnone => ?_⟩
      · rw [List.append_nil]
        exact { hmay with
          begins := (hhead hnext).symm ▸ hmay.begins
          closing := (hhead hnext).symm ▸ hmay.closing }
      · rw [breakFrom, hbreak, htext]
        simp
      · cases hnone

section

variable {conv : Convention} {whole : Text} {code : Text} {more : List (LineBreak × Text)}

theorem Pieced.isPrefix (h : Pieced conv whole code more) : code <+: whole := by
  induction more generalizing code with
  | nil =>
    obtain rfl := h
    exact List.prefix_refl _
  | cons k more ih => exact (List.prefix_append code (' ' :: k.2)).trans (ih h.2.2)

theorem Pieced.endsLine (hends : EndsLine conv whole) (h : Pieced conv whole code more) : EndsLine conv code := by
  cases more with
  | nil =>
    obtain rfl := h
    exact hends
  | cons k more => exact h.1.ends

theorem EndsLine.exists (h : EndsLine conv code) :
    ∃ c, code.getLast? = some c ∧ isBlank c = false ∧ (conv.joinsBraces = false ∨ c ≠ '\\') := by
  obtain ⟨c, hlast, hc⟩ := (Option.any_eq_true _ _).mp h
  exact ⟨c, hlast, by simpa using hc⟩

theorem EndsLine.ne_nil (h : EndsLine conv code) : code ≠ [] := by
  rintro rfl
  cases h

theorem EndsLine.getLast?_ne (h : EndsLine conv code) : code.getLast? ≠ some '\r' := by
  obtain ⟨d, hd, hblank, _⟩ := h.exists
  intro hreturn
  rw [Option.some.inj (hd.symm.trans hreturn)] at hblank
  cases hblank

/-- A line ends as its last part does. -/
theorem endsLine_append_iff {t : Text} (ht : t ≠ []) (s : Text) : EndsLine conv (s ++ t) ↔ EndsLine conv t := by
  rw [EndsLine, EndsLine, List.getLast?_append_of_ne_nil s ht]

theorem EndsLine.isContinued (h : EndsLine conv code) : Joining.isContinued conv code = false := by
  obtain ⟨d, hd, _, hslash⟩ := h.exists
  rw [Joining.isContinued, Bool.and_eq_false_imp]
  intro hjoins
  rw [← Bool.not_eq_true, endsWith, List.isSuffixOf_iff_suffix]
  rintro ⟨t, rfl⟩
  refine hslash.resolve_left (by simp [hjoins]) ?_
  simpa using hd.symm

/-- A piece begins and ends with other characters than white space, and no comment begins in it. -/
structure Piece (conv : Convention) (s : Text) : Prop where
  begins : s.head?.any (fun c => !isBlank c) = true
  ends : EndsLine conv s
  uncommented : commentFrom conv.commentMarker .code s = none

theorem Piece.splitComment {s indent : Text} (h : Piece conv s) (hindent : IsIndent indent) :
    trim (indent ++ s) = s ∧ Text.splitComment conv.commentMarker (indent ++ s) = (indent ++ s, none) := by
  have hblanks : ∀ d ∈ indent, isBlank d = true := fun d hd => (hindent d hd).1
  obtain ⟨first, hfirst, hfirstBlank⟩ := (Option.any_eq_true _ _).mp h.begins
  obtain ⟨last, hlast, hlastBlank, _⟩ := h.ends.exists
  have hlast' : (indent ++ s).getLast? = some last := by
    rw [List.getLast?_append, hlast, Option.some_or]
  have hstart : trim (indent ++ s) = s := by
    rw [trim, trimStart, List.dropWhile_append_of_pos hblanks]
    refine trim_of_ends (fun d hd => ?_) (fun d hd => ?_)
    · obtain rfl := Option.some.inj (hfirst.symm.trans hd)
      simpa using hfirstBlank
    · obtain rfl := Option.some.inj (hlast.symm.trans hd)
      exact hlastBlank
  have hend : trimEnd (indent ++ s) = indent ++ s := by
    obtain ⟨t, ht⟩ := List.getLast?_eq_some_iff.mp hlast'
    rw [ht, trimEnd, dropEndWhile, List.reverse_append, List.reverse_singleton, List.singleton_append,
      List.dropWhile_cons_of_neg (by simp [hlastBlank]), List.reverse_cons, List.reverse_reverse]
  have hmarker : conv.commentMarker ≠ [] ∧ ∀ d ∈ conv.commentMarker, isBlank d = false := by
    cases conv <;> exact ⟨by decide, not_blank_of_all (by decide)⟩
  refine ⟨hstart, ?_⟩
  rw [Text.splitComment, commentFrom_blanks_append hmarker.1 hmarker.2 hblanks, h.uncommented, hend]
  rfl

theorem Pieced.piece {k : LineBreak × Text} (hends : EndsLine conv whole)
    (huncommented : commentFrom conv.commentMarker .code whole = none) (h : Pieced conv whole code (k :: more)) :
    Piece conv k.2 := by
  obtain ⟨hmay, _, hmore⟩ := h
  have hne : k.2 ≠ [] := by
    intro hnil
    have hbegins := hmay.begins
    rw [hnil] at hbegins
    cases hbegins
  refine ⟨hmay.begins, ?_, ?_⟩
  · have hcode := hmore.endsLine hends
    rwa [List.append_cons, endsLine_append_iff hne] at hcode
  · obtain ⟨t, rfl⟩ := hmore.isPrefix
    have hcode := (commentFrom_append_eq_none (commentFrom_append_eq_none huncommented).1).2
    rw [hmay.quotes] at hcode
    exact (commentFrom_append_eq_none (s := [' ']) hcode).2

private theorem extend_piece {j : Joining} {piece indent : Text} (hcode : j.line.code = code)
    (hdepth : j.depth = bracketBalance conv.joinsBraces code)
    (hcontinued : j.continued = Joining.isContinued conv code) (hmay : MayBreak conv code piece)
    (hpiece : Piece conv piece) (hindent : IsIndent indent) :
    j.extend conv (indent ++ piece) =
      { line := { j.line with code := code ++ ' ' :: piece }
        depth := bracketBalance conv.joinsBraces (code ++ ' ' :: piece)
        continued := Joining.isContinued conv (code ++ ' ' :: piece) } := by
  obtain ⟨htrim, hsplit⟩ := hpiece.splitComment hindent
  have hglue : Joining.glue code piece = code ++ ' ' :: piece := by
    rw [Joining.glue, if_neg (by simpa using hpiece.ends.ne_nil), hmay.opening, hmay.closing, if_neg (by simp),
      List.append_assoc]
    rfl
  have hbalance : bracketBalance conv.joinsBraces (code ++ ' ' :: piece) =
      bracketBalance conv.joinsBraces code + bracketBalance conv.joinsBraces piece := by
    have hspace : bracketBalance conv.joinsBraces [' '] = 0 := by cases conv <;> decide
    rw [bracketBalance_append hmay.quotes, ← List.singleton_append, bracketBalance_append (s := [' ']) rfl, hspace,
      Int.zero_add]
  rw [Joining.extend, hsplit, hcontinued, hmay.ends.isContinued]
  simp only [Bool.false_eq_true, if_false, htrim, hcode, hglue, hdepth, hbalance]
  cases j.line.comment <;> rfl

theorem readFrom_pieced (hwhole : OneLine conv whole) (h : Pieced conv whole code more) {j : Joining}
    (hcode : j.line.code = code) (hdepth : j.depth = bracketBalance conv.joinsBraces code)
    (hcontinued : j.continued = Joining.isContinued conv code) (number : Nat) (lines : List Text) :
    (Reading.step.settle j).1 ++
        readFrom conv (Reading.step.settle j).2 number (more.map (fun k => k.1.indent ++ k.2) ++ lines) =
      { j.line with code := whole } :: readFrom conv .ready (number + more.length) lines := by
  induction more generalizing code j number with
  | nil =>
    obtain rfl : code = whole := h
    have hopen : j.isOpen = false := by
      simp [Joining.isOpen, hdepth, hwhole.closed, hcontinued, hwhole.ends.isContinued]
    rw [Reading.step.settle, hopen, if_neg (by simp), ← hcode]
    rfl
  | cons k more ih =>
    have hpiece := h.piece hwhole.ends hwhole.uncommented
    obtain ⟨hmay, hindent, hmore⟩ := h
    have hopen : j.isOpen = true := by
      simp [Joining.isOpen, hdepth, hmay.inside]
    rw [Reading.step.settle, hopen, if_pos rfl, List.nil_append, List.map_cons, List.cons_append, readFrom_cons,
      Reading.step, extend_piece hcode hdepth hcontinued hmay hpiece hindent, ih hmore rfl rfl rfl, List.length_cons,
      Nat.add_right_comm]
    rfl

theorem IsIndent.not_mem {indent : Text} (h : IsIndent indent) : '\n' ∉ indent := fun hmem => (h _ hmem).2 rfl

theorem physicalLines_pieced (hwhole : OneLine conv whole) (h : Pieced conv whole code more) {line tail rest : Text}
    (hline : '\n' ∉ line) (hends : EndsLine conv line) (htail : Ending tail rest) :
    physicalLines (line ++ (more.flatMap (fun k => k.1.text ++ k.2) ++ tail)) =
      line :: (more.map (fun k => k.1.indent ++ k.2) ++ physicalLines rest) := by
  induction more generalizing code line with
  | nil => exact physicalLines_append hline hends.ne_nil hends.getLast?_ne htail
  | cons k more ih =>
    have hpiece := h.piece hwhole.ends hwhole.uncommented
    obtain ⟨_, hindent, hmore⟩ := h
    have hfeed : '\n' ∉ k.1.indent ++ k.2 := by
      intro hmem
      refine (List.mem_append.mp hmem).elim hindent.not_mem fun hmem => hwhole.noFeed ?_
      exact hmore.isPrefix.subset (by simp [hmem])
    have hsplit : (k :: more).flatMap (fun k => k.1.text ++ k.2) ++ tail =
        lineEnd k.1.crlf ++ (k.1.indent ++ k.2 ++ (more.flatMap (fun k => k.1.text ++ k.2) ++ tail)) := by
      simp [LineBreak.text]
    rw [hsplit, physicalLines_append hline hends.ne_nil hends.getLast?_ne (.line _ _),
      ih hmore hfeed ((endsLine_append_iff hpiece.ends.ne_nil _).mpr hpiece.ends)]
    rfl

private theorem OneLine.start (hwhole : OneLine conv whole) (h : Pieced conv whole code more) (hne : code ≠ []) :
    Piece conv code ∧ conv.commentBlock? code = none ∧ after? conv.commentMarker code = none := by
  have hends := h.endsLine hwhole.ends
  obtain ⟨t, rfl⟩ := h.isPrefix
  obtain ⟨d, s, rfl⟩ := List.exists_cons_of_ne_nil hne
  have hhead : isBlank d = false := by
    apply isBlank_of_mem_head?_trim (s := d :: s ++ t)
    rw [hwhole.trimmed]
    rfl
  have huncommented := (commentFrom_append_eq_none hwhole.uncommented).1
  refine ⟨⟨by simp [hhead], hends, huncommented⟩, ?_, ?_⟩
  · have hlead {lead : Text} (hlead : startsWith lead (d :: s) = true) : startsWith lead (d :: s ++ t) = true := by
      rw [startsWith, List.isPrefixOf_iff_prefix] at hlead ⊢
      exact hlead.trans (List.prefix_append _ _)
    have hblock := hwhole.noBlock
    cases conv with
    | indentation =>
      simp only [Convention.commentBlock?] at hblock ⊢
      split at hblock
      · cases hblock
      split at hblock
      · cases hblock
      · next hdouble hsingle => rw [if_neg fun h => hdouble (hlead h), if_neg fun h => hsingle (hlead h)]
    | braces =>
      simp only [Convention.commentBlock?] at hblock ⊢
      split at hblock
      · cases hblock
      · next hslash => rw [if_neg fun h => hslash (hlead h)]
  · rw [after?, if_neg]
    intro hlead
    obtain ⟨rest, hrest⟩ := List.isPrefixOf_iff_prefix.mp hlead
    have hquote : isQuote d = false := by
      cases conv <;> obtain rfl := (List.cons.inj hrest).1 <;> rfl
    rw [commentFrom, if_pos] at huncommented
    · cases huncommented
    · simp [Mode.role, hquote, hlead]

private theorem readFrom_ready_pieced (hwhole : OneLine conv whole) (h : Pieced conv whole code more)
    (hne : code ≠ [])
    {indent : Text} (hindent : IsIndent indent) (lines : List Text) :
    readFrom conv .ready 1 ((indent ++ code) :: (more.map (fun k => k.1.indent ++ k.2) ++ lines)) =
      ⟨1, .code, indent, leadingColumns indent, whole, none⟩ ::
        (readFrom conv .ready 1 lines).map (renumber (more.length + 1)) := by
  obtain ⟨hpiece, hblock, hmarker⟩ := hwhole.start h hne
  obtain ⟨htrim, hsplit⟩ := hpiece.splitComment hindent
  have hblanks : leadingBlanks (indent ++ code) = indent := by
    obtain ⟨d, hd, hblank⟩ := (Option.any_eq_true _ _).mp hpiece.begins
    obtain ⟨s, rfl⟩ := List.head?_eq_some_iff.mp hd
    rw [leadingBlanks, List.takeWhile_append_of_pos fun e he => (hindent e he).1,
      List.takeWhile_cons_of_neg (by simpa using hblank), List.append_nil]
  have hcolumns : leadingColumns (indent ++ code) = leadingColumns indent := by
    have hindent' : leadingBlanks indent = indent := List.takeWhile_eq_self_iff.mpr fun e he => (hindent e he).1
    rw [leadingColumns, hblanks, leadingColumns, hindent']
  have hstart : Joining.start conv 1 (indent ++ code) =
      { line := ⟨1, .code, indent, leadingColumns indent, code, none⟩
        depth := bracketBalance conv.joinsBraces code
        continued := Joining.isContinued conv code } := by
    rw [Joining.start, hsplit]
    simp only [htrim, hblanks, hcolumns]
  have hstep : Reading.ready.step conv 1 (indent ++ code) = Reading.step.settle (.start conv 1 (indent ++ code)) := by
    rw [Reading.step, htrim, if_neg (by simpa using hne), hblock, hmarker]
  have hnumber : 1 + 1 + more.length = 1 + (more.length + 1) := by omega
  rw [readFrom_cons, hstep, hstart, readFrom_pieced hwhole h rfl rfl rfl, hnumber]
  exact congrArg _ (readFrom_renumber conv (more.length + 1) .ready 1 lines)

end

private theorem OneLine.exists_pieced {conv : Convention} {whole : Text} (h : OneLine conv whole)
    {breaks : Nat → Option LineBreak} (hbreaks : BreaksInside conv whole breaks) :
    ∃ first more, Pieced conv whole first more ∧ first ≠ [] ∧
      breakFrom breaks 0 whole = first ++ more.flatMap (fun k => k.1.text ++ k.2) := by
  have hfirst : breaks 0 = none := by
    by_contra hsome
    obtain ⟨b, hb⟩ := Option.ne_none_iff_exists'.mp hsome
    exact (hbreaks 0 b hb).2.1.ends.ne_nil rfl
  obtain ⟨first, more, hpieced, htext, hhead⟩ := hbreaks.exists_pieced (List.nil_append whole).symm
  refine ⟨first, more, hpieced, ?_, htext⟩
  rintro rfl
  exact h.ends.ne_nil (List.head?_eq_none_iff.mp (hhead hfirst).symm)

/-- Line breaks inside brackets do not matter: a line that is broken there is read as one, and the lines after it
are read as if they stood alone, but for their numbers. Only a brace on a line of its own is moved to it. -/
theorem line_breaks_in_brackets_joined {conv : Convention} {whole : Text} (hwhole : OneLine conv whole)
    {breaks : Nat → Option LineBreak} (hbreaks : BreaksInside conv whole breaks)
    {indent : Text} (hindent : IsIndent indent) {tail rest : Text} (htail : Ending tail rest) :
    let broken := indent ++ breakFrom breaks 0 whole
    let line : Line := ⟨1, .code, indent, leadingColumns indent, whole, none⟩
    let following := readFrom conv .ready 1 (physicalLines rest)
    let count := (physicalLines broken).length
    readFrom conv .ready 1 (physicalLines (broken ++ tail)) = line :: following.map (renumber count) ∧
    ((conv = .braces → nextCode following ≠ "\x7b") →
      ofSource conv (broken ++ tail) = line :: (ofSource conv rest).map (renumber count)) := by
  intro broken line following count
  obtain ⟨first, more, hpieced, hne, htext⟩ := hwhole.exists_pieced hbreaks
  have hends : EndsLine conv (indent ++ first) := (endsLine_append_iff hne indent).mpr (hpieced.endsLine hwhole.ends)
  have hfeed : '\n' ∉ indent ++ first := fun hmem =>
    (List.mem_append.mp hmem).elim hindent.not_mem fun hmem => hwhole.noFeed (hpieced.isPrefix.subset hmem)
  have hlines {tail rest : Text} (htail : Ending tail rest) : physicalLines (broken ++ tail) =
      (indent ++ first) :: (more.map (fun k => k.1.indent ++ k.2) ++ physicalLines rest) := by
    rw [← physicalLines_pieced hwhole hpieced hfeed hends htail]
    simp only [broken, htext, List.append_assoc]
  have hcount : count = more.length + 1 := by
    have hsource := hlines .source
    rw [List.append_nil] at hsource
    rw [show count = (physicalLines broken).length from rfl, hsource]
    simp [physicalLines, pieces]
  have hread : readFrom conv .ready 1 (physicalLines (broken ++ tail)) = line :: following.map (renumber count) := by
    rw [hlines htail, hcount]
    exact readFrom_ready_pieced hwhole hpieced hne hindent _
  exact ⟨hread, ofSource_of_readFrom hread⟩

/-- A dictionary on four lines, with another line after it. -/
theorem line_breaks_in_brackets_joined_dictionary :
    let whole : Text := "d = \x7b\"a (b\": [1, 2], 'c': f(x, y)\x7d"
    let breaks : Nat → Option LineBreak := fun i =>
      if i = 12 then some ⟨true, "\t"⟩ else if i = 20 then some ⟨false, []⟩
      else if i = 30 then some ⟨false, "      "⟩ else none
    let source : Text := "  d = \x7b\"a (b\":\r\n\t[1, 2],\n'c': f(x,\n      y)\x7d\nz = 1"
    OneLine .indentation whole ∧ "  ".toList ++ breakFrom breaks 0 whole ++ "\nz = 1" = source ∧
      BreaksInside .indentation whole breaks ∧
      ofSource .indentation source =
        [⟨1, .code, "  ".toList, 2, whole, none⟩, ⟨5, .code, [], 0, "z = 1".toList, none⟩] := by
  intro whole breaks source
  have hwhole : OneLine .indentation whole := by decide +kernel
  have hsource : "  ".toList ++ breakFrom breaks 0 whole ++ "\nz = 1" = source := by decide +kernel
  have hbreaks : BreaksInside .indentation whole breaks := by
    intro i b hb
    simp only [breaks] at hb
    split at hb
    · next hi =>
      obtain rfl := Option.some.inj hb
      rw [hi]
      decide +kernel
    split at hb
    · next hi =>
      obtain rfl := Option.some.inj hb
      rw [hi]
      decide +kernel
    split at hb
    · next hi =>
      obtain rfl := Option.some.inj hb
      rw [hi]
      decide +kernel
    · cases hb
  have hindent : IsIndent "  " := by decide +kernel
  have hrest : Ending (lineEnd false ++ "z = 1") "z = 1" := .line false "z = 1"
  obtain ⟨_, hjoined⟩ := line_breaks_in_brackets_joined hwhole hbreaks hindent hrest
  refine ⟨hwhole, hsource, hbreaks, ?_⟩
  rw [← hsource]
  refine (hjoined fun h => nomatch h).trans ?_
  decide +kernel

end Line

end Pseudocode
