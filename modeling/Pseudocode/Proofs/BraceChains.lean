import Pseudocode.Proofs.Session
import Mathlib.Data.List.DropRight

/-! # Chains of braced sources

Which code goes on with a chain depends on the innermost block alone, and the ends of bodies are
described by equations without a bound on the number of blocks closed. -/

namespace Pseudocode

namespace Text

@[simp] theorem trimStart_trimStart (s : Text) : trimStart (trimStart s) = trimStart s :=
  List.dropWhile_idempotent isBlank s

/-- White space is outside a class that has none of its code points. -/
theorem eq_false_of_isBlank {p : Char → Bool}
    (hall : ∀ r ∈ blankRanges, ∀ i < r.2 + 1 - r.1, p (Char.ofNat (r.1 + i)) = false) {c : Char}
    (h : isBlank c = true) : p c = false := by
  obtain ⟨r, hr, hn⟩ := List.any_eq_true.mp h
  simp only [Bool.and_eq_true, decide_eq_true_eq] at hn
  have hi := hall r hr (c.toNat - r.1) (by omega)
  rwa [Nat.add_sub_cancel' hn.1, Char.ofNat_toNat] at hi

theorem isNameChar_of_isBlank {c : Char} (h : isBlank c = true) : isNameChar c = false :=
  eq_false_of_isBlank (by decide +kernel) h

theorem isWordChar_of_isBlank {c : Char} (h : isBlank c = true) : isWordChar c = false :=
  eq_false_of_isBlank (by decide +kernel) h

theorem splitAt?_of_not_mem {c : Char} {before : Text} (h : c ∉ before) (rest : Text) :
    splitAt? [c] (before ++ c :: rest) = some (before, rest) := by
  induction before with
  | nil => simp [splitAt?]
  | cons d before ih =>
    simp only [List.mem_cons, not_or] at h
    simp [splitAt?, h.1, ih h.2]

end Text

private theorem Name.beginsWith_of_ne {word : Text} {c : Char} (h : word.head?.any (· != c) = true)
    (s : Text) : beginsWith word (c :: s) = false := by
  cases word with
  | nil => simp at h
  | cons d word =>
    have hd : d ≠ c := by simpa using h
    simp [beginsWith, Text.beginsWithWord, Text.after?, hd]

namespace Braces

open Text

/-! ### Continuations -/

@[simp] theorem continuation?_trimStart (code : Text) :
    continuation? (trimStart code) = continuation? code := by
  simp only [continuation?, trimStart_trimStart]

@[simp] theorem continuation?_nil : continuation? [] = none := rfl

theorem continuation?_of_ne {code rest : Text} {c : Char} (h : trimStart code = c :: rest)
    (hc : c ≠ 'e' ∧ c ≠ 'c' ∧ c ≠ 'f') : continuation? code = none := by
  obtain ⟨he, hcatch, hf⟩ := hc
  have htrim : trimStart (c :: rest) = c :: rest := by rw [← h, trimStart_trimStart]
  have helse : Name.beginsWith "else" (c :: rest) = false :=
    Name.beginsWith_of_ne (by simpa using he.symm) rest
  have hcatch : Name.beginsWith "catch" (c :: rest) = false :=
    Name.beginsWith_of_ne (by simpa using hcatch.symm) rest
  have hfinally : Name.beginsWith "finally" (c :: rest) = false :=
    Name.beginsWith_of_ne (by simpa using hf.symm) rest
  rw [← continuation?_trimStart, h]
  simp only [continuation?, htrim, helse, hcatch, hfinally, Bool.false_eq_true, ↓reduceIte]

/-- A line that begins with a closing brace continues nothing by itself. -/
theorem continuation?_of_brace {code rest : Text} (h : trimStart code = '}' :: rest) :
    continuation? code = none :=
  continuation?_of_ne h (by decide)

/-- Whether the chain of a block goes on with the code `next`. -/
def continues (b : Block) (next : Text) : Bool :=
  match continuation? next with
  | some kind => b.kind.accepts kind
  | none => b.kind = .repeatLoop && Name.beginsWith "while" (trimStart next)

theorem chainContinues_eq_any (s : State) (next : Text) :
    chainContinues s next = s.blocks.head?.any (continues · next) := by
  unfold chainContinues State.topKind continues
  cases s.blocks with
  | nil => rfl
  | cons b outer =>
    cases continuation? next with
    | some kind => rfl
    | none => cases hk : b.kind <;> simp [hk]

theorem chainContinues_of_cons {s : State} {b : Block} {outer : List Block}
    (h : s.blocks = b :: outer) (next : Text) : chainContinues s next = continues b next := by
  simp [chainContinues_eq_any, h]

theorem continues_trimStart (b : Block) (code : Text) :
    continues b (trimStart code) = continues b code := by
  simp only [continues, continuation?_trimStart, trimStart_trimStart]

@[simp] theorem continues_nil (b : Block) : continues b [] = false := by
  simp [continues, Name.beginsWith, beginsWithWord, trimStart, after?]

/-! ### Ends of bodies -/

theorem finishBody_of_continues {s : State} {b : Block} {outer : List Block}
    (hs : s.blocks = b :: outer) (st : Style) {next : Text} (hc : continues b next = true) :
    finishBody st next s = { s.note (.chainContinues s.topKind) with chainPending := true } := by
  rw [finishBody, hs, List.length_cons, finishBodies, chainContinues_of_cons hs, if_pos hc]

/-- A body whose chain does not go on closes its block, and then the body of which the block was the
only statement. -/
theorem finishBody_of_not_continues {s : State} {b : Block} {outer : List Block}
    (hs : s.blocks = b :: outer) (st : Style) {next : Text} (hc : continues b next = false) :
    finishBody st next s =
      if (s.close st).topIsBraceless then finishBody st next (s.close st) else s.close st := by
  have hlen : (s.close st).blocks.length = outer.length := by rw [State.blocks_close, hs]; rfl
  rw [finishBody, hs, List.length_cons, finishBodies, chainContinues_of_cons hs, hc]
  simp only [Bool.false_eq_true, ↓reduceIte]
  rw [finishBody, hlen]

theorem topIsBraceless_of_nil {s : State} (hs : s.blocks = []) : s.topIsBraceless = false := by
  simp [State.topIsBraceless, hs]

theorem topIsBraceless_of_cons {s : State} {b : Block} {outer : List Block}
    (hs : s.blocks = b :: outer) : s.topIsBraceless = b.braceless := by
  simp [State.topIsBraceless, hs]

theorem closeUnfilled_of_not_braceless {s : State} (h : s.topIsBraceless = false) (st : Style) :
    closeUnfilled st s = s := by
  unfold closeUnfilled
  cases s.blocks.length with
  | zero => rfl
  | succ n => rw [closeUnfilledMany, if_neg (by simp [h])]

/-! ### The steps of entering and leaving a line -/

theorem enter_of_closeLeading {st : Style} {line : Line} {following rest : Text} {s t : State}
    (h : closeLeading st line.number following (trimStart line.code).length (trimStart line.code) s =
      (rest, t)) :
    enter st line following s =
      if t.chainPending && !rest.isEmpty then
        enterPending st line.number following rest { t with chainPending := false }
      else ({ code := rest }, checkOrphan line.number rest t) := by
  unfold enter
  simp only [h]

/-- The block that a line opens is pushed; a chain that the line fails to continue ends. -/
def placeOpened (st : Style) (entry : Entry) (opened : Option Block) (s : State) : State :=
  match opened, entry.taken with
  | some b, _ => openBlock b (braceCounts entry.code).1 s
  | none, some b => finishBody st [] (s.push b)
  | none, none => s

/-- Braces that belong to no block are put on the stack, and closing ones are taken off. -/
def matchBraces (st : Style) (line : Nat) (following : Text) (unowned closes : Nat) (s : State) :
    State :=
  closeMany st line following closes { s with braces := List.replicate unowned false ++ s.braces }

/-- A whole statement ends the body of a braceless block. -/
def endStatement (st : Style) (following : Text) (whole : Bool) (s : State) : State :=
  if whole && !s.chainPending && s.topIsBraceless then finishBody st following s else s

theorem leave_eq (st : Style) (line : Line) (following : Text) (entry : Entry)
    (opened : Option Block) (s : State) :
    leave st line following entry opened s =
      endStatement st following
        (opened.isNone && entry.taken.isNone && !entry.code.isEmpty &&
          (braceCounts entry.code).1 = (braceCounts entry.code).2)
        (matchBraces st line.number following
          (if opened.isSome then (braceCounts entry.code).1 - 1 else (braceCounts entry.code).1)
          (braceCounts entry.code).2 (placeOpened st entry opened s)) := rfl

theorem braceCounts_nil : braceCounts [] = (0, 0) := rfl

/-- A line that was all structure leaves nothing to settle. -/
theorem leave_of_code_nil (st : Style) (line : Line) (following : Text) (s : State) :
    leave st line following { code := [] } none s = s := by
  simp [leave, braceCounts_nil, closeMany]

end Braces

end Pseudocode
