import Pseudocode.Proofs.QuotedText

/-! # Literals by their grammar

A text is code with string literals in it. Here a literal is described by what may be written, and not by a
scan: either quote opens it and the same quote closes it, a backslash takes the next character with it, and
a literal without its closing quote runs to the end of the text. Every text is written in exactly one such
way, and the segments of a text are this way. -/

namespace Pseudocode.Text

/-! ### Bodies and literals -/

/-- What may stand between two quotes `q`. -/
inductive Body (q : Char) : Text → Prop
  | nil : Body q []
  | char {c : Char} {s : Text} (quote : c ≠ q) (back : c ≠ '\\') (rest : Body q s) : Body q (c :: s)
  | escape (c : Char) {s : Text} (rest : Body q s) : Body q ('\\' :: c :: s)

/-- A literal as it may be written. Without its closing quote it may end with a backslash that has no
character to take with it. -/
inductive Literal.Written : Literal → Prop
  | closed {q : Char} {s : Text} (quote : isQuote q = true) (body : Body q s) : Written ⟨q, s, true⟩
  | unclosed {q : Char} {s : Text} (quote : isQuote q = true) (body : Body q s) : Written ⟨q, s, false⟩
  | dangling {q : Char} {s : Text} (quote : isQuote q = true) (body : Body q s) : Written ⟨q, s ++ ['\\'], false⟩

theorem ne_backslash_of_isQuote {q : Char} (h : isQuote q = true) : q ≠ '\\' := by
  rintro rfl
  exact absurd h (by decide)

theorem body_of_plain {q : Char} {s : Text} (hquote : q ∉ s) (hback : '\\' ∉ s) : Body q s := by
  induction s with
  | nil => exact .nil
  | cons c s ih =>
    rw [List.mem_cons, not_or] at hquote hback
    exact (ih hquote.2 hback.2).char (Ne.symm hquote.1) (Ne.symm hback.1)

private theorem Body.roles {q : Char} (hq : isQuote q = true) {s : Text} (h : Body q s) :
    (∀ x ∈ rolesFrom (.literal q) s, x.2 = .body) ∧ Mode.after (.literal q) s = .literal q := by
  induction h with
  | nil => exact ⟨List.forall_mem_nil _, rfl⟩
  | @char c s quote back _ ih =>
    have hnext : Mode.next (.literal q) c = .literal q := by simp [Mode.next, quote, back]
    rw [rolesFrom, Mode.after_cons, hnext]
    exact ⟨List.forall_mem_cons.mpr ⟨if_neg quote, ih.1⟩, ih.2⟩
  | @escape c s _ ih =>
    have hback : ('\\' : Char) ≠ q := (ne_backslash_of_isQuote hq).symm
    exact ⟨List.forall_mem_cons.mpr ⟨if_neg hback, List.forall_mem_cons.mpr ⟨rfl, ih.1⟩⟩, ih.2⟩

private theorem body_of_roles {q : Char} (s : Text) :
    ((∀ x ∈ rolesFrom (.literal q) s, x.2 = .body) →
      Mode.after (.literal q) s = .literal q ∧ Body q s ∨
      Mode.after (.literal q) s = .escaped q ∧ ∃ b, Body q b ∧ s = b ++ ['\\']) ∧
    ((∀ x ∈ rolesFrom (.escaped q) s, x.2 = .body) →
      Mode.after (.escaped q) s = .literal q ∧ Body q ('\\' :: s) ∨
      Mode.after (.escaped q) s = .escaped q ∧ ∃ b, Body q b ∧ '\\' :: s = b ++ ['\\']) := by
  induction s with
  | nil => exact ⟨fun _ => .inl ⟨rfl, .nil⟩, fun _ => .inr ⟨rfl, [], .nil, rfl⟩⟩
  | cons c s ih =>
    obtain ⟨hliteral, hescaped⟩ := ih
    constructor
    · intro hroles
      obtain ⟨hc, hs⟩ := List.forall_mem_cons.mp hroles
      have hquote : c ≠ q := fun heq => by simp [Mode.role, heq] at hc
      rw [Mode.after_cons]
      by_cases hback : c = '\\'
      · subst hback
        have hnext : Mode.next (.literal q) '\\' = .escaped q := by simp [Mode.next]
        rw [hnext] at hs ⊢
        exact hescaped hs
      · have hnext : Mode.next (.literal q) c = .literal q := by simp [Mode.next, hquote, hback]
        rw [hnext] at hs ⊢
        rcases hliteral hs with ⟨hafter, hbody⟩ | ⟨hafter, b, hb, rfl⟩
        · exact .inl ⟨hafter, hbody.char hquote hback⟩
        · exact .inr ⟨hafter, c :: b, hb.char hquote hback, rfl⟩
    · intro hroles
      obtain ⟨_, hs⟩ := List.forall_mem_cons.mp hroles
      rcases hliteral hs with ⟨hafter, hbody⟩ | ⟨hafter, b, hb, rfl⟩
      · exact .inl ⟨hafter, hbody.escape c⟩
      · exact .inr ⟨hafter, '\\' :: c :: b, hb.escape c, rfl⟩

theorem Literal.Written.sound {l : Literal} (h : l.Written) : l.Sound := by
  cases h with
  | closed hq hbody => exact ⟨hq, (hbody.roles hq).1, fun _ => (hbody.roles hq).2⟩
  | unclosed hq hbody => exact ⟨hq, (hbody.roles hq).1, by simp⟩
  | @dangling q body hq hbody =>
    obtain ⟨hroles, hafter⟩ := hbody.roles hq
    refine ⟨hq, ?_, by simp⟩
    rw [rolesFrom_append, hafter]
    have hback : ('\\' : Char) ≠ q := (ne_backslash_of_isQuote hq).symm
    exact List.forall_mem_append.mpr ⟨hroles, List.forall_mem_singleton.mpr (if_neg hback)⟩

theorem Literal.Sound.written {l : Literal} (h : l.Sound) : l.Written := by
  obtain ⟨q, body, closed⟩ := l
  obtain ⟨hq, hroles, hclosed⟩ := h
  rcases (body_of_roles body).1 hroles with ⟨_, hbody⟩ | ⟨hafter, b, hb, rfl⟩
  · cases closed with
    | true => exact .closed hq hbody
    | false => exact .unclosed hq hbody
  · cases closed with
    | true => simp [hafter] at hclosed
    | false => exact .dangling hq hb

/-! ### Whole texts -/

/-- Literals, each with the code after it. One that is not closed is the last one, and no code comes after
it. -/
inductive WrittenRest : List (Literal × Text) → Prop
  | nil : WrittenRest []
  | closed {l : Literal} {u : Text} {xs : List (Literal × Text)} (literal : l.Written) (closed : l.closed = true)
      (code : ∀ c ∈ u, isQuote c = false) (rest : WrittenRest xs) : WrittenRest ((l, u) :: xs)
  | unclosed {l : Literal} (literal : l.Written) (closed : l.closed = false) : WrittenRest [(l, [])]

namespace Segments

/-- Code, which has no quotes, and literals as they may be written. -/
structure Written (t : Segments) : Prop where
  lead : ∀ c ∈ t.lead, isQuote c = false
  rest : WrittenRest t.rest

def text (t : Segments) : Text := t.lead ++ restText t.rest

end Segments

private theorem SoundRest.written {rest : List (Literal × Text)} (h : SoundRest rest) : WrittenRest rest := by
  induction rest with
  | nil => exact .nil
  | cons x rest ih =>
    obtain ⟨l, code⟩ := x
    obtain ⟨hl, hcode, hunclosed, hrest⟩ := h
    cases hclosed : l.closed with
    | true => exact .closed hl.written hclosed hcode (ih hrest)
    | false =>
      obtain ⟨hnil, rfl⟩ := hunclosed hclosed
      obtain rfl : code = [] := hnil
      exact .unclosed hl.written hclosed

namespace SegmentRun

theorem cut_append {m : Mode} {u : Text} (h : ∀ x ∈ rolesFrom m u, x.2 = .code ∨ x.2 = .body) (v : Text) :
    cut m (u ++ v) = { cut (m.after u) v with run := u ++ (cut (m.after u) v).run } := by
  induction u generalizing m with
  | nil => rfl
  | cons c u ih =>
    obtain ⟨hc, hu⟩ := List.forall_mem_cons.mp h
    rw [List.cons_append, cut_cons, ih hu, Mode.after_cons]
    rcases hc with hc | hc <;> rw [show m.role c = _ from hc] <;> rfl

theorem cut_code {u : Text} (h : ∀ c ∈ u, isQuote c = false) (v : Text) :
    cut .code (u ++ v) = { cut .code v with run := u ++ (cut .code v).run } := by
  have hroles : ∀ x ∈ rolesFrom .code u, x.2 = .code ∨ x.2 = .body := by
    rw [rolesFrom_of_no_quote h]
    simp
  rw [cut_append hroles, after_of_no_quote h]

theorem cut_closed {l : Literal} (h : l.Sound) (hclosed : l.closed = true) (v : Text) :
    cut .code (l.text ++ v) = ⟨[], false, [], (l, (cut .code v).run) :: (cut .code v).rest⟩ := by
  rw [Literal.text, if_pos hclosed, List.cons_append, cut_cons, h.open_quote.1, h.open_quote.2, List.append_assoc,
    cut_append fun x hx => .inr (h.body x hx), h.closed hclosed, List.singleton_append, cut_cons, h.close_quote.1,
    h.close_quote.2]
  simp [push, ← hclosed]

private theorem cut_unclosed {l : Literal} (h : l.Sound) (hclosed : l.closed = false) :
    cut .code l.text = ⟨[], false, [], [(l, [])]⟩ := by
  have hbody := cut_append (fun x hx => .inr (h.body x hx)) []
  rw [Literal.text, hclosed, if_neg (by simp), cut_cons, h.open_quote.1, h.open_quote.2, hbody]
  simp [cut, rolesFrom, empty, push, ← hclosed]

private theorem cut_restText {rest : List (Literal × Text)} (h : WrittenRest rest) :
    (cut .code (restText rest)).run = [] ∧ (cut .code (restText rest)).rest = rest := by
  induction h with
  | nil => exact ⟨rfl, rfl⟩
  | @closed l code rest literal closed hcode _ ih =>
    rw [restText, List.flatMap_cons, List.append_assoc, cut_closed literal.sound closed, cut_code hcode]
    exact ⟨rfl, by rw [← restText, ih.1, ih.2, List.append_nil]⟩
  | @unclosed l literal closed =>
    have htext : restText [(l, [])] = l.text := by simp [restText]
    rw [htext, cut_unclosed literal.sound closed]
    exact ⟨rfl, rfl⟩

end SegmentRun

/-- The segments of a text are the one way in which it is written. -/
theorem written_iff {s : Text} {t : Segments} : t.Written ∧ t.text = s ↔ segments s = t := by
  constructor
  · rintro ⟨hwritten, rfl⟩
    obtain ⟨hrun, hrest⟩ := SegmentRun.cut_restText hwritten.rest
    have hcut := SegmentRun.cut_code hwritten.lead (restText t.rest)
    rw [hrun, List.append_nil] at hcut
    rw [segments, Segments.text, hcut]
    exact congrArg (Segments.mk t.lead) hrest
  · rintro rfl
    exact ⟨⟨isQuote_lead s, (soundRest_segments s).written⟩, (text_segments s).symm⟩

end Pseudocode.Text
