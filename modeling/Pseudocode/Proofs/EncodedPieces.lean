import Mathlib.Data.List.Forall2
import Pseudocode.Proofs.InterpolatedStrings

/-! # Pieces read back from an interpolated string

Literal text is written with its braces doubled, a field between single braces, perhaps with a conversion or a format
after its expression. Doubled braces and the braces of a field may stand side by side, but the reading goes from left
to right and comes to every piece at its first character: before a field the braces of literal text are paired off,
and a field ends at its first closing brace. So the operands are the pieces, one for each, if no two literals stand
side by side. -/

namespace Pseudocode.Interpolation

open Text Pattern

namespace Piece

/-- What is written for a piece; a field is taken with what follows its expression. -/
def source : Piece → Text
  | .literal s => doubled s
  | .field s => '{' :: (s ++ ['}'])

/-- A piece that can be told from the pieces around it. -/
def Distinct : Piece → Prop
  | .literal s => s ≠ []
  | .field s => '{' ∉ s ∧ '}' ∉ s

def isLiteral : Piece → Bool
  | .literal _ => true
  | .field _ => false

/-- Literal text in double quotes, or the expression of a field. -/
def expression : Piece → Text
  | .literal s => "\"" ++ s ++ "\""
  | .field s => s

end Piece

/-- Not both of two neighbours are literals. -/
def Alternate (p q : Piece) : Prop := ¬ (p.isLiteral = true ∧ q.isLiteral = true)

theorem piecesFrom_source {ps : List Piece} (hps : ∀ p ∈ ps, p.Distinct) (hturns : ps.IsChain Alternate) :
    piecesFrom false (ps.flatMap Piece.source) = ps := by
  induction ps with
  | nil => simp [piecesFrom]
  | cons p ps ih =>
    obtain ⟨hp, hps⟩ := List.forall_mem_cons.mp hps
    obtain ⟨hnext, hturns⟩ := List.isChain_cons.mp hturns
    have hrest := ih hps hturns
    cases p with
    | literal s =>
      -- a field comes next or nothing, so the text is put in front of no other literal
      have hfirst : ∀ s' ps', ps ≠ .literal s' :: ps' := by
        rintro s' ps' rfl
        exact hnext (.literal s') rfl ⟨rfl, rfl⟩
      rw [List.flatMap_cons, Piece.source, piecesFrom_doubled, hrest, foldr_consLiteral s hfirst, if_neg hp]
    | field s =>
      have htext : (Piece.field s :: ps).flatMap Piece.source = '{' :: (s ++ '}' :: ps.flatMap Piece.source) := by
        simp [Piece.source]
      rw [htext, piecesFrom_field hp, hrest]

/-! ### Conversions and formats -/

/-- What may come between the expression of a field and its closing brace. -/
inductive Suffix : Text → Prop
  | none : Suffix []
  | mark {c : Char} {s : Text} (mark : c = '!' ∨ c = ':') (braces : '{' ∉ s ∧ '}' ∉ s) : Suffix (c :: s)

/-- A piece and what may be written for it. -/
inductive Encodes : Piece → Text → Prop
  | literal {s : Text} (ne_nil : s ≠ []) : Encodes (.literal s) (doubled s)
  | field {s t : Text} (ne_nil : s ≠ []) (trimmed : trim s = s) (plain : ∀ c ∈ s, c ∉ ['{', '}', '!', ':'])
      (suffix : Suffix t) : Encodes (.field s) ('{' :: (s ++ t ++ ['}']))

private theorem Suffix.braces {t : Text} (h : Suffix t) : '{' ∉ t ∧ '}' ∉ t := by
  cases h with
  | none => simp
  | mark mark braces => rcases mark with rfl | rfl <;> simpa using braces

private theorem Suffix.takeWhile_append {s t : Text} (h : Suffix t) (hs : ∀ c ∈ s, noneOf "!:" c = true) :
    (s ++ t).takeWhile (noneOf "!:") = s := by
  rw [List.takeWhile_append_of_pos hs]
  cases h with
  | none => simp
  | mark mark _ => rcases mark with rfl | rfl <;> simp [noneOf]

private theorem Encodes.exists_source {p : Piece} {t : Text} (h : Encodes p t) :
    ∃ r : Piece, t = r.source ∧ r.Distinct ∧ r.isLiteral = p.isLiteral ∧ r.operand? = some p.expression := by
  cases h with
  | @literal s ne_nil => exact ⟨.literal s, rfl, ne_nil, rfl, rfl⟩
  | @field s t ne_nil trimmed plain suffix =>
    have hnot (c : Char) (hc : c ∈ ['{', '}', '!', ':']) : c ∉ s := fun hmem => plain c hmem hc
    have hmarks : ∀ c ∈ s, noneOf "!:" c = true := by
      intro c hc
      have hc := plain c hc
      simp_all [noneOf]
    refine ⟨.field (s ++ t), rfl, ?_, rfl, ?_⟩
    · simp [Piece.Distinct, hnot, suffix.braces]
    · rw [Piece.operand?, suffix.takeWhile_append hmarks, trimmed]
      cases s with
      | nil => exact absurd rfl ne_nil
      | cons => rfl

private theorem exists_sources {ps : List Piece} {ts : List Text} (h : List.Forall₂ Encodes ps ts) :
    ∃ rs : List Piece, ts.flatten = rs.flatMap Piece.source ∧ (∀ r ∈ rs, r.Distinct) ∧
      rs.map Piece.isLiteral = ps.map Piece.isLiteral ∧ rs.filterMap Piece.operand? = ps.map Piece.expression := by
  induction h with
  | nil => exact ⟨[], rfl, List.forall_mem_nil _, rfl, rfl⟩
  | cons hp _ ih =>
    obtain ⟨rs, htext, hdistinct, hkinds, hoperands⟩ := ih
    obtain ⟨r, rfl, hr, hkind, hoperand⟩ := hp.exists_source
    refine ⟨r :: rs, ?_, List.forall_mem_cons.mpr ⟨hr, hdistinct⟩, ?_, ?_⟩
    · rw [List.flatten_cons, htext, List.flatMap_cons]
    · rw [List.map_cons, List.map_cons, hkind, hkinds]
    · rw [List.filterMap_cons, hoperand, hoperands, List.map_cons]

/-- The operands of an interpolated string are the pieces it was written from, in order: literal text in double
quotes, and the expressions of fields without their conversions and formats. -/
theorem operands_of_encoded {ps : List Piece} {ts : List Text} (hencoded : List.Forall₂ Encodes ps ts)
    (hturns : ps.IsChain Alternate) : operands ts.flatten = ps.map Piece.expression := by
  obtain ⟨rs, htext, hdistinct, hkinds, hoperands⟩ := exists_sources hencoded
  have hturns' : rs.IsChain Alternate := by
    have hchain : (ps.map Piece.isLiteral).IsChain fun a b => ¬ (a = true ∧ b = true) :=
      (List.isChain_map Piece.isLiteral).mpr hturns
    rw [← hkinds] at hchain
    exact (List.isChain_map Piece.isLiteral).mp hchain
  rw [operands, htext, piecesFrom_source hdistinct hturns', hoperands]

/-- Three braces before a field and three after it, a field with a format and one with a conversion, and two fields
side by side. -/
theorem operands_of_encoded_braces :
    let ps : List Piece := [.literal "\x7b\x7d\x7b", .field "a + b", .literal "\x7d, ", .field "x", .field "y"]
    let ts : List Text :=
      ["\x7b\x7b\x7d\x7d\x7b\x7b", "\x7ba + b:>8.2f\x7d", "\x7d\x7d, ", "\x7bx!r:^9\x7d", "\x7by\x7d"]
    List.Forall₂ Encodes ps ts ∧ ps.IsChain Alternate ∧
    ts.flatten = ("\x7b\x7b\x7d\x7d\x7b\x7b\x7ba + b:>8.2f\x7d\x7d\x7d, \x7bx!r:^9\x7d\x7by\x7d" : String) ∧
    operands ts.flatten = ["\"\x7b\x7d\x7b\"", "a + b", "\"\x7d, \"", "x", "y"] := by
  intro ps ts
  have hfield {e f : Text} (he : e ≠ [] ∧ trim e = e ∧ (e.all fun c => c ∉ ['{', '}', '!', ':']) = true)
      (hf : Suffix f) : Encodes (.field e) ('{' :: (e ++ f ++ ['}'])) :=
    .field he.1 he.2.1 (fun c hc => by simpa using List.all_eq_true.mp he.2.2 c hc) hf
  have hencoded : List.Forall₂ Encodes ps ts :=
    .cons (.literal (by decide)) (.cons (hfield (f := ":>8.2f") (by decide) (.mark (.inr rfl) (by decide)))
      (.cons (.literal (by decide)) (.cons (hfield (f := "!r:^9") (by decide) (.mark (.inl rfl) (by decide)))
        (.cons (hfield (f := []) (by decide) .none) .nil))))
  have hturns : ps.IsChain Alternate := by
    simp [ps, Alternate, Piece.isLiteral]
  exact ⟨hencoded, hturns, rfl, operands_of_encoded hencoded hturns⟩

end Pseudocode.Interpolation
