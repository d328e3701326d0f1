import Pseudocode.Proofs.WholeConversions

/-! # Brackets stay nested

Every step of the spelling of an expression keeps what is read of its brackets, unless it cuts a text inside a pair of
brackets or a literal: a field at its format, a subscript at a bracket of a literal, a conversion at the parenthesis of
another call. -/

namespace Pseudocode

open Text Pattern Interpolation

/-- In every state and in both dialects, the brackets of a well bracketed expression stay nested. Every
interpolated string has to stand in code and to be closed, and its pieces, fields without their formats among them,
have to be well bracketed. Where subscripts of records or strings are rewritten, none of them may begin in a literal,
and none that begins before a literal may end in it. Every conversion at the beginning of an operand has to be the
whole operand; it is enough that where a sum becomes a concatenation, what stands between the first and the last
parenthesis of a dropped conversion is well bracketed. -/
theorem brackets_nest {d : Dialect} {symbols : Symbols} {e : Text} :
    let st : Setting := ⟨d.style, .indentation, symbols⟩
    WellBracketed e →
    (∀ u t body, Interpolates (trim e) u t body →
      Mode.code.after u = .code ∧ Mode.code.after t = .code ∧ ∀ q ∈ piecesFrom false body, q.IsWellBracketed) →
    (st.IndexesRecords ∨ st.IndexesStrings → ∀ l ∈ literals (expand (trim e)), l.Unsubscripted st.indexes) →
    (ConvertsWhole (expand (trim e)) ∨ (st.concatenate (st.subscripted e) ≠ st.subscripted e →
      ∀ p ∈ splitTopLevel '+' (st.subscripted e), ∀ x ∈ between? "str(" ")" p, WellBracketed x)) →
    Nested (st.expr e) := by
  intro st he hstrings hindex hconversions
  have hst : st.style = d.style := rfl
  have hread₀ : read noteBracket .code [] (trim e) = some [] := he.trim.read []
  obtain ⟨hread₁, hafter₁⟩ := keeps_expand hstrings _ hread₀
  obtain ⟨hread₂, hafter₂⟩ := Setting.keeps_subscripts hst hindex _ hread₁
  have hafter : Mode.code.after (st.subscripted e) = .code := hafter₂.trans (hafter₁.trans he.trim.after)
  have hread₃ : read noteBracket .code [] (st.concatenate (st.subscripted e)) = some [] := by
    by_cases hsum : st.concatenate (st.subscripted e) = st.subscripted e
    · rw [hsum]
      exact hread₂
    · have hnested : ∀ p ∈ splitTopLevel '+' (st.subscripted e), ∀ x ∈ between? "str(" ")" p,
          Nested x ∧ Mode.code.after x = .code := by
        rcases hconversions with hwhole | hwell
        · exact Setting.nested_of_convertsWhole hst hwhole (nested_iff.mpr hread₁) hindex
        · exact fun p hp x hx => ⟨(hwell hsum p hp x hx).nested, (hwell hsum p hp x hx).after⟩
      exact (Setting.keeps_concatenate hst skipsCode_noteBracket (.inl hafter)
        (fun p hp _ due => Setting.keeps_dropConversion_of_nested (hnested p hp)) _ hread₂).1
  exact nested_iff.mpr (read_mapCode (fun _ => skipsLiterals_noteBracket) rfl
    (fun u hu due => Setting.keeps_respellCode hst rfl hu) hread₃)

/-- A string with the field of a record, a format and an escape, beside a conversion of a subscript. -/
theorem brackets_nest_sum :
    let symbols : Symbols :=
      ⟨{ records := ⟨[("d", ⟨[("k", "STRING")]⟩)]⟩ }, { types := ⟨[("t", "STRING")]⟩ }⟩
    let st : Setting := ⟨.cambridge, .indentation, symbols⟩
    let e : Text := "f\"Hi \x7bd['k']\x7d \x7b(n):>5\x7d\\n\" + str(t[ 0 ] + [g(x)][0])"
    st.IndexesRecords ∧ st.IndexesStrings ∧
      st.expr e = "\"Hi \" & d.k & \" \" & (n) & \"\\n\" & MID(t, 0, 1) + [g(x)][0]".toList ∧ Nested (st.expr e) := by
  intro symbols st e
  have hinterpolated : ∀ u t body, Interpolates e u t body →
      u = [] ∧ t = "f\"Hi \x7bd['k']\x7d \x7b(n):>5\x7d\\n\"".toList ∧
        body = "Hi \x7bd['k']\x7d \x7b(n):>5\x7d\\n".toList := by
    rintro u t body ⟨q, v, hq, hbody, rfl, he, _⟩
    have hparts : e = [] ++ 'f' :: ('"' :: ("Hi \x7bd['k']\x7d \x7b(n):>5\x7d\\n".toList ++
        '"' :: " + str(t[ 0 ] + [g(x)][0])".toList)) := by decide +kernel
    rw [hparts, List.cons_append, List.cons_append, List.append_assoc] at he
    obtain ⟨rfl, _, hrest⟩ := (List.append_cons_inj_of_notMem (by simp) (by decide)).mp he
    obtain ⟨rfl, hrest⟩ := List.cons.inj hrest
    obtain ⟨rfl, _⟩ := (List.append_cons_inj_of_notMem (by decide) (by decide)).mp hrest
    exact ⟨rfl, rfl, rfl⟩
  refine ⟨⟨rfl, "d", by decide⟩, ⟨rfl, "t", by decide⟩, by decide +kernel, ?_⟩
  have htrim : trim e = e := by decide +kernel
  have hfields : ∀ u t body, Interpolates (trim e) u t body →
      Mode.code.after u = .code ∧ Mode.code.after t = .code ∧ ∀ q ∈ piecesFrom false body, q.IsWellBracketed := by
    rw [htrim]
    intro u t body h
    obtain ⟨rfl, rfl, rfl⟩ := hinterpolated u t body h
    decide +kernel
  exact brackets_nest (d := .cambridge) (by decide +kernel) hfields (fun _ => by decide +kernel)
    (.inl (by decide +kernel))

/-- The format of a field begins after a colon, also after the one of a slice. -/
theorem slice_cut_at_colon :
    let st : Setting := ⟨.cambridge, .indentation, {}⟩
    let e : Text := "f\"\x7bs[1:3]\x7d\""
    WellBracketed e ∧ piecesFrom false "\x7bs[1:3]\x7d" = [.field "s[1:3]"] ∧ WellBracketed "s[1:3]" ∧
      st.expr e = "s[1".toList ∧ ¬ Nested (st.expr e) := by
  decide +kernel

end Pseudocode
