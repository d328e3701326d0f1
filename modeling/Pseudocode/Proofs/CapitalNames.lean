import Pseudocode.Name

/-! # Names in capitals

Words are capitalised letter by letter, so the name of a routine gets no sign that was not in it before. -/

namespace Pseudocode

namespace Text

private theorem eq_of_ofNat_eq {n : Nat} {x : Char} (h : Char.ofNat n = x) (hx : x ≠ Char.ofNat 0) :
    n = x.toNat := by
  by_cases hn : n.isValidChar
  · have hvalid : Char.ofNat n = Char.ofNatAux n hn := dif_pos hn
    exact congrArg Char.toNat (hvalid.symm.trans h)
  · have hinvalid : Char.ofNat n = ⟨0, .inl (by decide)⟩ := dif_neg hn
    exact absurd (h.symm.trans hinvalid) hx

/-- Slashes, quotes and brackets. -/
def marks : Text := "/\"'()[]\x7b\x7d"

theorem not_mem_upperCase {x c : Char} (hx : x ∈ marks) (hc : c ≠ x) : x ∉ upperCase c := by
  have hall : marks.all (fun x => x.toNat < 128 && x != Char.ofNat 0) = true := by decide
  have hsmall : x.toNat < 128 ∧ x ≠ Char.ofNat 0 := by simpa using List.all_eq_true.mp hall x hx
  unfold upperCase
  split
  · next hascii =>
    have hupper : ∀ n < 128, marks.all (fun x => (Char.ofNat n).toUpper != x || Char.ofNat n == x) = true := by
      decide
    have hsame := List.all_eq_true.mp (hupper c.toNat hascii) x hx
    rw [Char.ofNat_toNat] at hsame
    rw [List.mem_singleton]
    rintro rfl
    rcases Bool.or_eq_true_iff.mp hsame with hne | heq
    · simp at hne
    · exact hc (eq_of_beq heq)
  · next hlarge =>
    split
    · next e he =>
      have hlong : ∀ e ∈ longUpperCases, marks.all (fun x => !(e.2.map Char.ofNat).contains x) = true := by
        decide +kernel
      simpa using List.all_eq_true.mp (hlong e (List.mem_of_find?_eq_some he)) x hx
    · rw [List.mem_singleton]
      intro heq
      have hcode := eq_of_ofNat_eq heq.symm hsmall.2
      cases hrun : caseRuns.findSome? (fun r => r.upper? c.toNat) with
      | none =>
        rw [hrun, Option.getD_none] at hcode
        exact hlarge (hcode ▸ hsmall.1)
      | some n =>
        -- the capitals of a run are above all marks, but for two that stand alone
        have htargets : ∀ r ∈ caseRuns, 127 < r.target ∨ r.first = r.last ∧
            marks.all (fun x => x.toNat != r.target) = true := by
          decide +kernel
        obtain ⟨r, hr, hupper⟩ := List.exists_of_findSome?_eq_some hrun
        rw [hrun, Option.getD_some] at hcode
        unfold CaseRun.upper? at hupper
        split at hupper
        · next hin =>
          have hn := Option.some.inj hupper
          have hx' := hsmall.1
          rcases htargets r hr with htarget | ⟨hsingle, hnone⟩
          · omega
          · have hne : x.toNat ≠ r.target := by simpa using List.all_eq_true.mp hnone x hx
            omega
        · cases hupper

theorem mem_of_mem_pieces {sep c : Char} {s p : Text} (hp : p ∈ pieces sep s) (hc : c ∈ p) :
    c ∈ s := by
  induction s generalizing p with
  | nil => simp_all [pieces]
  | cons d s ih =>
    rw [pieces] at hp
    split at hp
    · rcases List.mem_cons.mp hp with rfl | hp
      · cases hc
      · exact List.mem_cons_of_mem d (ih hp hc)
    · split at hp
      · next q qs hq =>
        rcases List.mem_cons.mp hp with rfl | hp
        · rcases List.mem_cons.mp hc with rfl | hc
          · exact List.mem_cons_self ..
          · exact List.mem_cons_of_mem d (ih (by simp [hq]) hc)
        · exact List.mem_cons_of_mem d (ih (by simp [hq, hp]) hc)
      · obtain rfl := List.mem_singleton.mp hp
        simp_all

end Text

open Text

theorem Name.not_mem_pascalCase {s : Text} {x : Char} (hx : x ∈ marks) (h : x ∉ s) : x ∉ pascalCase s := by
  intro hm
  obtain ⟨p, hp, hm⟩ := List.mem_flatMap.mp hm
  have hfree : x ∉ p := fun hc => h (mem_of_mem_pieces hp hc)
  cases p with
  | nil => cases hm
  | cons c cs =>
    rcases List.mem_append.mp hm with hm | hm
    · exact not_mem_upperCase hx (fun heq => hfree (by simp [heq])) hm
    · exact hfree (List.mem_cons_of_mem c hm)

end Pseudocode
