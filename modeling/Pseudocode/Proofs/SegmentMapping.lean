import Mathlib.Data.List.Forall2
import Pseudocode.Proofs.LiteralGrammar

/-! # Mapping code keeps literals

Code between literals is mapped stretch by stretch, and single quotes may become double quotes on the way. When the
result is read again, its literals begin and end where those of the text did: a body that is put between other
quotes has none of them, a backslash in it still takes the next character with it, and a literal that is not
closed stays the last one. -/

namespace Pseudocode.Text

namespace Literal

variable (doubleQuotes : Bool) (l : Literal)

theorem body_requoted : (l.requoted doubleQuotes).body = l.body := by
  unfold requoted doubleQuoted
  split
  · split <;> rfl
  · rfl

theorem closed_requoted : (l.requoted doubleQuotes).closed = l.closed := by
  unfold requoted
  split
  · exact closed_doubleQuoted l
  · rfl

theorem quote_requoted : (l.requoted doubleQuotes).quote =
    if doubleQuotes = true ∧ l.quote = '\'' ∧ '"' ∉ l.body then '"' else l.quote := by
  cases doubleQuotes with
  | false => simp [requoted]
  | true =>
    by_cases h : l.quote = '\'' ∧ '"' ∉ l.body <;> simp [requoted, doubleQuoted, h]

private theorem requoted_requoted : (l.requoted doubleQuotes).requoted doubleQuotes = l.requoted doubleQuotes := by
  cases doubleQuotes with
  | false => rfl
  | true =>
    by_cases h : l.quote = '\'' ∧ '"' ∉ l.body <;> simp [requoted, doubleQuoted, h]

variable {doubleQuotes l} in
private theorem Written.requoted (h : l.Written) : (l.requoted doubleQuotes).Written := by
  unfold Literal.requoted
  split
  · exact h.sound.doubleQuoted.written
  · exact h

end Literal

/-- Code mapped stretch by stretch, with the literals in the quotes that are asked for. -/
def Segments.map (doubleQuotes : Bool) (f : Text → Text) (t : Segments) : Segments :=
  ⟨f t.lead, t.rest.map fun x => (x.1.requoted doubleQuotes, f x.2)⟩

theorem Segments.text_map (doubleQuotes : Bool) (f : Text → Text) (s : Text) :
    ((segments s).map doubleQuotes f).text = mapCode doubleQuotes f s := by
  simp only [mapCode_eq, mappedRest, Segments.text, Segments.map, restText, List.flatMap_map]

section

variable {f : Text → Text} (hnil : f [] = [])
  (hf : ∀ u, (∀ c ∈ u, isQuote c = false) → ∀ c ∈ f u, isQuote c = false)

include hnil hf

private theorem WrittenRest.map (doubleQuotes : Bool) {rest : List (Literal × Text)} (h : WrittenRest rest) :
    WrittenRest (rest.map fun x => (x.1.requoted doubleQuotes, f x.2)) := by
  induction h with
  | nil => exact .nil
  | closed literal closed code _ ih =>
    exact .closed literal.requoted ((Literal.closed_requoted ..).trans closed) (hf _ code) ih
  | unclosed literal closed =>
    rw [List.map_singleton, hnil]
    exact .unclosed literal.requoted ((Literal.closed_requoted ..).trans closed)

/-- The segments of the result are those of the text, mapped. -/
theorem segments_mapCode (doubleQuotes : Bool) (s : Text) :
    segments (mapCode doubleQuotes f s) = (segments s).map doubleQuotes f := by
  obtain ⟨hwritten, _⟩ := written_iff.mpr (rfl : segments s = segments s)
  exact written_iff.mp ⟨⟨hf _ hwritten.lead, hwritten.rest.map hnil hf doubleQuotes⟩, Segments.text_map ..⟩

end

private theorem mapCode_false_id (s : Text) : mapCode false id s = s := by
  have hmap : (segments s).map false id = segments s := by simp [Segments.map, Literal.requoted]
  rw [← Segments.text_map, hmap]
  exact (text_segments s).symm

private theorem mapCode_id_mapCode_id (doubleQuotes : Bool) (s : Text) :
    mapCode doubleQuotes id (mapCode doubleQuotes id s) = mapCode doubleQuotes id s := by
  have hmap : ((segments s).map doubleQuotes id).map doubleQuotes id = (segments s).map doubleQuotes id := by
    simp [Segments.map, Literal.requoted_requoted]
  have hsegments : segments (mapCode doubleQuotes id s) = (segments s).map doubleQuotes id :=
    segments_mapCode rfl (fun _ h => h) doubleQuotes s
  rw [← Segments.text_map doubleQuotes id (mapCode doubleQuotes id s), hsegments, hmap, Segments.text_map]

/-- A text and its image under a map of code are each written in one way only. The stretches of code of the
image are those of the text, mapped; its literals are those of the text, with the same bodies, each closed or
not as it was, and in the same quotes, unless double quotes are asked for and a literal in single quotes has none
in it. With the identity nothing else changes, and a second time nothing at all. -/
theorem mapCode_maps_segments {f : Text → Text} (hnil : f [] = [])
    (hf : ∀ u, (∀ c ∈ u, isQuote c = false) → ∀ c ∈ f u, isQuote c = false) (doubleQuotes : Bool) (s : Text) :
    (∃ t u : Segments, (∀ t', t'.Written ∧ t'.text = s ↔ t' = t) ∧
      (∀ u', u'.Written ∧ u'.text = mapCode doubleQuotes f s ↔ u' = u) ∧
      u.stretches = t.stretches.map f ∧
      List.Forall₂ (fun l l' => l'.body = l.body ∧ l'.closed = l.closed ∧
          l'.quote = if doubleQuotes = true ∧ l.quote = '\'' ∧ '"' ∉ l.body then '"' else l.quote)
        (t.rest.map Prod.fst) (u.rest.map Prod.fst)) ∧
    mapCode false id s = s ∧
    mapCode doubleQuotes id (mapCode doubleQuotes id s) = mapCode doubleQuotes id s := by
  refine ⟨⟨segments s, (segments s).map doubleQuotes f, ?_, ?_, ?_, ?_⟩, mapCode_false_id s,
    mapCode_id_mapCode_id doubleQuotes s⟩
  · exact fun t' => written_iff.trans eq_comm
  · intro u'
    rw [written_iff, segments_mapCode hnil hf, eq_comm]
  · simp [Segments.stretches, Segments.map, Function.comp_def]
  · rw [Segments.map, List.map_map, List.forall₂_map_left_iff, List.forall₂_map_right_iff, List.forall₂_same]
    exact fun x _ => ⟨Literal.body_requoted .., Literal.closed_requoted .., Literal.quote_requoted ..⟩

/-- Three literals in single quotes: one with an escaped quote, one with double quotes in it, and one that is not
closed and ends with a backslash. White space goes from the code alone. -/
theorem mapCode_maps_segments_single :
    let s : Text := "say( 'it\\'s' + 'a \"b\"' + 'end \\"
    let f : Text → Text := List.filter fun c => !isBlank c
    f [] = [] ∧ (∀ u, (∀ c ∈ u, isQuote c = false) → ∀ c ∈ f u, isQuote c = false) ∧
    mapCode true f s = ("say(\"it\\'s\"+'a \"b\"'+\"end \\" : String) ∧
    ∃ t u : Segments, (t.Written ∧ t.text = s) ∧ (u.Written ∧ u.text = mapCode true f s) ∧
      u.stretches = t.stretches.map f := by
  intro s f
  have hf : ∀ u, (∀ c ∈ u, isQuote c = false) → ∀ c ∈ f u, isQuote c = false :=
    fun u hu c hc => hu c (List.mem_of_mem_filter hc)
  obtain ⟨⟨t, u, ht, hu, hstretches, _⟩, _⟩ := mapCode_maps_segments (f := f) rfl hf true s
  exact ⟨rfl, hf, by decide +kernel, t, u, (ht t).mpr rfl, (hu u).mpr rfl, hstretches⟩

end Pseudocode.Text
