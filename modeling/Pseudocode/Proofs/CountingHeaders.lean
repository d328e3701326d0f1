import Pseudocode.Proofs.CountingLoops
import Pseudocode.Proofs.RuleRuns

/-! # Counting headers with a comparison and an update

A header compares its variable with a bound and updates it after each pass. It becomes a counting loop
whose last value comes from the comparison and whose step comes from the update. The loop takes on the
same values exactly if the comparison points in the direction of the step, provided that each pass changes
the variable by the step. Updates of no known form count as a step of one. -/

namespace Pseudocode

open Text Pattern Arithmetic

/-! ### Comparisons and steps -/

/-- The comparison under which a loop goes on. -/
inductive Comparison where
  | lt
  | le
  | gt
  | ge
  deriving DecidableEq, Repr

namespace Comparison

def text : Comparison → Text
  | lt => "<"
  | le => "<="
  | gt => ">"
  | ge => ">="

def Holds (c : Comparison) (i bound : Int) : Prop :=
  match c with
  | lt => i < bound
  | le => i ≤ bound
  | gt => bound < i
  | ge => bound ≤ i

/-- Whether a loop with this comparison ends above its bound. -/
def isUp : Comparison → Bool
  | lt | le => true
  | gt | ge => false

/-- The last value for which the comparison can hold. -/
def last (c : Comparison) (bound : Int) : Int :=
  match c with
  | lt => bound - 1
  | gt => bound + 1
  | le | ge => bound

end Comparison

private theorem Passes.not_of_kept {goesOn : Int → Prop} {next : Int → Int} {i : Int} {values : List Int}
    (h : Passes goesOn next i values) (hi : goesOn i) (hkept : ∀ j ∈ values, goesOn j → goesOn (next j)) :
    False := by
  induction h with
  | done hstop => exact hstop hi
  | pass hgo _ ih =>
    obtain ⟨hnext, hkept⟩ := List.forall_mem_cons.mp hkept
    exact ih (hnext hgo) hkept

namespace Comparison

section

variable {c : Comparison} {step : Int} (var : Text) (first bound i : Int)

private theorem goesOn_iff_holds (h : c.isUp = true ↔ 0 ≤ step) :
    CountingLoop.GoesOn ⟨var, first, c.last bound, step⟩ i ↔ c.Holds i bound := by
  unfold CountingLoop.GoesOn
  dsimp only
  split <;> cases c <;> simp [Holds, isUp, last] at h ⊢ <;> omega

private theorem goesOn_of_not_holds (h : ¬ (c.isUp = true ↔ 0 ≤ step)) (hi : ¬ c.Holds i bound) :
    CountingLoop.GoesOn ⟨var, first, c.last bound, step⟩ i := by
  unfold CountingLoop.GoesOn
  dsimp only
  split <;> cases c <;> simp [Holds, isUp, last] at h hi ⊢ <;> omega

private theorem holds_add (h : ¬ (c.isUp = true ↔ 0 ≤ step)) (hi : c.Holds i bound) :
    c.Holds (i + step) bound := by
  cases c <;> simp [Holds, isUp] at h hi ⊢ <;> omega

end

theorem runs_iff_of_passes (var : Text) {c : Comparison} {first bound step : Int} {next : Int → Int}
    {values : List Int} (h : Passes (c.Holds · bound) next first values)
    (hnext : ∀ i ∈ values, next i = i + step) :
    CountingLoop.Runs ⟨var, first, c.last bound, step⟩ values ↔ (c.isUp = true ↔ 0 ≤ step) := by
  constructor
  · intro hruns
    by_contra hagainst
    by_cases hfirst : c.Holds first bound
    · exact h.not_of_kept hfirst fun i hi hholds => hnext i hi ▸ holds_add bound i hagainst hholds
    · have hgo := goesOn_of_not_holds var first bound first hagainst hfirst
      cases h with
      | done =>
        cases hruns with
        | done hstop => exact hstop hgo
      | pass hholds => exact hfirst hholds
  · exact fun hdirection => h.congr (fun i => (goesOn_iff_holds var first bound i hdirection).symm) hnext

end Comparison

namespace Braced

/-! ### Updates -/

/-- An update without its white space, and the size of the step that is written for it. -/
inductive StepClause (var : Text) : Text → Int → Prop
  | increment : StepClause var (var ++ "++") 1
  | incrementFirst : StepClause var ("++" ++ var) 1
  | decrement : StepClause var (var ++ "--") (-1)
  | decrementFirst : StepClause var ("--" ++ var) (-1)
  | add {k : Text} {n : Int} (hk : integer? k = some n) : StepClause var (var ++ "+=" ++ k) n
  | sub {k : Text} {n : Nat} (hk : digits? k = some n) : StepClause var (var ++ "-=" ++ k) (-n)
  /-- Any other update counts as an increment. -/
  | other {u : Text} (hunit : u ∉ [var ++ "++", "++" ++ var, var ++ "--", "--" ++ var])
      (hadd : ¬ var ++ "+=".toList <+: u) (hsub : ¬ var ++ "-=".toList <+: u) : StepClause var u 1

private theorem after?_append (lead s : Text) : after? lead (lead ++ s) = some s := by
  simp [after?]

private theorem after?_of_not_prefix {lead s : Text} (h : ¬ lead <+: s) : after? lead s = none := by
  rw [after?, if_neg fun hp => h (List.isPrefixOf_iff_prefix.mp hp)]

theorem loopStep?_of_stepClause {var update : Text} {step : Int} (hvar : IsWord var)
    (h : StepClause var (update.filter fun c => !isBlank c) step) :
    (loopStep? update var).elim (some 1) integer? = some step := by
  obtain ⟨c, cs, rfl⟩ := List.exists_cons_of_ne_nil hvar.1
  have hc := hvar.2 c (by simp)
  have hplus : c ≠ '+' := by
    rintro rfl
    exact absurd hc (by decide)
  have hminus : c ≠ '-' := by
    rintro rfl
    exact absurd hc (by decide)
  unfold loopStep?
  generalize update.filter (fun c => !isBlank c) = u at h
  cases h with
  | increment => simp
  | incrementFirst => simp
  | decrement =>
    rw [if_neg (by simp [hplus]), if_pos (by simp)]
    decide
  | decrementFirst =>
    rw [if_neg (by simp [hminus.symm]), if_pos (by simp)]
    decide
  | add hk =>
    rw [if_neg (by simp [hplus]), if_neg (by simp [hminus]), after?_append]
    exact hk
  | sub hk =>
    rw [if_neg (by simp [hplus]), if_neg (by simp [hminus]),
      after?_of_not_prefix (by simp [List.prefix_append_right_inj]), after?_append]
    simp [integer?, hk]
  | other hunit hadd hsub =>
    rw [if_neg (by simp_all), if_neg (by simp_all), after?_of_not_prefix hadd, after?_of_not_prefix hsub]
    rfl

/-! ### Reading a header -/

/-- A header up to its comparison. -/
def countLead : Pattern :=
  "for" ++ gap ++ "(" ++ gap ++ opt (oneOf ["int", "long", "short", "byte"] ++ gap1) ++ .group 1 name ++ gap
    ++ "=" ++ gap ++ .group 2 (fewest1 (noneOf ";")) ++ gap ++ ";" ++ gap ++ .group 3 name ++ gap

/-- The signs of comparisons in the order in which they are tried. -/
def comparisonSigns : List Text := ["<=", "<", ">=", ">"]

def comparisons : Pattern := oneOf (comparisonSigns.map .text)

theorem text_mem_comparisonSigns (c : Comparison) : c.text ∈ comparisonSigns := by cases c <;> decide

theorem head?_comparison {r : Text} (hr : r ∈ comparisonSigns) (s : Text) :
    (r ++ s).head?.any isBlank = false ∧ (r ++ s).head?.any isWordChar = false := by
  have hall : ∀ r ∈ comparisonSigns, r ≠ [] ∧ r.head?.any isBlank = false ∧ r.head?.any isWordChar = false := by
    decide
  obtain ⟨hne, hhead⟩ := hall r hr
  rwa [List.head?_append_of_ne_nil r hne]

/-- A header after its comparison. -/
def countTail : Pattern :=
  gap ++ .group 5 (fewest1 (noneOf ";")) ++ gap ++ ";" ++ gap ++ .group 6 (.fewest (noneOf ")")) ++ gap ++ ")"
    ++ brace

theorem reads_spaced {b w b' : Text} (hb : ∀ c ∈ b, isBlank c = true) (hb' : ∀ c ∈ b', isBlank c = true) :
    trim (b ++ w ++ b') = trim w ∧
      (b ++ w ++ b').filter (fun c => !isBlank c) = w.filter fun c => !isBlank c := by
  have hnone {b : Text} (hb : ∀ c ∈ b, isBlank c = true) : b.filter (fun c => !isBlank c) = [] := by
    simpa using hb
  refine ⟨by rw [trim_append_right hb', trim_append_left hb], ?_⟩
  rw [List.filter_append, List.filter_append, hnone hb, hnone hb', List.nil_append, List.append_nil]

private theorem reads_countType {s : Text} {g : Groups}
    (h : Reads (opt (oneOf ["int", "long", "short", "byte"] ++ gap1)) s g) :
    g = [] ∧ (s = [] ∨ ∃ t b, s = t ++ b ∧ IsWord t ∧ b ≠ [] ∧ ∀ c ∈ b, isBlank c = true) := by
  rcases reads_either.mp h with h | h
  · obtain ⟨t, b, _, _, rfl, rfl, htype, hgap⟩ := reads_append.mp h
    obtain ⟨hne, hb, rfl⟩ := reads_most1.mp hgap
    let types : List Text := ["int", "long", "short", "byte"]
    obtain ⟨ht, rfl⟩ : t ∈ types ∧ _ := mem_of_reads_oneOf htype
    have hall : ∀ t ∈ types, IsWord t := by decide
    exact ⟨rfl, .inr ⟨t, b, rfl, hall t ht, hne, hb⟩⟩
  · obtain ⟨rfl, rfl⟩ := reads_nothing.mp h
    exact ⟨rfl, .inl rfl⟩

theorem reads_countLead {s : Text} {g : Groups} (h : Reads countLead s g) :
    ∃ b₁ b₂ type v b₃ w a b₄ v' b₅,
      s = "for".toList ++ (b₁ ++ '(' :: (b₂ ++ (type ++ (v ++ (b₃ ++ '=' :: (w ++ ';' :: (b₄ ++
        (v' ++ b₅)))))))) ∧
      g = [(3, v'), (2, a), (1, v)] ∧ trim w = trim a ∧ ';' ∉ w ∧
      (type = [] ∨ ∃ t b, type = t ++ b ∧ IsWord t ∧ b ≠ [] ∧ ∀ c ∈ b, isBlank c = true) ∧
      IsWord v ∧ IsWord v' ∧ ∀ c ∈ b₁ ++ b₂ ++ b₃ ++ b₄ ++ b₅, isBlank c = true := by
  obtain ⟨_, b₅, _, _, rfl, rfl, h₁, hgap₅⟩ := reads_append.mp h
  obtain ⟨hb₅, rfl⟩ := reads_most.mp hgap₅
  obtain ⟨_, v', _, _, rfl, rfl, h₂, hgroup₃⟩ := reads_append.mp h₁
  obtain ⟨_, rfl, hv'⟩ := reads_group.mp hgroup₃
  obtain ⟨_, b₄, _, _, rfl, rfl, h₃, hgap₄⟩ := reads_append.mp h₂
  obtain ⟨hb₄, rfl⟩ := reads_most.mp hgap₄
  obtain ⟨_, _, _, _, rfl, rfl, h₄, hsemicolon⟩ := reads_append.mp h₃
  obtain ⟨rfl, rfl⟩ := reads_text.mp hsemicolon
  obtain ⟨_, b', _, _, rfl, rfl, h₅, hgap'⟩ := reads_append.mp h₄
  obtain ⟨hb', rfl⟩ := reads_most.mp hgap'
  obtain ⟨_, a, _, _, rfl, rfl, h₆, hgroup₂⟩ := reads_append.mp h₅
  obtain ⟨_, rfl, hfirst⟩ := reads_group.mp hgroup₂
  obtain ⟨_, ha, rfl⟩ := reads_most1.mp (reads_fewest1.mp hfirst)
  obtain ⟨_, b, _, _, rfl, rfl, h₇, hgap⟩ := reads_append.mp h₆
  obtain ⟨hb, rfl⟩ := reads_most.mp hgap
  obtain ⟨_, _, _, _, rfl, rfl, h₈, hassign⟩ := reads_append.mp h₇
  obtain ⟨rfl, rfl⟩ := reads_text.mp hassign
  obtain ⟨_, b₃, _, _, rfl, rfl, h₉, hgap₃⟩ := reads_append.mp h₈
  obtain ⟨hb₃, rfl⟩ := reads_most.mp hgap₃
  obtain ⟨_, v, _, _, rfl, rfl, h₁₀, hgroup₁⟩ := reads_append.mp h₉
  obtain ⟨_, rfl, hv⟩ := reads_group.mp hgroup₁
  obtain ⟨_, type, _, gt, rfl, rfl, h₁₁, htype⟩ := reads_append.mp h₁₀
  obtain ⟨_, b₂, _, _, rfl, rfl, h₁₂, hgap₂⟩ := reads_append.mp h₁₁
  obtain ⟨hb₂, rfl⟩ := reads_most.mp hgap₂
  obtain ⟨_, _, _, _, rfl, rfl, h₁₃, hparen⟩ := reads_append.mp h₁₂
  obtain ⟨rfl, rfl⟩ := reads_text.mp hparen
  obtain ⟨_, b₁, _, _, rfl, rfl, hfor, hgap₁⟩ := reads_append.mp h₁₃
  obtain ⟨hb₁, rfl⟩ := reads_most.mp hgap₁
  obtain ⟨rfl, rfl⟩ := reads_text.mp hfor
  obtain ⟨rfl, c, cs, hcs, _, hword⟩ := reads_name hv
  obtain ⟨rfl, c', cs', hcs', _, hword'⟩ := reads_name hv'
  obtain ⟨rfl, hkind⟩ := reads_countType htype
  refine ⟨b₁, b₂, type, v, b₃, b ++ a ++ b', a, b₄, v', b₅, by simp, rfl, (reads_spaced hb hb').1, ?_, hkind,
    ⟨by simp [hcs], hword⟩, ⟨by simp [hcs'], hword'⟩, ?_⟩
  · have hblank {b : Text} (hb : ∀ c ∈ b, isBlank c = true) : ';' ∉ b := fun hc => absurd (hb _ hc) (by decide)
    have ha : ';' ∉ a := fun hc => absurd (ha _ hc) (by decide)
    simp [hblank hb, hblank hb', ha]
  · simp only [List.forall_mem_append]
    exact ⟨⟨⟨⟨hb₁, hb₂⟩, hb₃⟩, hb₄⟩, hb₅⟩

private theorem groups_of_reads_brace {s : Text} {g : Groups} (h : Reads brace s g) : g = [] := by
  obtain ⟨_, _, _, _, rfl, rfl, hgap, hopt⟩ := reads_append.mp h
  obtain ⟨_, rfl⟩ := reads_most.mp hgap
  rcases reads_either.mp hopt with hopt | hopt
  · obtain ⟨_, rfl⟩ := reads_text.mp hopt
    rfl
  · obtain ⟨_, rfl⟩ := reads_nothing.mp hopt
    rfl

theorem reads_countTail {s : Text} {g : Groups} (h : Reads countTail s g) :
    ∃ w q u u' t, s = w ++ ';' :: (u ++ ')' :: t) ∧ g = [(6, u'), (5, q)] ∧ trim w = trim q ∧ ';' ∉ w ∧
      u.filter (fun c => !isBlank c) = u'.filter (fun c => !isBlank c) ∧ ')' ∉ u ∧ ')' ∉ t := by
  have hnot {b : Text} {d : Char} (hb : ∀ c ∈ b, isBlank c = true) (hd : isBlank d = false) : d ∉ b := by
    intro hc
    rw [hb d hc] at hd
    cases hd
  obtain ⟨_, t, _, gt, rfl, rfl, h₁, hbrace⟩ := reads_append.mp h
  obtain ⟨_, _, _, _, rfl, rfl, h₂, hparen⟩ := reads_append.mp h₁
  obtain ⟨rfl, rfl⟩ := reads_text.mp hparen
  obtain ⟨_, b₄, _, _, rfl, rfl, h₃, hgap₄⟩ := reads_append.mp h₂
  obtain ⟨hb₄, rfl⟩ := reads_most.mp hgap₄
  obtain ⟨_, u, _, _, rfl, rfl, h₄, hgroup₆⟩ := reads_append.mp h₃
  obtain ⟨_, rfl, hupdate⟩ := reads_group.mp hgroup₆
  obtain ⟨hu, rfl⟩ := reads_fewest.mp hupdate
  obtain ⟨_, b₃, _, _, rfl, rfl, h₅, hgap₃⟩ := reads_append.mp h₄
  obtain ⟨hb₃, rfl⟩ := reads_most.mp hgap₃
  obtain ⟨_, _, _, _, rfl, rfl, h₆, hsemicolon⟩ := reads_append.mp h₅
  obtain ⟨rfl, rfl⟩ := reads_text.mp hsemicolon
  obtain ⟨_, b₂, _, _, rfl, rfl, h₇, hgap₂⟩ := reads_append.mp h₆
  obtain ⟨hb₂, rfl⟩ := reads_most.mp hgap₂
  obtain ⟨b₁, q, _, _, rfl, rfl, hgap₁, hgroup₅⟩ := reads_append.mp h₇
  obtain ⟨hb₁, rfl⟩ := reads_most.mp hgap₁
  obtain ⟨_, rfl, hbound⟩ := reads_group.mp hgroup₅
  obtain ⟨_, hq, rfl⟩ := reads_most1.mp (reads_fewest1.mp hbound)
  obtain rfl := groups_of_reads_brace hbrace
  refine ⟨b₁ ++ q ++ b₂, q, b₃ ++ u ++ b₄, u, t, by simp, rfl, (reads_spaced hb₁ hb₂).1, ?_,
    (reads_spaced hb₃ hb₄).2, ?_, hbrace.avoids (by decide)⟩
  · have hq : ';' ∉ q := fun hc => absurd (hq _ hc) (by decide)
    simp [hnot hb₁ (by decide : isBlank ';' = false), hnot hb₂ (by decide : isBlank ';' = false), hq]
  · have hu : ')' ∉ u := fun hc => absurd (hu _ hc) (by decide)
    simp [hnot hb₃ (by decide : isBlank ')' = false), hnot hb₄ (by decide : isBlank ')' = false), hu]

/-! ### Headers as they are written -/

/-- A header that counts a variable. The first value, the bound and the update stand with the white space
around them. -/
structure CountHeader where
  var : Text
  first : Text
  comparison : Comparison
  bound : Text
  update : Text
  gap₁ : Text
  gap₂ : Text
  gap₃ : Text
  gap₄ : Text
  gap₅ : Text
  gap₆ : Text
  gap₇ : Text
  hasBrace : Bool
  fits : name.fits var = true
  apart : gap₃ ≠ []
  blank : ∀ c ∈ gap₁ ++ gap₂ ++ gap₃ ++ gap₄ ++ gap₅ ++ gap₆ ++ gap₇, isBlank c = true

namespace CountHeader

/-- What stands before the comparison. -/
def lead (h : CountHeader) : Text :=
  "for" ++ (h.gap₁ ++ '(' :: (h.gap₂ ++ ("int" ++ (h.gap₃ ++ (h.var ++ (h.gap₄ ++ '=' :: (h.first ++ ';' ::
    (h.gap₅ ++ (h.var ++ h.gap₆)))))))))

/-- What stands after the comparison. -/
def tail (h : CountHeader) : Text :=
  h.bound ++ ';' :: (h.update ++ ')' :: (h.gap₇ ++ if h.hasBrace then ['{'] else []))

def text (h : CountHeader) : Text := h.lead ++ (h.comparison.text ++ h.tail)

end CountHeader

theorem head?_assign {b : Text} (hb : ∀ c ∈ b, isBlank c = true) (s : Text) :
    (b ++ '=' :: s).head?.any isWordChar = false := head?_blank_append hb fun _ => rfl

private theorem eq_of_countType {b₂ type v b₃ g₂ g₃ var s t : Text}
    (htype : type = [] ∨ ∃ t b, type = t ++ b ∧ IsWord t ∧ b ≠ [] ∧ ∀ c ∈ b, isBlank c = true)
    (hv : IsWord v) (hvar : IsWord var) (hb₂ : ∀ c ∈ b₂, isBlank c = true) (hb₃ : ∀ c ∈ b₃, isBlank c = true)
    (hg₂ : ∀ c ∈ g₂, isBlank c = true) (hg₃ : ∀ c ∈ g₃, isBlank c = true) (hne : g₃ ≠ [])
    (heq : b₂ ++ (type ++ (v ++ (b₃ ++ '=' :: s))) = g₂ ++ ("int".toList ++ (g₃ ++ (var ++ t)))) :
    v ++ (b₃ ++ '=' :: s) = var ++ t := by
  have hint : IsWord "int".toList := by decide
  rcases htype with rfl | ⟨t, b, rfl, ht, hbne, hb⟩
  · obtain ⟨_, hword⟩ := eq_of_runs hb₂ hg₂ (head?_word_append hv _) (head?_word_append hint _) heq
    obtain ⟨_, hgap⟩ := eq_of_runs hv.2 hint.2 (head?_assign hb₃ _)
      (head?_blank_append hg₃ fun hnil => absurd hnil hne) hword
    obtain ⟨_, hbad⟩ := eq_of_runs hb₃ hg₃ (by rfl) (head?_word_append hvar _) hgap
    obtain ⟨c, cs, hcs⟩ := List.exists_cons_of_ne_nil hvar.1
    rw [hcs, List.cons_append] at hbad
    exact absurd (hvar.2 c (by simp [hcs])) ((List.cons.inj hbad).1 ▸ by decide)
  · rw [List.append_assoc] at heq
    obtain ⟨_, hword⟩ := eq_of_runs hb₂ hg₂ (head?_word_append ht _) (head?_word_append hint _) heq
    obtain ⟨_, hgap⟩ := eq_of_runs ht.2 hint.2 (head?_blank_append hb fun hnil => absurd hnil hbne)
      (head?_blank_append hg₃ fun hnil => absurd hnil hne) hword
    exact (eq_of_runs hb hg₃ (head?_word_append hv _) (head?_word_append hvar _) hgap).2

section

variable (h : CountHeader) {a : Int} (ha : integer? (trim h.first) = some a)

include ha

theorem eq_of_reads_countLead {s rest : Text} {g : Groups} (hs : Reads countLead s g)
    (hrest : rest.head?.any isBlank = false ∧ rest.head?.any isWordChar = false) (heq : s ++ rest = h.text) :
    ∃ w, g = [(3, h.var), (2, w), (1, h.var)] ∧ trim h.first = trim w ∧
      rest = h.comparison.text ++ h.tail := by
  obtain ⟨b₁, b₂, type, v, b₃, w, a', b₄, v', b₅, rfl, rfl, htrim, hw, htype, hv, hv', hb⟩ := reads_countLead hs
  have hblank := h.blank
  simp only [List.forall_mem_append] at hb hblank
  obtain ⟨⟨⟨⟨hb₁, hb₂⟩, hb₃⟩, hb₄⟩, hb₅⟩ := hb
  obtain ⟨⟨⟨⟨⟨⟨hg₁, hg₂⟩, hg₃⟩, hg₄⟩, hg₅⟩, hg₆⟩, _⟩ := hblank
  have hvar : IsWord h.var := isWordChar_of_fits h.fits
  have hfirst : ';' ∉ h.first := fun hc => by
    rcases isBlank_or_isNumeric ha hc with hc | hc <;> exact absurd hc (by decide)
  have hcmp := head?_comparison (text_mem_comparisonSigns h.comparison)
  have htext : "for".toList ++ (b₁ ++ '(' :: (b₂ ++ (type ++ (v ++ (b₃ ++ '=' :: (w ++ ';' :: (b₄ ++ (v' ++
      (b₅ ++ rest))))))))) =
      "for".toList ++ (h.gap₁ ++ '(' :: (h.gap₂ ++ ("int".toList ++ (h.gap₃ ++ (h.var ++ (h.gap₄ ++ '=' ::
        (h.first ++ ';' :: (h.gap₅ ++ (h.var ++ (h.gap₆ ++ (h.comparison.text ++ h.tail))))))))))) := by
    simpa [CountHeader.text, CountHeader.lead] using heq
  obtain ⟨_, _, hparen⟩ := eq_of_runs_cons hb₁ hg₁ (by decide) (by decide) (List.append_cancel_left htext)
  have hafter := eq_of_countType htype hv hvar hb₂ hb₃ hg₂ hg₃ h.apart hparen
  obtain ⟨rfl, hassigned⟩ := eq_of_runs hv.2 hvar.2 (head?_assign hb₃ _) (head?_assign hg₄ _) hafter
  obtain ⟨_, _, hvalue⟩ := eq_of_runs_cons hb₃ hg₄ (by decide) (by decide) hassigned
  obtain ⟨rfl, hcompared⟩ := eq_of_first hw hfirst hvalue
  obtain ⟨_, hword⟩ := eq_of_runs hb₄ hg₅ (head?_word_append hv' _) (head?_word_append hvar _) hcompared
  obtain ⟨rfl, hgap⟩ := eq_of_runs hv'.2 hvar.2 (head?_blank_append hb₅ fun _ => hrest.2)
    (head?_blank_append hg₆ fun _ => (hcmp _).2) hword
  exact ⟨a', rfl, htrim, (eq_of_runs hb₅ hg₆ hrest.1 (hcmp _).1 hgap).2⟩

end

/-! ### The match of a header -/

theorem matchThen_comparisons {α : Type} {k : Groups → Cursor → Option α} {g : Groups} {seen : Text}
    (c : Comparison) {t : Text} (ht : t.head? ≠ some '=')
    (hk : (k ((4, c.text) :: g) ⟨c.text.reverse ++ seen, t⟩).isSome = true) :
    (Pattern.group 4 comparisons).matchThen k g ⟨seen, c.text ++ t⟩ =
      k ((4, c.text) :: g) ⟨c.text.reverse ++ seen, t⟩ := by
  obtain ⟨r, hr⟩ := Option.isSome_iff_exists.mp hk
  rw [hr]
  have hprefix : ¬ ['='] <+: t := by
    rintro ⟨u, rfl⟩
    exact ht rfl
  have hlength : t.length + 1 + 1 - t.length = 2 := by omega
  cases c <;> simp [Comparison.text] at hr <;>
    simp [comparisons, comparisonSigns, oneOf, matchThen, after?, Comparison.text, hprefix, hlength, hr]

/-- A match is complete at the end of its text. -/
def atEnd (s : Text) (g : Groups) (c : Cursor) : Option Match :=
  if c.rest.isEmpty then some ⟨[], s, g⟩ else none

theorem blind_atEnd (s : Text) : Blind (atEnd s) := by
  intro g g' c h
  unfold atEnd at h ⊢
  split at h
  · next hempty => rw [if_pos hempty, Option.isSome_some]
  · cases h

theorem whole?_countPattern (s : Text) :
    countPattern.whole? s =
      countLead.matchThen ((Pattern.group 4 comparisons).matchThen (countTail.matchThen (atEnd s))) [] ⟨[], s⟩ :=
  rfl

theorem exists_of_matchThen_countTail {s t seen : Text} {g : Groups} {m : Match}
    (h : countTail.matchThen (atEnd s) g ⟨seen, t⟩ = some m) :
    ∃ g', Reads countTail t g' ∧ m.groups = g' ++ g := by
  obtain ⟨t', g', rest, ht, hway, hk⟩ := handsOver_of_matchThen h
  unfold atEnd at hk
  split at hk
  · next hempty =>
    obtain rfl := Option.some.inj hk
    obtain rfl : rest = [] := by simpa using hempty
    obtain rfl : t = t' := by simpa using ht
    exact ⟨g', hway.reads, rfl⟩
  · cases hk

theorem exists_of_whole?_countPattern {s : Text} {m : Match} (h : countPattern.whole? s = some m) :
    ∃ s₁ g₁ r s₂, s = s₁ ++ (r ++ s₂) ∧ Reads countLead s₁ g₁ ∧ r ∈ comparisonSigns ∧
      (∃ g₂, Reads countTail s₂ g₂) ∧
      (Pattern.group 4 comparisons).matchThen (countTail.matchThen (atEnd s)) g₁ ⟨s₁.reverse, r ++ s₂⟩ =
        some m := by
  rw [whole?_countPattern] at h
  obtain ⟨s₁, g₁, rest, hs, hway, hk⟩ := handsOver_of_matchThen h
  rw [List.append_nil, List.append_nil] at hk
  obtain ⟨r, g, s₂, hrest, hway', hk'⟩ := handsOver_of_matchThen hk
  obtain ⟨g₂, hg₂, _⟩ := exists_of_matchThen_countTail hk'
  obtain ⟨g', rfl, hr⟩ := reads_group.mp hway'.reads
  obtain rfl : rest = r ++ s₂ := hrest
  exact ⟨s₁, g₁, r, s₂, hs, hway.reads, (mem_of_reads_oneOf hr).1, ⟨g₂, hg₂⟩, hk⟩

section

variable (h : CountHeader) {a b : Int} (ha : integer? (trim h.first) = some a)
  (hb : integer? (trim h.bound) = some b)

/-- The first value and the bound have no signs of their own. -/
theorem plain_of_integer {s : Text} {n : Int} (hs : integer? (trim s) = some n) :
    s ≠ [] ∧ (∀ c ∈ s, noneOf ";" c = true) ∧ '=' ∉ s ∧ ';' ∉ s := by
  have hsemicolon : ';' ∉ s := notMem_of_integer? hs (by decide)
  have hne : s ≠ [] := by
    rintro rfl
    exact (isNumeric_of_integer? hs).1 rfl
  refine ⟨hne, fun c hc => ?_, notMem_of_integer? hs (by decide), hsemicolon⟩
  have hother : c ≠ ';' := fun heq => hsemicolon (heq ▸ hc)
  simpa [noneOf] using hother

include ha in
private theorem reads_lead : Reads countLead h.lead [(3, h.var), (2, h.first), (1, h.var)] := by
  have hname := reads_name_of_fits h.fits
  have hblank := h.blank
  simp only [List.forall_mem_append] at hblank
  obtain ⟨⟨⟨⟨⟨⟨hg₁, hg₂⟩, hg₃⟩, hg₄⟩, hg₅⟩, hg₆⟩, _⟩ := hblank
  obtain ⟨hne, hfirst, _⟩ := plain_of_integer ha
  have hnil : ∀ c ∈ ([] : Text), isBlank c = true := List.forall_mem_nil _
  have htype : Reads (opt (oneOf ["int", "long", "short", "byte"] ++ gap1)) ("int".toList ++ h.gap₃) [] :=
    .left _ (.seq (.left _ (.text _)) (reads_most1.mpr ⟨h.apart, hg₃, rfl⟩))
  have hseq : Reads countLead ("for".toList ++ h.gap₁ ++ "(".toList ++ h.gap₂ ++ ("int".toList ++ h.gap₃) ++ h.var
      ++ h.gap₄ ++ "=".toList ++ [] ++ h.first ++ [] ++ ";".toList ++ h.gap₅ ++ h.var ++ h.gap₆)
      [(3, h.var), (2, h.first), (1, h.var)] :=
    .seq (.seq (.seq (.seq (.seq (.seq (.seq (.seq (.seq (.seq (.seq (.seq (.seq (.seq (.text _) (.most hg₁))
      (.text _)) (.most hg₂)) htype) (.group 1 hname)) (.most hg₄)) (.text _)) (.most hnil))
      (.group 2 (reads_fewest1.mpr (reads_most1.mpr ⟨hne, hfirst, rfl⟩)))) (.most hnil)) (.text _)) (.most hg₅))
      (.group 3 hname)) (.most hg₆)
  simpa [CountHeader.lead] using hseq

include hb in
private theorem reads_tail (hupdate : ')' ∉ h.update) : Reads countTail h.tail [(6, h.update), (5, h.bound)] := by
  obtain ⟨hne, hbound, _⟩ := plain_of_integer hb
  have hg₇ : ∀ c ∈ h.gap₇, isBlank c = true := fun c hc => h.blank c (List.mem_append_right _ hc)
  have hnil : ∀ c ∈ ([] : Text), isBlank c = true := List.forall_mem_nil _
  have hplain : ∀ c ∈ h.update, noneOf ")" c = true := fun c hc => by
    have hne : c ≠ ')' := by
      rintro rfl
      exact hupdate hc
    simpa [noneOf] using hne
  have hbrace : Reads brace (h.gap₇ ++ if h.hasBrace then ['{'] else []) [] := by
    have hopt : Reads (opt "\x7b") (if h.hasBrace then ['{'] else []) [] := by
      cases h.hasBrace
      · exact .right _ .nothing
      · exact .left _ (.text _)
    exact Reads.seq (.most hg₇) hopt
  have hseq : Reads countTail ([] ++ h.bound ++ [] ++ ";".toList ++ [] ++ h.update ++ [] ++ ")".toList ++
      (h.gap₇ ++ if h.hasBrace then ['{'] else [])) [(6, h.update), (5, h.bound)] :=
    .seq (.seq (.seq (.seq (.seq (.seq (.seq (.seq (.most hnil)
      (.group 5 (reads_fewest1.mpr (reads_most1.mpr ⟨hne, hbound, rfl⟩)))) (.most hnil)) (.text _)) (.most hnil))
      (.group 6 (.fewest hplain))) (.most hnil)) (.text _)) hbrace
  simpa [CountHeader.tail] using hseq

include ha hb

theorem exists_match_of_countHeader (hupdate : ')' ∉ h.update) :
    ∃ m first bound update, countPattern.whole? h.text = some m ∧
      m.groups = [(6, update), (5, bound), (4, h.comparison.text), (3, h.var), (2, first), (1, h.var)] ∧
      trim h.first = trim first ∧ trim h.bound = trim bound ∧
      h.update.filter (fun c => !isBlank c) = update.filter fun c => !isBlank c := by
  have htail := (reads_tail h hb hupdate).way rfl
  obtain ⟨hne, _, hbound⟩ := plain_of_integer hb
  have hhead : h.tail.head? ≠ some '=' := by
    obtain ⟨c, cs, hcs⟩ := List.exists_cons_of_ne_nil hne
    intro hhead
    rw [CountHeader.tail, hcs] at hhead
    exact hbound.1 (by simpa [hcs] using .inl (Option.some.inj hhead).symm)
  -- whatever has been captured before, the comparison is the one of the header
  have hcomparison (g : Groups) (seen : Text) : ∃ m,
      (Pattern.group 4 comparisons).matchThen (countTail.matchThen (atEnd h.text)) g
        ⟨seen, h.comparison.text ++ h.tail⟩ = some m ∧
      countTail.matchThen (atEnd h.text) ((4, h.comparison.text) :: g)
        ⟨h.comparison.text.reverse ++ seen, h.tail⟩ = some m := by
    have hsome := @reaches countTail _ _ (blind_atEnd h.text) (h.comparison.text.reverse ++ seen) h.tail [] _
      ((4, h.comparison.text) :: g) (htail _ _) rfl
    rw [List.append_nil] at hsome
    obtain ⟨m, hm⟩ := Option.isSome_iff_exists.mp hsome
    exact ⟨m, (matchThen_comparisons h.comparison hhead hsome).trans hm, hm⟩
  obtain ⟨m, hm⟩ : ∃ m, countPattern.whole? h.text = some m := by
    obtain ⟨m, hm, _⟩ := hcomparison [] (h.lead.reverse ++ [])
    rw [whole?_countPattern]
    exact Option.isSome_iff_exists.mp (reaches countLead
      (((blind_atEnd h.text).matchThen countTail).matchThen (.group 4 comparisons))
      ((reads_lead h ha).way rfl [] _) (Option.isSome_iff_exists.mpr ⟨m, hm⟩))
  obtain ⟨s₁, g₁, r, s₂, hs, hlead, hr, _, hk⟩ := exists_of_whole?_countPattern hm
  obtain ⟨first, rfl, hfirst, hrest⟩ := eq_of_reads_countLead h ha hlead (head?_comparison hr s₂) hs.symm
  rw [hrest] at hk
  obtain ⟨m', hm', htailed⟩ := hcomparison [(3, h.var), (2, first), (1, h.var)] s₁.reverse
  obtain rfl : m' = m := Option.some.inj (hm'.symm.trans hk)
  obtain ⟨g₂, hg₂, hgroups⟩ := exists_of_matchThen_countTail htailed
  obtain ⟨w, bound, u, update, t, htext, rfl, htrim, hw, hfilter, hu, _⟩ := reads_countTail hg₂
  obtain ⟨rfl, hupdated⟩ := eq_of_first (hbound.2) hw htext
  obtain ⟨rfl, _⟩ := eq_of_first hupdate hu hupdated
  exact ⟨m', first, bound, update, hm, hgroups, hfirst, htrim, hfilter⟩

private theorem whole?_eq_none_of_paren (hupdate : ')' ∈ h.update) : countPattern.whole? h.text = none := by
  cases hm : countPattern.whole? h.text with
  | none => rfl
  | some m =>
    obtain ⟨s₁, g₁, r, s₂, hs, hlead, hr, ⟨g₂, htail⟩, _⟩ := exists_of_whole?_countPattern hm
    obtain ⟨_, _, _, hrest⟩ := eq_of_reads_countLead h ha hlead (head?_comparison hr s₂) hs.symm
    obtain ⟨w, _, u, _, t, rfl, _, _, hw, _, hu, ht⟩ := reads_countTail htail
    obtain ⟨_, _, hbound⟩ := plain_of_integer hb
    have hsign {r : Text} (hr : r ∈ comparisonSigns) : ';' ∉ r := by
      have hall : ∀ r ∈ comparisonSigns, ';' ∉ r := by decide
      exact hall r hr
    -- both semicolons are those of the header, so the update has to end at its first parenthesis
    have hsemicolon : (r ++ w) ++ ';' :: (u ++ ')' :: t) = (h.comparison.text ++ h.bound) ++
        ';' :: (h.update ++ ')' :: (h.gap₇ ++ if h.hasBrace then ['{'] else [])) := by
      simpa [CountHeader.tail] using hrest
    obtain ⟨_, hupdated⟩ := eq_of_first (by simp [hsign hr, hw])
      (by simp [hsign (text_mem_comparisonSigns _), hbound.2]) hsemicolon
    have hcount := congrArg (List.count ')') hupdated
    have hpos := List.count_pos_iff.mpr hupdate
    simp only [List.count_append, List.count_cons_self, List.count_eq_zero_of_not_mem hu,
      List.count_eq_zero_of_not_mem ht] at hcount
    omega

end

/-! ### What is written -/

private theorem integer?_lastValue {s : Text} {b : Int} (c : Comparison) (hs : integer? s = some b)
    (hlow : -(signedLimit : Int) ≤ b - 1) (hhigh : b + 1 < signedLimit) :
    integer? (lastValue c.text s) = some (c.last b) := by
  cases c with
  | lt => exact integer?_offsetBound hs (by omega) (by omega)
  | le => exact hs
  | gt => exact integer?_offsetBound hs (by omega) (by omega)
  | ge => exact hs

/-- Under the Cambridge dialect, a header that counts an integer variable is left alone if its update has a
parenthesis. Otherwise it becomes the header of a counting loop over the variable. Whatever the update
does, as long as each pass changes the variable by the step that is written for the update, the counting
loop runs through the same values exactly if the comparison points in the direction of that step. -/
theorem count_loops_keep_values {cx : Context} (hst : cx.style = .cambridge) (h : CountHeader) {a b : Int}
    (ha : integer? (trim h.first) = some a) (hb : integer? (trim h.bound) = some b)
    (hlow : -(signedLimit : Int) ≤ b - 1) (hhigh : b + 1 < signedLimit) :
    (')' ∈ h.update → countRule cx h.text = none) ∧
    (')' ∉ h.update → ∀ step, StepClause h.var (h.update.filter fun c => !isBlank c) step →
      ∃ header loop,
        countRule cx h.text =
          some ((cx.withNotes (cx.notes.addType h.var DataType.integer.name)).opens [cx.line header]
            (.loop h.var)) ∧
        CountingLoop.ofHeader? header = some loop ∧ loop.var = h.var ∧
        ∀ next values, Passes (h.comparison.Holds · b) next a values → (∀ i ∈ values, next i = i + step) →
          (loop.Runs values ↔ (h.comparison.isUp = true ↔ 0 ≤ step))) := by
  constructor
  · intro hparen
    rw [computes_countRule.apply_eq, countOutcome?, whole?_eq_none_of_paren h ha hb hparen]
    rfl
  · intro hparen step hstep
    obtain ⟨m, first, bound, update, hm, hgroups, hfirst, hbound, hupdate⟩ :=
      exists_match_of_countHeader h ha hb hparen
    rw [hfirst] at ha
    rw [hbound] at hb
    rw [hupdate] at hstep
    have hvar := isWordChar_of_fits h.fits
    have hheader := CountingLoop.ofHeader?_forHeader hvar ha (integer?_lastValue h.comparison hb hlow hhigh)
      (loopStep?_of_stepClause hvar hstep)
    rw [← Setting.expr_of_integer? (d := .cambridge) hst ha, ← Setting.expr_of_integer? (d := .cambridge) hst hb,
      ← hst] at hheader
    refine ⟨_, _, ?_, hheader, rfl, fun next values hpasses hnext =>
      Comparison.runs_iff_of_passes h.var hpasses hnext⟩
    have hgroup (i : Nat) : m.group i = ([(6, update), (5, bound), (4, h.comparison.text), (3, h.var),
        (2, first), (1, h.var)].lookup i).getD [] := by
      rw [Match.group, Match.group?, hgroups]
    have hvar₁ : m.group 1 = h.var := hgroup 1
    have hvar₃ : m.group 3 = h.var := hgroup 3
    simp only [computes_countRule.apply_eq, countOutcome?, hm, Option.bind_eq_bind, Option.bind_some, hvar₁,
      hvar₃, hgroup 2, hgroup 4, hgroup 5, hgroup 6]
    rfl

/-- A loop that goes down by three, as words of 32 bits are counted. -/
theorem count_loops_keep_values_down :
    let cx : Context :=
      { style := .cambridge, convention := .braces, symbols := {}, blocks := [], written := 0, indent := [] }
    let next : Int → Int := fun i => (i - 3).bmod 4294967296
    Passes (Comparison.ge.Holds · 0) next 10 [10, 7, 4, 1] ∧ ∃ header loop,
      countRule cx "for (int i = 10; i >= 0; i -= 3) \x7b" =
        some ((cx.withNotes (cx.notes.addType "i" DataType.integer.name)).opens [cx.line header] (.loop "i")) ∧
      CountingLoop.ofHeader? header = some loop ∧ loop.Runs [10, 7, 4, 1] := by
  intro cx next
  have hpasses : Passes (Comparison.ge.Holds · 0) next 10 [10, 7, 4, 1] := by
    simp only [Passes.cons_iff, Passes.nil_iff, Comparison.Holds, next]
    decide
  let h : CountHeader :=
    { var := "i", first := " 10", comparison := .ge, bound := " 0", update := " i -= 3"
      gap₁ := " ", gap₂ := [], gap₃ := " ", gap₄ := " ", gap₅ := " ", gap₆ := " ", gap₇ := " ", hasBrace := true
      fits := by decide, apart := by decide, blank := List.all_eq_true.mp (by decide) }
  have hstep : StepClause h.var (h.update.filter fun c => !isBlank c) (-(3 : Nat)) :=
    .sub (k := "3") (by decide)
  obtain ⟨header, loop, hrule, hheader, _, hruns⟩ :=
    (@count_loops_keep_values cx rfl h 10 0 (by decide) (by decide) (by decide) (by decide)).2 (by decide) _
      hstep
  refine ⟨hpasses, header, loop, hrule, hheader, (hruns next _ hpasses ?_).mpr (by decide)⟩
  decide

/-- An update of another form counts as an increment: the values of the header are one after another, not
the powers of two. -/
theorem doubling_taken_for_increment :
    let cx : Context :=
      { style := .cambridge, convention := .braces, symbols := {}, blocks := [], written := 0, indent := [] }
    let header : Text := "FOR i ← 1 TO 99"
    countRule cx "for (int i = 1; i < 100; i *= 2) \x7b" =
        some ((cx.withNotes (cx.notes.addType "i" DataType.integer.name)).opens [cx.line header] (.loop "i")) ∧
      Passes (Comparison.lt.Holds · 100) (· * 2) 1 [1, 2, 4, 8, 16, 32, 64] ∧
      ∃ loop, CountingLoop.ofHeader? header = some loop ∧ ¬ loop.Runs [1, 2, 4, 8, 16, 32, 64] := by
  intro cx header
  refine ⟨by decide +kernel, by simp [Comparison.Holds], ⟨"i", 1, 99, 1⟩, by decide, ?_⟩
  simp [CountingLoop.Runs]

end Braced

end Pseudocode
