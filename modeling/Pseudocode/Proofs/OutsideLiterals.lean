import Pseudocode.Proofs.SegmentMapping

/-! # What stands outside literals

The grammar of literals marks each character of a text as standing outside literals or inside one. Comments,
brackets, separators and assignments are looked for by scans of their own. Each of them finds the first place,
or all places, that the marks describe. -/

namespace Pseudocode.Text

/-! ### Marks -/

/-- The characters of a text, each with whether it stands outside literals. -/
def Segments.marked (t : Segments) : List (Char × Bool) :=
  t.lead.map (·, true) ++ t.rest.flatMap fun x => x.1.text.map (·, false) ++ x.2.map (·, true)

/-- The marks that a scan gives, from a mode on. -/
def marksFrom (m : Mode) (s : Text) : List (Char × Bool) :=
  (rolesFrom m s).map fun x => (x.1, decide (x.2 = .code))

@[simp] theorem marksFrom_nil (m : Mode) : marksFrom m [] = [] := rfl

theorem marksFrom_cons (m : Mode) (c : Char) (s : Text) :
    marksFrom m (c :: s) = (c, decide (m.role c = .code)) :: marksFrom (m.next c) s := rfl

theorem marksFrom_append (m : Mode) (s t : Text) :
    marksFrom m (s ++ t) = marksFrom m s ++ marksFrom (m.after s) t := by
  rw [marksFrom, rolesFrom_append, List.map_append]
  rfl

theorem map_fst_marksFrom (m : Mode) (s : Text) : (marksFrom m s).map Prod.fst = s := by
  rw [marksFrom, List.map_map]
  exact map_fst_rolesFrom m s

theorem marksFrom_of_no_quote {u : Text} (h : ∀ c ∈ u, isQuote c = false) : marksFrom .code u = u.map (·, true) := by
  rw [marksFrom, rolesFrom_of_no_quote h, List.map_map]
  rfl

theorem Literal.Sound.marksFrom_text {l : Literal} (h : l.Sound) : marksFrom .code l.text = l.text.map (·, false) := by
  have hmarks : marksFrom .code l.text = (rolesFrom .code l.text).map fun x => (x.1, false) :=
    List.map_congr_left fun x hx => by simp [h.role_ne_code x hx]
  conv_rhs => rw [← map_fst_rolesFrom .code l.text, List.map_map]
  exact hmarks

private theorem marksFrom_restText {rest : List (Literal × Text)} (h : WrittenRest rest) :
    marksFrom .code (restText rest) = rest.flatMap fun x => x.1.text.map (·, false) ++ x.2.map (·, true) := by
  induction h with
  | nil => rfl
  | @closed l u xs literal closed code _ ih =>
    have htext : restText ((l, u) :: xs) = l.text ++ (u ++ restText xs) := by simp [restText]
    rw [htext, marksFrom_append, literal.sound.after_text closed, literal.sound.marksFrom_text, marksFrom_append,
      after_of_no_quote code, marksFrom_of_no_quote code, ih, List.flatMap_cons, List.append_assoc]
  | @unclosed l literal closed =>
    have htext : restText [(l, [])] = l.text := by simp [restText]
    rw [htext, literal.sound.marksFrom_text]
    simp

/-- The marks of the scan are those of the grammar. -/
theorem marked_segments (s : Text) : (segments s).marked = marksFrom .code s := by
  obtain ⟨hwritten, htext⟩ := written_iff.mpr (rfl : segments s = segments s)
  conv_rhs => rw [← htext]
  rw [Segments.text, marksFrom_append, after_of_no_quote hwritten.lead, marksFrom_of_no_quote hwritten.lead,
    marksFrom_restText hwritten.rest]
  rfl

/-! ### Brackets -/

/-- The characters outside literals, in order. -/
def outside (x : List (Char × Bool)) : Text := (x.filter Prod.snd).map Prod.fst

private theorem outside_cons (c : Char) (b : Bool) (x : List (Char × Bool)) :
    outside ((c, b) :: x) = if b then c :: outside x else outside x := by
  cases b <;> rfl

theorem outside_marksFrom (s : Text) : outside (marksFrom .code s) = unquoted s := by
  rw [outside, marksFrom, List.filter_map, List.map_map]
  rfl

theorem flatten_stretches (s : Text) : (segments s).stretches.flatten = outside (marksFrom .code s) := by
  rw [outside_marksFrom, unquoted_eq_segments, Segments.stretches, List.flatten_cons, List.flatMap_def]

/-- How many more brackets open than close. -/
def net (braces : Bool) (s : Text) : Int :=
  ((s.count '(' + s.count '[' : Nat) : Int) - ((s.count ')' + s.count ']' : Nat) : Int)
    + if braces then (s.count '\x7b' : Int) - s.count '\x7d' else 0

@[simp] theorem net_nil (braces : Bool) : net braces [] = 0 := by cases braces <;> rfl

theorem net_cons (braces : Bool) (c : Char) (s : Text) : net braces (c :: s) =
    (if braces || (c != '\x7b' && c != '\x7d') then bracketWeight c else 0) + net braces s := by
  by_cases hbracket : c ∈ ['(', '[', '\x7b', ')', ']', '\x7d']
  · simp only [List.mem_cons, List.not_mem_nil, or_false] at hbracket
    rcases hbracket with rfl | rfl | rfl | rfl | rfl | rfl <;> cases braces <;>
      simp [net, bracketWeight] <;> omega
  · simp only [List.mem_cons, List.not_mem_nil, or_false, not_or] at hbracket
    simp [net, bracketWeight, hbracket]

theorem bracketBalance_eq_net (braces : Bool) (s : Text) : bracketBalance braces s = net braces (unquoted s) := by
  unfold bracketBalance
  induction unquoted s with
  | nil => simp
  | cons c u ih =>
    rw [net_cons, ← ih, List.filter_cons]
    split <;> simp

/-- Of the bracket that a character is, the scans and the marks take the same account. -/
theorem net_outside_cons (m : Mode) (c : Char) (x : List (Char × Bool)) :
    net true (outside ((c, decide (m.role c = .code)) :: x)) = m.weight c + net true (outside x) := by
  rw [outside_cons, Mode.weight]
  by_cases hrole : m.role c = .code
  · simp [hrole, net_cons]
  · simp [hrole]

/-! ### First places -/

/-- What is found at the first place with a property, or else what stands for nothing. -/
inductive AtFirst {α : Type} (p : Nat → Prop) (found : Nat → α) (missing : α) : α → Prop
  | first {i : Nat} (here : p i) (before : ∀ j < i, ¬ p j) : AtFirst p found missing (found i)
  | nowhere (none : ∀ i, ¬ p i) : AtFirst p found missing missing

namespace AtFirst

variable {α β : Type} {p q : Nat → Prop} {found : Nat → α} {missing r : α}

theorem map (h : AtFirst p found missing r) (g : α → β) : AtFirst p (fun i => g (found i)) (g missing) (g r) := by
  cases h with
  | @first i here before => exact @first _ p (fun i => g (found i)) (g missing) i here before
  | nowhere none => exact .nowhere none

theorem congr (h : AtFirst p found missing r) (hpq : ∀ i, p i ↔ q i) : AtFirst q found missing r := by
  rwa [← funext fun i => propext (hpq i)]

theorem elim (h : AtFirst p found missing r) {P : α → Prop} (hfound : ∀ i, p i → P (found i)) (hmissing : P missing) :
    P r := by
  cases h with
  | @first i here _ => exact hfound i here
  | nowhere => exact hmissing

theorem cons (h : AtFirst q found missing r) (hzero : ¬ p 0) (hq : ∀ i, p (i + 1) ↔ q i) {found' : Nat → β}
    (g : α → β) (hg : ∀ i, g (found i) = found' (i + 1)) : AtFirst p found' (g missing) (g r) := by
  cases h with
  | @first i here before =>
    rw [hg]
    refine .first ((hq i).mpr here) fun j hj => ?_
    cases j with
    | zero => exact hzero
    | succ j => exact fun hj' => before j (by omega) ((hq j).mp hj')
  | nowhere none =>
    refine .nowhere fun i => ?_
    cases i with
    | zero => exact hzero
    | succ i => exact fun hi => none i ((hq i).mp hi)

end AtFirst

/-! ### Comments -/

/-- A marker begins at a place outside literals. -/
def MarkerFrom (marker : Text) (m : Mode) (s : Text) (i : Nat) : Prop :=
  (∃ c, (marksFrom m s)[i]? = some (c, true)) ∧ marker <+: s.drop i

private theorem atFirst_commentFrom (marker : Text) (m : Mode) (s : Text) :
    AtFirst (MarkerFrom marker m s) (fun i => some (s.take i, s.drop (marker.length + i))) none
      (commentFrom marker m s) := by
  induction s generalizing m with
  | nil => exact .nowhere (by simp [MarkerFrom])
  | cons c s ih =>
    have hhere : MarkerFrom marker m (c :: s) 0 ↔ (m.role c = .code && marker.isPrefixOf (c :: s)) = true := by
      simp [MarkerFrom, marksFrom_cons]
    have hlater (i : Nat) : MarkerFrom marker m (c :: s) (i + 1) ↔ MarkerFrom marker (m.next c) s i := by
      simp [MarkerFrom, marksFrom_cons]
    rw [commentFrom]
    split
    · next h => exact .first (i := 0) (hhere.mpr h) (by simp)
    · next h =>
      exact (ih (m.next c)).cons (fun h0 => h (hhere.mp h0)) hlater (Option.map fun r => (c :: r.1, r.2)) fun _ => rfl

theorem atFirst_splitComment (marker s : Text) :
    AtFirst (MarkerFrom marker .code s) (fun i => (trimEnd (s.take i), some (trim (s.drop (marker.length + i)))))
      (trimEnd s, none) (splitComment marker s) := by
  have hsplit : splitComment marker s =
      (commentFrom marker .code s).elim (trimEnd s, none) fun r => (trimEnd r.1, some (trim r.2)) := by
    unfold splitComment
    cases commentFrom marker .code s <;> rfl
  rw [hsplit]
  exact (atFirst_commentFrom marker .code s).map fun r => r.elim (trimEnd s, none) fun r => (trimEnd r.1, some (trim r.2))

/-! ### Separators -/

/-- Where the separators stand that divide a text into pieces. -/
def joints : Text → List Text → List Nat
  | _, [] => []
  | p, q :: qs => p.length :: (joints q qs).map (· + (p.length + 1))

private theorem joints_cons (c : Char) (p : Text) (ps : List Text) :
    joints (c :: p) ps = (joints p ps).map (· + 1) := by
  cases ps with
  | nil => rfl
  | cons q qs => simp [joints, Nat.add_assoc]

/-- A text is cut at the separators outside literals and brackets, and nowhere else. -/
theorem mem_joints_splitFrom {sep : Char} (hquote : isQuote sep = false) (hbracket : bracketWeight sep = 0) (m : Mode)
    (d : Int) (s : Text) (i : Nat) :
    i ∈ joints (splitFrom sep m d s).1 (splitFrom sep m d s).2 ↔
      (marksFrom m s)[i]? = some (sep, true) ∧ d + net true (outside ((marksFrom m s).take i)) = 0 := by
  induction s generalizing m d i with
  | nil => simp [splitFrom, joints]
  | cons c s ih =>
    rw [splitFrom, marksFrom_cons]
    split
    · next h =>
      obtain ⟨⟨⟨hrole, _⟩, rfl⟩, rfl⟩ : ((m.role c = .code ∧ bracketWeight c = 0) ∧ c = sep) ∧ d = 0 := by
        simpa using h
      obtain rfl : m = .code := eq_code_of_role hrole
      have hnext : Mode.code.next c = .code := by simp [Mode.next, hquote]
      cases i with
      | zero => simp [joints, hrole, outside]
      | succ i =>
        have hweight : Mode.code.weight c = 0 := by simp [Mode.weight, hbracket]
        rw [List.take_succ_cons, net_outside_cons, hweight, hnext, List.getElem?_cons_succ, Int.zero_add]
        simpa [joints] using ih .code 0 i
    · next h =>
      rw [joints_cons]
      cases i with
      | zero =>
        have hnot : ¬ ((c, decide (m.role c = .code)) = (sep, true) ∧ d + net true [] = 0) := by
          rintro ⟨hmark, hdepth⟩
          obtain ⟨rfl, hrole⟩ := Prod.mk.inj hmark
          simp_all
        simpa [outside] using hnot
      | succ i =>
        rw [List.take_succ_cons, net_outside_cons, List.getElem?_cons_succ, ← Int.add_assoc]
        simpa using ih (m.next c) (d + m.weight c) i

theorem splitTopLevel_eq (sep : Char) (s : Text) : splitTopLevel sep s =
    if trim (splitFrom sep .code 0 s).1 = [] ∧ (splitFrom sep .code 0 s).2 = [] then []
    else ((splitFrom sep .code 0 s).1 :: (splitFrom sep .code 0 s).2).map trim := by
  split
  · next h => rw [splitTopLevel, h.1, h.2]
  · next h =>
    rw [splitTopLevel, List.map_cons]
    split
    · next hnil hnil' => exact absurd ⟨hnil, hnil'⟩ h
    · rfl

/-! ### Assignments -/

/-- A plain equals sign stands at a place: outside literals and brackets, and no part of a longer operator. -/
def PlainEqualsFrom (before : Char) (m : Mode) (d : Int) (s : Text) (i : Nat) : Prop :=
  (marksFrom m s)[i]? = some ('=', true) ∧ d + net true (outside ((marksFrom m s).take i)) = 0 ∧
    (s.drop (i + 1)).head? ≠ some '=' ∧ ∀ c ∈ (before :: s.take i).getLast?, c ∉ operatorStarts

theorem atFirst_assignmentFrom (before : Char) (m : Mode) (d : Int) (s : Text) :
    AtFirst (PlainEqualsFrom before m d s) (fun i => some (s.take i, s.drop (i + 1))) none
      (assignmentFrom before m d s) := by
  induction s generalizing before m d with
  | nil => exact .nowhere (by simp [PlainEqualsFrom])
  | cons c s ih =>
    have hhere : PlainEqualsFrom before m d (c :: s) 0 ↔
        (m.role c = .code && c == '=' && d == 0 && s.head? != some '=' && !operatorStarts.contains before) = true := by
      simp [PlainEqualsFrom, marksFrom_cons, outside, and_assoc, and_left_comm]
    have hlater (i : Nat) : PlainEqualsFrom before m d (c :: s) (i + 1) ↔
        PlainEqualsFrom c (m.next c) (d + m.weight c) s i := by
      simp only [PlainEqualsFrom, marksFrom_cons, List.getElem?_cons_succ, List.take_succ_cons, net_outside_cons,
        List.drop_succ_cons, List.getLast?_cons_cons, Int.add_assoc]
    rw [assignmentFrom]
    split
    · next h => exact .first (i := 0) (hhere.mpr h) (by simp)
    · next h =>
      exact (ih c (m.next c) (d + m.weight c)).cons (fun h0 => h (hhere.mp h0)) hlater
        (Option.map fun r => (c :: r.1, r.2)) fun _ => rfl

end Pseudocode.Text
