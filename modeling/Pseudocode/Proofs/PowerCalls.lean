import Pseudocode.Proofs.CallSites
import Pseudocode.Proofs.CompoundAssignments

/-! # Calls of the power function

A braced source writes powers as calls, and the dialects write them with a sign. The arguments are put on
both sides of the sign as they stand, without parentheses. So an expression with such calls is read as before
exactly if the arguments of all of them are single words; an argument with operators of its own is torn
apart. -/

namespace Pseudocode.Arithmetic

open Text Pattern

/-! ### Powers among words and signs -/

/-- Every power in a tree is one of words. -/
def Tree.PowersOfWords : Tree → Prop
  | leaf _ => True
  | node o l r => (o = .pow → (∃ a, l = leaf a) ∧ ∃ b, r = leaf b) ∧ l.PowersOfWords ∧ r.PowersOfWords

/-- The words of a tree, from left to right. -/
def Tree.words : Tree → List Text
  | leaf w => [w]
  | node _ l r => l.words ++ r.words

/-- The operators of a braced source, with a sign for powers. -/
def powerOps (s : Text) : Option Op := if s = "^".toList then some .pow else Convention.braces.ops s

/-- What comes of an expression when the arguments of its power calls are put beside the sign. -/
inductive Flattened : Nat → List Text → Tree → Prop
  | word {k : Nat} {w : Text} (word : IsWord w) : Flattened k [w] (.leaf w)
  | group {k : Nat} {ts : List Text} {t : Tree} (inner : Flattened 0 ts t) :
      Flattened k (['('] :: ts ++ [[')']]) t
  | binary {k : Nat} {s : Text} {o : Op} {a b : List Text} {l r : Tree}
      (sign : Convention.braces.ops s = some o) (level : k ≤ o.level) (left : Flattened o.level a l)
      (right : Flattened (o.level + 1) b r) : Flattened k (a ++ s :: b) (.node o l r)
  | power {k : Nat} {a b : List Text} {l r : Tree} (base : Parses Convention.braces.ops 0 a l)
      (exponent : Parses Convention.braces.ops 0 b r) (bare : ['('] ∉ a ∧ ['('] ∉ b) :
      Flattened k (a ++ "^".toList :: b) (.node .pow l r)

/-- Powers stand between words and do not follow one upon another. -/
structure PowersApart (ts : List Text) : Prop where
  beside : ts.IsChain fun a b => (b = "^".toList → IsWord a) ∧ (a = "^".toList → IsWord b)
  apart : ∀ w, ¬ ["^".toList, w, "^".toList] <:+: ts

private theorem PowersApart.of_isInfix {ts us : List Text} (h : PowersApart ts) (hu : us <:+: ts) :
    PowersApart us where
  beside := List.IsChain.infix h.beside hu
  apart w hw := h.apart w (hw.trans hu)

theorem PowersApart.of_not_mem {ts : List Text} (h : "^".toList ∉ ts) : PowersApart ts := by
  refine ⟨?_, fun w hw => h (hw.subset (by simp))⟩
  induction ts with
  | nil => exact .nil
  | cons a ts ih =>
    obtain ⟨ha, hts⟩ := List.mem_cons.not.mp h |> not_or.mp
    refine List.isChain_cons.mpr ⟨fun b hb => ⟨?_, fun h => absurd h.symm ha⟩, ih hts⟩
    rintro rfl
    exact absurd (List.mem_of_mem_head? hb) hts

theorem PowersApart.append {a b : List Text} {s : Text} (ha : PowersApart a) (hb : PowersApart b)
    (hs : s ≠ "^".toList) (hlast : ∀ c ∈ a.getLast?, c ≠ "^".toList)
    (hhead : ∀ c ∈ b.head?, c ≠ "^".toList) : PowersApart (a ++ s :: b) := by
  refine ⟨List.isChain_append.mpr ⟨ha.beside, List.isChain_cons.mpr ⟨?_, hb.beside⟩, ?_⟩, ?_⟩
  · exact fun c hc => ⟨fun h => absurd h (hhead c hc), fun h => absurd h hs⟩
  · rintro c hc _ ⟨⟩
    exact ⟨fun h => absurd h hs, fun h => absurd h (hlast c hc)⟩
  · rintro w ⟨xs, ys, heq⟩
    have heq : xs ++ "^".toList :: w :: "^".toList :: ys = a ++ s :: b := by simpa using heq
    rcases List.append_eq_append_iff.mp heq with ⟨zs, rfl, hzs⟩ | ⟨zs, rfl, hzs⟩
    · match zs, hzs with
      | [], hzs => exact hs (List.cons.inj hzs).1.symm
      | [c], hzs =>
        obtain ⟨rfl, _⟩ := List.cons.inj hzs
        exact hlast _ (by simp) rfl
      | [_, _], hzs =>
        simp only [List.cons_append, List.nil_append, List.cons.injEq] at hzs
        exact hs hzs.2.2.1.symm
      | c :: v :: d :: zs, hzs =>
        simp only [List.cons_append, List.cons.injEq] at hzs
        obtain ⟨rfl, rfl, rfl, _⟩ := hzs
        exact ha.apart w ⟨xs, zs, by simp⟩
    · match zs, hzs with
      | [], hzs => exact hs (List.cons.inj hzs).1
      | _ :: zs, hzs =>
        obtain ⟨_, rfl⟩ := List.cons.inj hzs
        exact hb.apart w ⟨zs, ys, by simp⟩

private theorem Parses.word_or_group {ops : Text → Option Op} {ts : List Text} {t : Tree} (h : Parses ops 3 ts t) :
    (∃ w, IsWord w ∧ ts = [w] ∧ t = .leaf w) ∨ ∃ us, ts = ['('] :: us ++ [[')']] := by
  cases h with
  | word hw => exact .inl ⟨_, hw, rfl, rfl⟩
  | group inner => exact .inr ⟨_, rfl⟩
  | @binary _ _ o _ _ _ _ _ level => cases o <;> simp [Op.level] at level

theorem Parses.powersOfWords {ops : Text → Option Op} (hops : ∀ s, ops s = some .pow → s = "^".toList)
    {k : Nat} {ts : List Text} {t : Tree} (h : Parses ops k ts t) (hts : PowersApart ts) :
    t.PowersOfWords := by
  have hparen : ¬ IsWord ['('] ∧ ¬ IsWord [')'] := by decide
  induction h with
  | word => exact trivial
  | group _ ih => exact ih (hts.of_isInfix ⟨[['(']], [[')']], by simp⟩)
  | @binary k s o a b l r sign level left right ihl ihr =>
    refine ⟨?_, ihl (hts.of_isInfix ⟨[], s :: b, by simp⟩), ihr (hts.of_isInfix ⟨a ++ [s], [], by simp⟩)⟩
    rintro rfl
    obtain rfl := hops s sign
    obtain ⟨_, hchain, hlast⟩ := List.isChain_append.mp hts.beside
    have hlast {u : List Text} {c : Text} (hc : a = u ++ [c]) : IsWord c :=
      (hlast c (by simp [hc]) _ rfl).1 rfl
    have hhead : ∀ c ∈ b.head?, IsWord c := fun c hc => ((List.isChain_cons.mp hchain).1 c hc).2 rfl
    constructor
    · cases left with
      | word _ => exact ⟨_, rfl⟩
      | group inner => exact absurd (hlast rfl) hparen.2
      | @binary _ s' o' a' b' _ _ sign' level' _ right' =>
        obtain rfl : o' = .pow := by cases o' <;> simp [Op.level] at level' ⊢
        obtain rfl := hops s' sign'
        rcases right'.word_or_group with ⟨w, _, rfl, _⟩ | ⟨us, rfl⟩
        · exact absurd ⟨a', b, by simp⟩ (hts.apart w)
        · exact absurd (hlast (u := a' ++ "^".toList :: ['('] :: us) (by simp)) hparen.2
    · rcases right.word_or_group with ⟨w, _, _, rfl⟩ | ⟨us, rfl⟩
      · exact ⟨w, rfl⟩
      · exact absurd (hhead ['('] rfl) hparen.1

/-! ### Flattened expressions -/

/-- The signs of a braced source are no words, no parentheses and not the sign for powers. -/
theorem braces_sign {s : Text} {o : Op} (h : Convention.braces.ops s = some o) :
    s ≠ "^".toList ∧ ¬ IsWord s ∧ s ≠ ['('] ∧ s ≠ [')'] ∧ o ≠ .pow := by
  have hall : ∀ p ∈ Convention.braces.signs, p.1 ≠ "^".toList ∧ ¬ IsWord p.1 ∧ p.1 ≠ ['('] ∧
      p.1 ≠ [')'] ∧ p.2 ≠ .pow := by
    decide
  exact hall _ (Convention.mem_signs_of_ops h)

theorem Parses.ends {k : Nat} {ts : List Text} {t : Tree} (h : Parses Convention.braces.ops k ts t)
    (hbare : ['('] ∉ ts) :
    (∃ w us, ts = w :: us ∧ IsWord w) ∧ (∃ us w, ts = us ++ [w] ∧ IsWord w) ∧ "^".toList ∉ ts := by
  induction h with
  | @word _ w hw =>
    refine ⟨⟨w, [], rfl, hw⟩, ⟨[], w, rfl, hw⟩, ?_⟩
    rw [List.mem_singleton]
    rintro rfl
    exact absurd hw (by decide)
  | group => simp at hbare
  | @binary _ s o a b _ _ sign _ left right ihl ihr =>
    obtain ⟨⟨w, us, rfl, hw⟩, _, hl⟩ := ihl (fun h => hbare (List.mem_append_left _ h))
    obtain ⟨_, ⟨us', w', rfl, hw'⟩, hr⟩ := ihr (fun h => hbare (by simp [h]))
    refine ⟨⟨w, us ++ s :: (us' ++ [w']), by simp, hw⟩, ⟨w :: us ++ s :: us', w', by simp, hw'⟩, ?_⟩
    intro hm
    rcases List.mem_append.mp hm with hm | hm
    · exact hl hm
    · exact (List.mem_cons.mp hm).elim (braces_sign sign).1.symm hr

private theorem Parses.mem_words {ops : Text → Option Op} {k : Nat} {ts : List Text} {t : Tree}
    (h : Parses ops k ts t) {l : Text} (hl : l ∈ ts) :
    l ∈ t.words ∧ IsWord l ∨ l = ['('] ∨ l = [')'] ∨ ∃ o, ops l = some o := by
  induction h with
  | word hw =>
    obtain rfl := List.mem_singleton.mp hl
    exact .inl ⟨List.mem_singleton_self _, hw⟩
  | @group _ ts _ _ ih =>
    have hl : l = ['('] ∨ l ∈ ts ∨ l = [')'] := by simpa using hl
    rcases hl with hl | hl | hl
    · exact .inr (.inl hl)
    · exact ih hl
    · exact .inr (.inr (.inl hl))
  | @binary _ s o ls rs _ _ sign _ _ _ ihl ihr =>
    have hl : l ∈ ls ∨ l = s ∨ l ∈ rs := by simpa using hl
    rcases hl with hl | rfl | hl
    · exact (ihl hl).imp_left fun h => ⟨List.mem_append_left _ h.1, h.2⟩
    · exact .inr (.inr (.inr ⟨o, sign⟩))
    · exact (ihr hl).imp_left fun h => ⟨List.mem_append_right _ h.1, h.2⟩

theorem Parses.eq_singleton {ops : Text → Option Op} {k : Nat} {ts : List Text} {w : Text}
    (h : Parses ops k ts (.leaf w)) (hbare : ['('] ∉ ts) : ts = [w] ∧ IsWord w := by
  cases h with
  | word hw => exact ⟨rfl, hw⟩
  | group => simp at hbare

theorem powerOps_of_braces {s : Text} {o : Op} (h : Convention.braces.ops s = some o) :
    powerOps s = some o := by
  rw [powerOps, if_neg (braces_sign h).1, h]

namespace Flattened

variable {k : Nat} {ts : List Text} {t : Tree}

theorem mem_cases (h : Flattened k ts t) {l : Text} (hl : l ∈ ts) :
    l ∈ t.words ∧ IsWord l ∨ l = ['('] ∨ l = [')'] ∨ ∃ o, powerOps l = some o := by
  induction h with
  | word hw =>
    obtain rfl := List.mem_singleton.mp hl
    exact .inl ⟨List.mem_singleton_self _, hw⟩
  | @group _ ts _ _ ih =>
    have hl : l = ['('] ∨ l ∈ ts ∨ l = [')'] := by simpa using hl
    rcases hl with hl | hl | hl
    · exact .inr (.inl hl)
    · exact ih hl
    · exact .inr (.inr (.inl hl))
  | @binary _ s o a b _ _ sign _ _ _ ihl ihr =>
    have hl : l ∈ a ∨ l = s ∨ l ∈ b := by simpa using hl
    rcases hl with hl | rfl | hl
    · exact (ihl hl).imp_left fun h => ⟨List.mem_append_left _ h.1, h.2⟩
    · exact .inr (.inr (.inr ⟨o, powerOps_of_braces sign⟩))
    · exact (ihr hl).imp_left fun h => ⟨List.mem_append_right _ h.1, h.2⟩
  | @power _ a b _ _ base exponent _ =>
    have hsign {l : Text} (h : ∃ o, Convention.braces.ops l = some o) : ∃ o, powerOps l = some o :=
      h.imp fun _ => powerOps_of_braces
    have hl : l ∈ a ∨ l = "^".toList ∨ l ∈ b := by simpa using hl
    rcases hl with hl | rfl | hl
    · exact (base.mem_words hl).imp (fun h => ⟨List.mem_append_left _ h.1, h.2⟩)
        (.imp_right (.imp_right hsign))
    · exact .inr (.inr (.inr ⟨.pow, rfl⟩))
    · exact (exponent.mem_words hl).imp (fun h => ⟨List.mem_append_right _ h.1, h.2⟩)
        (.imp_right (.imp_right hsign))

theorem isChain (h : Flattened k ts t) : ts.IsChain fun a b => ¬ (IsWord a ∧ b = ['(']) := by
  have hparses {k : Nat} {ts : List Text} {t : Tree} (h : Parses Convention.braces.ops k ts t) :=
    h.isChain fun _ _ hs => ⟨(braces_sign hs).2.1, (braces_sign hs).2.2.1⟩
  have hsign {s : Text} {a b : List Text} (hs : ¬ IsWord s ∧ s ≠ ['('])
      (ha : a.IsChain fun a b => ¬ (IsWord a ∧ b = ['('])) (hb : b.IsChain fun a b => ¬ (IsWord a ∧ b = ['('])) :
      (a ++ s :: b).IsChain fun a b => ¬ (IsWord a ∧ b = ['(']) := by
    refine List.isChain_append.mpr ⟨ha, List.isChain_cons.mpr ⟨fun _ _ h => hs.1 h.1, hb⟩, ?_⟩
    rintro a _ _ ⟨⟩ h
    exact hs.2 h.2
  induction h with
  | word => exact .singleton _
  | group _ ih => exact List.isChain_cons.mpr ⟨fun _ _ h => absurd h.1 (by decide), hsign (by decide) ih .nil⟩
  | binary sign _ _ _ ihl ihr => exact hsign ⟨(braces_sign sign).2.1, (braces_sign sign).2.2.1⟩ ihl ihr
  | power base exponent _ => exact hsign (by decide) (hparses base) (hparses exponent)

/-- The sign for powers is neither first nor last. -/
theorem ends (h : Flattened k ts t) :
    (∃ w us, ts = w :: us ∧ w ≠ "^".toList) ∧ ∃ us w, ts = us ++ [w] ∧ w ≠ "^".toList := by
  have hword {w : Text} (hw : IsWord w) : w ≠ "^".toList := by
    rintro rfl
    exact absurd hw (by decide)
  induction h with
  | @word _ w hw => exact ⟨⟨w, [], rfl, hword hw⟩, [], w, rfl, hword hw⟩
  | @group _ ts _ _ _ => exact ⟨⟨['('], ts ++ [[')']], rfl, by decide⟩, ['('] :: ts, [')'], rfl, by decide⟩
  | @binary _ s _ _ _ _ _ _ _ _ _ ihl ihr =>
    obtain ⟨⟨w, us, rfl, hw⟩, _⟩ := ihl
    obtain ⟨_, us', w', rfl, hw'⟩ := ihr
    exact ⟨⟨w, us ++ s :: (us' ++ [w']), by simp, hw⟩, w :: us ++ s :: us', w', by simp, hw'⟩
  | power base exponent bare =>
    obtain ⟨⟨w, us, rfl, hw⟩, _⟩ := base.ends bare.1
    obtain ⟨_, ⟨us', w', rfl, hw'⟩, _⟩ := exponent.ends bare.2
    exact ⟨⟨w, us ++ "^".toList :: (us' ++ [w']), by simp, hword hw⟩,
      w :: us ++ "^".toList :: us', w', by simp, hword hw'⟩

theorem powersApart (h : Flattened k ts t) : PowersApart ts := by
  induction h with
  | word hw =>
    refine .of_not_mem fun hm => ?_
    obtain rfl := List.mem_singleton.mp hm
    exact absurd hw (by decide)
  | group inner ih =>
    obtain ⟨⟨w, us, rfl, hw⟩, us', w', heq, hw'⟩ := inner.ends
    have hclosed : PowersApart ((w :: us) ++ [')'] :: []) :=
      ih.append (.of_not_mem List.not_mem_nil) (by decide) (by simpa [heq] using hw') (by simp)
    have hopened : PowersApart ([] ++ ['('] :: (w :: us ++ [[')']])) :=
      .append (.of_not_mem List.not_mem_nil) hclosed (by decide) (by simp) (by simpa using hw)
    simpa using hopened
  | binary sign _ left right ihl ihr =>
    obtain ⟨_, us, w, rfl, hw⟩ := left.ends
    obtain ⟨⟨w', us', rfl, hw'⟩, _⟩ := right.ends
    exact ihl.append ihr (braces_sign sign).1 (by simpa using hw) (by simpa using hw')
  | power base exponent bare =>
    obtain ⟨_, ⟨us, w, rfl, hw⟩, hno⟩ := base.ends bare.1
    obtain ⟨⟨w', us', rfl, hw'⟩, _, hno'⟩ := exponent.ends bare.2
    refine ⟨List.isChain_append.mpr ⟨(PowersApart.of_not_mem hno).beside, List.isChain_cons.mpr
      ⟨?_, (PowersApart.of_not_mem hno').beside⟩, ?_⟩, fun v hv => ?_⟩
    · rintro c ⟨⟩
      exact ⟨fun h => absurd (h ▸ List.mem_cons_self) hno', fun _ => hw'⟩
    · rintro c hc _ ⟨⟩
      obtain rfl : w = c := by simpa using hc
      exact ⟨fun _ => hw, fun h => absurd (h ▸ List.mem_append_right _ (List.mem_singleton_self _)) hno⟩
    · have hcount := hv.sublist.count_le "^".toList
      rw [List.count_cons_self, List.count_cons, List.count_cons_self, List.count_append,
        List.count_eq_zero_of_not_mem hno, List.count_cons_self,
        List.count_eq_zero_of_not_mem hno'] at hcount
      omega

theorem parses (h : Flattened k ts t) (hk : k ≤ 2) (ht : t.PowersOfWords) : Parses powerOps k ts t := by
  induction h with
  | word hw => exact .word hw
  | group _ ih => exact .group (ih (by decide) ht)
  | @binary _ _ o _ _ _ _ sign level _ _ ihl ihr =>
    obtain ⟨_, hl, hr⟩ := ht
    have hlevel : o.level + 1 ≤ 2 := by
      have hne := (braces_sign sign).2.2.2.2
      cases o <;> simp_all [Op.level]
    exact .binary (powerOps_of_braces sign) level (ihl (by omega) hl) (ihr hlevel hr)
  | power base exponent bare =>
    obtain ⟨⟨a, rfl⟩, b, rfl⟩ := ht.1 rfl
    obtain ⟨rfl, ha⟩ := base.eq_singleton bare.1
    obtain ⟨rfl, hb⟩ := exponent.eq_singleton bare.2
    exact .binary (a := [a]) (s := "^") (o := .pow) rfl hk (.word ha) (.word hb)

end Flattened

/-! ### Expressions as they are written -/

/-- Only white space. -/
def IsGap (b : Text) : Prop := ∀ c ∈ b, isBlank c = true

/-- What begins a call of the power function. -/
def powerLead : Text := "Math.pow("

/-- A call of the power function, with white space around its arguments. -/
def powerCall (b₁ x b₂ b₃ y b₄ : Text) : Text :=
  powerLead ++ (b₁ ++ x ++ b₂ ++ ',' :: (b₃ ++ y ++ b₄ ++ [')']))

/-- An expression of a braced source as it is written: words, parentheses, signs and calls of the power
function, with any white space between them. The arguments of such a call have no parentheses. -/
inductive Written : Nat → Text → Tree → Prop
  | word {k : Nat} {w : Text} (word : IsWord w) : Written k w (.leaf w)
  | group {k : Nat} {b₁ b₂ s : Text} {t : Tree} (gap₁ : IsGap b₁) (gap₂ : IsGap b₂)
      (inner : Written 0 s t) : Written k ('(' :: (b₁ ++ s ++ b₂ ++ [')'])) t
  | binary {k : Nat} {op : Text} {o : Op} {b₁ b₂ x y : Text} {l r : Tree} (gap₁ : IsGap b₁)
      (gap₂ : IsGap b₂) (sign : Convention.braces.ops op = some o) (level : k ≤ o.level)
      (left : Written o.level x l) (right : Written (o.level + 1) y r) :
      Written k (x ++ (b₁ ++ op ++ b₂ ++ y)) (.node o l r)
  | power {k : Nat} {b₁ b₂ b₃ b₄ x y : Text} {l r : Tree} (gap₁ : IsGap b₁) (gap₂ : IsGap b₂)
      (gap₃ : IsGap b₃) (gap₄ : IsGap b₄) (base : Written 0 x l) (exponent : Written 0 y r)
      (bare : '(' ∉ x ∧ '(' ∉ y) :
      Written k (powerCall b₁ x b₂ b₃ y b₄) (.node .pow l r)

/-- Puts the arguments of a power call beside the sign. -/
def powerText (m : Match) : Text := m.group 1 ++ " ^ " ++ m.group 2

/-- A sign or parenthesis is cut from what stands around it. -/
theorem lexemes_around {a b₁ b₂ b : Text} {d : Char} (hd : isBlank d = false) (hb₁ : IsGap b₁)
    (hb₂ : IsGap b₂) (ha : ∀ c ∈ a.getLast?, joins c d = false) (hb : ∀ c ∈ b.head?, joins d c = false) :
    lexemes (a ++ (b₁ ++ d :: (b₂ ++ b))) = lexemes a ++ [d] :: lexemes b := by
  have hright : lexemes (d :: (b₂ ++ b)) = [d] :: lexemes b := by
    rw [lexemes_cons_of_not_joins hd, lexemes_append_left hb₂]
    intro c hc
    cases b₂ with
    | nil => exact hb c hc
    | cons e b₂ =>
      obtain rfl := Option.some.inj hc
      exact joins_of_isBlank d (hb₂ e (by simp))
  rw [lexemes_append, lexemes_append_left hb₁, hright]
  intro c hc e he
  cases b₁ with
  | nil =>
    obtain rfl := Option.some.inj he
    exact ha c hc
  | cons e' b₁ =>
    obtain rfl := Option.some.inj he
    exact joins_of_isBlank c (hb₁ e' (by simp))

theorem lexemes_group {b₁ b₂ : Text} (hb₁ : IsGap b₁) (hb₂ : IsGap b₂) (s : Text) :
    lexemes ('(' :: (b₁ ++ (s ++ (b₂ ++ [')'])))) = ['('] :: lexemes s ++ [[')']] := by
  have hword : isWordChar '(' = false ∧ isWordChar ')' = false := by decide
  have hopen (c : Char) : joins '(' c = false := by simp [joins, isDouble, hword.1]
  have hclose (c : Char) : joins c ')' = false := by
    by_cases hc : c = ')'
    · subst hc
      decide
    · simp [joins, isDouble, hword.2, hc]
  have hright : lexemes (s ++ (b₂ ++ ')' :: ([] ++ []))) = lexemes s ++ [')'] :: lexemes [] :=
    lexemes_around (by decide) hb₂ (List.forall_mem_nil _) (fun c _ => hclose c) (fun c hc => by cases hc)
  have hleft : lexemes ([] ++ ([] ++ '(' :: (b₁ ++ (s ++ (b₂ ++ ')' :: ([] ++ [])))))) =
      lexemes [] ++ ['('] :: lexemes (s ++ (b₂ ++ ')' :: ([] ++ []))) :=
    lexemes_around (by decide) (List.forall_mem_nil _) hb₁ (fun c hc => by cases hc) (fun c _ => hopen c)
  rw [hright] at hleft
  exact hleft

/-- Characters beside which a sign stands for itself. -/
def isSoft (c : Char) : Bool := isBlank c || isWordChar c || c == '(' || c == ')'

/-- Beside them a sign of arithmetic joins nothing. -/
theorem joins_sign {c d : Char} (hc : isSoft c = true) (hd : d ∈ arithmeticSigns) :
    joins c d = false ∧ joins d c = false := by
  have hall : arithmeticSigns.all (fun d => !isWordChar d && (!isSoft d || d != '*' && d != '/')) = true := by
    decide
  have hsign := List.all_eq_true.mp hall d hd
  simp only [Bool.and_eq_true, Bool.not_eq_true', Bool.or_eq_true, bne_iff_ne] at hsign
  obtain ⟨hword, hsoft⟩ := hsign
  have hdouble : isDouble c d = false ∧ isDouble d c = false := by
    by_cases heq : c = d
    · subst heq
      obtain ⟨hmul, hdiv⟩ := hsoft.resolve_left (by simp [hc])
      simp [isDouble, hmul, hdiv]
    · simp [isDouble, heq, Ne.symm heq]
  simp [joins, hword, hdouble]

private theorem isSoft_of_isBlank {c : Char} (h : isBlank c = true) : isSoft c = true := by simp [isSoft, h]

theorem isSoft_of_isWordChar {c : Char} (h : isWordChar c = true) : isSoft c = true := by
  simp [isSoft, h]

/-- The sign of an operator is one character. -/
theorem exists_sign {op : Text} {o : Op} (h : Convention.braces.ops op = some o) :
    ∃ d, op = [d] ∧ d ∈ arithmeticSigns ∧ isBlank d = false ∧ wordOr "." d = false ∧ d ≠ 'M' ∧
      isQuote d = false ∧ d ≠ '(' ∧ d ≠ ')' := by
  have hall : ∀ p ∈ Convention.braces.signs, p.1.length = 1 ∧ p.1.all (fun d => arithmeticSigns.contains d &&
      !isBlank d && !wordOr "." d && d != 'M' && !isQuote d && d != '(' && d != ')') = true := by
    decide
  obtain ⟨hlength, hchar⟩ := hall _ (Convention.mem_signs_of_ops h)
  obtain ⟨d, rfl⟩ := List.length_eq_one_iff.mp hlength
  simpa [and_assoc] using hchar

namespace Written

variable {k : Nat} {s : Text} {t : Tree}

/-- What is written begins with a word or a parenthesis and ends with one. -/
theorem ends (h : Written k s t) :
    (∃ c cs, s = c :: cs ∧ isSoft c = true ∧ isBlank c = false) ∧
      ∃ cs c, s = cs ++ [c] ∧ isSoft c = true ∧ isBlank c = false := by
  induction h with
  | @word _ w hw =>
    obtain ⟨hne, hw⟩ := hw
    obtain ⟨c, cs, rfl⟩ := List.exists_cons_of_ne_nil hne
    have hc := hw c (by simp)
    refine ⟨⟨c, cs, rfl, isSoft_of_isWordChar hc, isBlank_of_isWordChar hc⟩, ?_⟩
    refine ⟨_, _, (List.dropLast_append_getLast hne).symm, ?_⟩
    have hlast := hw _ (List.getLast_mem hne)
    exact ⟨isSoft_of_isWordChar hlast, isBlank_of_isWordChar hlast⟩
  | @group _ b₁ b₂ s _ _ _ _ _ =>
    exact ⟨⟨'(', _, rfl, by decide⟩, '(' :: (b₁ ++ s ++ b₂), ')', rfl, by decide⟩
  | @binary _ op _ b₁ b₂ _ _ _ _ _ _ _ _ _ _ ihl ihr =>
    obtain ⟨⟨c, cs, rfl, hc⟩, _⟩ := ihl
    obtain ⟨_, ds, d, rfl, hd⟩ := ihr
    exact ⟨⟨c, cs ++ _, rfl, hc⟩, c :: cs ++ (b₁ ++ op ++ b₂ ++ ds), d, by simp, hd⟩
  | @power _ b₁ b₂ b₃ b₄ x y _ _ _ _ _ _ _ _ _ _ _ =>
    refine ⟨⟨'M', _, rfl, by decide⟩,
      powerLead ++ (b₁ ++ x ++ b₂ ++ ',' :: (b₃ ++ y ++ b₄)), ')', by simp [powerCall], by decide⟩

theorem trim_eq (h : Written k s t) : trim s = s := by
  obtain ⟨⟨c, cs, hhead, _, hc⟩, ds, d, hlast, _, hd⟩ := h.ends
  refine trim_of_ends ?_ ?_
  · rw [hhead]
    rintro _ ⟨⟩
    exact hc
  · rw [hlast]
    simpa using hd

theorem ne_nil (h : Written k s t) : s ≠ [] := by
  obtain ⟨⟨c, cs, rfl, _⟩, _⟩ := h.ends
  exact List.cons_ne_nil c cs

theorem of_trim (h : Written k s t) {u : Text} (hu : trim u = s) :
    lexemes u = lexemes s ∧ u ≠ [] ∧ (∀ c ∈ u.head?, isSoft c = true) ∧ ∀ c ∈ u.getLast?, isSoft c = true := by
  obtain ⟨b₁, b₂, heq, hb₁, hb₂⟩ := exists_trim u
  obtain ⟨⟨c, cs, hhead, hc, _⟩, ds, d, hlast, hd, _⟩ := h.ends
  rw [hu] at heq
  refine ⟨by rw [← hu, lexemes_trim], by rw [heq]; simp [h.ne_nil], ?_, ?_⟩
  · rw [heq, hhead]
    cases b₁ with
    | nil => simpa using hc
    | cons e b₁ => simpa using isSoft_of_isBlank (hb₁ e (by simp))
  · intro e he
    rw [heq, hlast] at he
    cases b₂ using List.reverseRecOn with
    | nil =>
      obtain rfl : d = e := by simpa using he
      exact hd
    | append_singleton b₂ f =>
      obtain rfl : f = e := by simpa [← List.append_assoc] using he
      exact isSoft_of_isBlank (hb₂ f (by simp))

theorem parses (h : Written k s t) (hbare : '(' ∉ s) :
    Parses Convention.braces.ops k (lexemes s) t ∧ ∀ c ∈ s, isForeign c = false ∧ c ≠ ')' := by
  induction h with
  | word hw =>
    rw [lexemes_of_word hw.1 hw.2]
    refine ⟨.word hw, fun c hc => ⟨isForeign_of_isWordChar (hw.2 c hc), ?_⟩⟩
    rintro rfl
    exact absurd (hw.2 _ hc) (by decide)
  | group => simp at hbare
  | power =>
    exact absurd (List.mem_append_left _ (by decide)) hbare
  | @binary _ op o b₁ b₂ x y _ _ gap₁ gap₂ sign level left right ihl ihr =>
    obtain ⟨d, rfl, hsign, hblank, _, _, _, _, hclose⟩ := exists_sign sign
    obtain ⟨hl, hl'⟩ := ihl (fun h => hbare (by simp [h]))
    obtain ⟨hr, hr'⟩ := ihr (fun h => hbare (by simp [h]))
    obtain ⟨_, cs, c, hlast, hc, _⟩ := left.ends
    obtain ⟨⟨e, es, hhead, he, _⟩, _⟩ := right.ends
    have hcut : lexemes (x ++ (b₁ ++ [d] ++ b₂ ++ y)) = lexemes x ++ [d] :: lexemes y := by
      have haround := lexemes_around (a := x) (b := y) hblank gap₁ gap₂
        (by simpa [hlast] using (joins_sign hc hsign).1) (by simpa [hhead] using (joins_sign he hsign).2)
      simpa using haround
    rw [hcut]
    have hgap {b : Text} (hb : IsGap b) : ∀ c ∈ b, isForeign c = false ∧ c ≠ ')' := by
      refine fun c hc => ⟨isForeign_of_isBlank (hb c hc), ?_⟩
      rintro rfl
      exact absurd (hb _ hc) (by decide)
    have hforeign : isForeign d = false := by simp [isForeign, hsign]
    simp only [List.forall_mem_append, List.forall_mem_singleton]
    exact ⟨.binary sign level hl hr, hl', ⟨⟨hgap gap₁, hforeign, hclose⟩, hgap gap₂⟩, hr'⟩

end Written

/-! ### Replacing the calls -/

/-- A call begins with its own letter. -/
theorem replaceFrom_power_skip {b : Text} (hb : ∀ c ∈ b, c ≠ 'M') (seen rest : Text) :
    Setting.power.replaceFrom powerText 0 seen (b ++ rest) =
      b ++ Setting.power.replaceFrom powerText 0 (b.reverse ++ seen) rest := by
  induction b generalizing seen with
  | nil => rfl
  | cons c b ih =>
    obtain ⟨hc, hb⟩ := List.forall_mem_cons.mp hb
    rw [List.cons_append, replaceFrom_of_no_match, ih hb, List.reverse_cons, List.append_assoc]
    · rfl
    · intro m hm
      obtain ⟨rest', hrest, hway, _⟩ := way_of_at? hm
      obtain ⟨x, hx, _⟩ := reads_power hway.reads
      rw [hx] at hrest
      exact absurd (List.cons.inj hrest).1 hc

theorem replaceFrom_power_word {w : Text} (hw : ∀ c ∈ w, isWordChar c = true) {rest : Text}
    (hrest : ∀ c ∈ rest.head?, wordOr "." c = false) (seen : Text) :
    Setting.power.replaceFrom powerText 0 seen (w ++ rest) =
      w ++ Setting.power.replaceFrom powerText 0 (w.reverse ++ seen) rest := by
  induction w generalizing seen with
  | nil => rfl
  | cons c w ih =>
    rw [List.cons_append, replaceFrom_of_no_match, ih (List.forall_mem_cons.mp hw).2, List.reverse_cons,
      List.append_assoc]
    · rfl
    · intro m hm
      obtain ⟨rest', heq, hway, _⟩ := way_of_at? hm
      obtain ⟨x, hx, _⟩ := reads_power hway.reads
      have heq : "Math".toList ++ '.' :: ("pow".toList ++ '(' :: (x ++ [')']) ++ rest') = c :: w ++ rest := by
        rw [hx] at heq
        simpa using heq.symm
      have hnone : rest.head?.any isWordChar = false := by
        cases hr : rest.head? with
        | none => rfl
        | some d =>
          have hd := hrest d hr
          simp only [wordOr, Bool.or_eq_false_iff] at hd
          exact hd.1
      have hdot : isWordChar '.' = false := by decide
      obtain ⟨_, rfl⟩ := eq_of_runs (p := isWordChar) (List.all_eq_true.mp (by decide)) hw (by simpa using hdot)
        hnone heq
      exact absurd (hrest '.' rfl) (by decide)

private theorem exists_of_reads_argument {p : Pattern} {cls : Char → Bool} {i : Nat} {tail s : Text} {g : Groups}
    (h : Reads (p ++ gap ++ .group i (fewest1 cls) ++ gap ++ .text tail) s g) :
    ∃ s₀ b x b' g₀, s = s₀ ++ (b ++ x ++ b' ++ tail) ∧ g = (i, x) :: g₀ ∧ Reads p s₀ g₀ ∧ IsGap b ∧
      IsGap b' ∧ ∀ c ∈ x, cls c = true := by
  obtain ⟨_, _, _, _, rfl, rfl, h₁, htail⟩ := reads_append.mp h
  obtain ⟨rfl, rfl⟩ := reads_text.mp htail
  obtain ⟨_, b', _, _, rfl, rfl, h₂, hgap'⟩ := reads_append.mp h₁
  obtain ⟨hb', rfl⟩ := reads_most.mp hgap'
  obtain ⟨_, x, _, _, rfl, rfl, h₃, hgroup⟩ := reads_append.mp h₂
  obtain ⟨_, rfl, hx⟩ := reads_group.mp hgroup
  obtain ⟨_, hcls, rfl⟩ := reads_most1.mp (reads_fewest1.mp hx)
  obtain ⟨s₀, b, g₀, _, rfl, rfl, hp, hgap⟩ := reads_append.mp h₃
  obtain ⟨hb, rfl⟩ := reads_most.mp hgap
  exact ⟨s₀, b, x, b', g₀, by simp, rfl, hp, hb, hb', hcls⟩

theorem exists_of_reads_power {s : Text} {g : Groups} (h : Reads Setting.power s g) :
    ∃ b₁ x b₂ b₃ y b₄, s = powerCall b₁ x b₂ b₃ y b₄ ∧ g = [(2, y), (1, x)] ∧ IsGap b₁ ∧ IsGap b₂ ∧
      IsGap b₃ ∧ IsGap b₄ ∧ (∀ c ∈ x, noneOf ",()" c = true) ∧ ∀ c ∈ y, noneOf "()" c = true := by
  obtain ⟨_, b₃, y, b₄, _, rfl, rfl, h₁, hb₃, hb₄, hy⟩ := exists_of_reads_argument h
  obtain ⟨_, b₁, x, b₂, _, rfl, rfl, hopen, hb₁, hb₂, hx⟩ := exists_of_reads_argument h₁
  obtain ⟨rfl, rfl⟩ := reads_text.mp hopen
  refine ⟨b₁, x, b₂, b₃, y, b₄, ?_, rfl, hb₁, hb₂, hb₃, hb₄, hx, hy⟩
  rw [powerCall, List.append_assoc, List.append_assoc _ ",".toList]
  rfl

theorem ne_of_isGap {b : Text} (hb : IsGap b) {d : Char} (hd : isBlank d = false) : ∀ c ∈ b, c ≠ d := by
  rintro c hc rfl
  rw [hb c hc] at hd
  cases hd

private theorem powerCall_append (b₁ x b₂ b₃ y b₄ rest : Text) :
    powerCall b₁ x b₂ b₃ y b₄ ++ rest =
      powerLead ++ ((b₁ ++ x ++ b₂) ++ ',' :: ((b₃ ++ y ++ b₄) ++ ')' :: rest)) := by
  simp [powerCall]

private theorem trim_of_powerCall {b₁ x b₂ b₃ y b₄ c₁ u c₂ c₃ v c₄ rest rest' : Text}
    (heq : powerCall c₁ u c₂ c₃ v c₄ ++ rest' = powerCall b₁ x b₂ b₃ y b₄ ++ rest)
    (hb : IsGap b₁ ∧ IsGap b₂ ∧ IsGap b₃ ∧ IsGap b₄) (hc : IsGap c₁ ∧ IsGap c₂ ∧ IsGap c₃ ∧ IsGap c₄)
    (hx : ∀ c ∈ x, c ≠ ',') (hu : ∀ c ∈ u, c ≠ ',') (hy : ∀ c ∈ y, c ≠ ')') (hv : ∀ c ∈ v, c ≠ ')') :
    trim u = trim x ∧ trim v = trim y ∧ rest' = rest := by
  have hnone {b x b' : Text} {d : Char} (hd : isBlank d = false) (hb : IsGap b) (hb' : IsGap b')
      (hx : ∀ c ∈ x, c ≠ d) : ∀ c ∈ b ++ x ++ b', (c != d) = true := by
    simp only [List.forall_mem_append, bne_iff_ne]
    exact ⟨⟨ne_of_isGap hb hd, hx⟩, ne_of_isGap hb' hd⟩
  have htrim {b x b' : Text} (hb : IsGap b) (hb' : IsGap b') : trim (b ++ x ++ b') = trim x := by
    rw [List.append_assoc, trim_append_left hb, trim_append_right hb']
  rw [powerCall_append, powerCall_append] at heq
  obtain ⟨hbase, _, hrest⟩ := eq_of_runs_cons (hnone (by decide) hc.1 hc.2.1 hu)
    (hnone (by decide) hb.1 hb.2.1 hx) (by decide) (by decide) (List.append_cancel_left heq)
  obtain ⟨hexponent, _, hrest⟩ := eq_of_runs_cons (hnone (by decide) hc.2.2.1 hc.2.2.2 hv)
    (hnone (by decide) hb.2.2.1 hb.2.2.2 hy) (by decide) (by decide) hrest
  refine ⟨?_, ?_, hrest⟩
  · rw [← htrim hc.1 hc.2.1, hbase, htrim hb.1 hb.2.1]
  · rw [← htrim hc.2.2.1 hc.2.2.2, hexponent, htrim hb.2.2.1 hb.2.2.2]

theorem replaceFrom_powerCall {b₁ x b₂ b₃ y b₄ : Text} (hb₁ : IsGap b₁) (hb₂ : IsGap b₂) (hb₃ : IsGap b₃)
    (hb₄ : IsGap b₄) (hx : ∀ c ∈ x, noneOf ",()" c = true) (hy : ∀ c ∈ y, noneOf "()" c = true)
    (hne : x ≠ [] ∧ y ≠ []) (seen rest : Text) :
    ∃ u v, trim u = trim x ∧ trim v = trim y ∧
      Setting.power.replaceFrom powerText 0 seen (powerCall b₁ x b₂ b₃ y b₄ ++ rest) =
        u ++ " ^ ".toList ++ v ++ Setting.power.replaceFrom powerText 0
          ((powerCall b₁ x b₂ b₃ y b₄).reverse ++ seen) rest := by
  have hreads : Reads Setting.power (powerLead ++ b₁ ++ x ++ b₂ ++ ",".toList ++ b₃ ++ y ++ b₄ ++ ")".toList)
      [(2, y), (1, x)] :=
    .seq (.seq (.seq (.seq (.seq (.seq (.seq (.seq (.text _) (.most hb₁))
      (.group 1 (reads_fewest1.mpr (reads_most1.mpr ⟨hne.1, hx, rfl⟩)))) (.most hb₂)) (.text _)) (.most hb₃))
      (.group 2 (reads_fewest1.mpr (reads_most1.mpr ⟨hne.2, hy, rfl⟩)))) (.most hb₄)) (.text _)
  have hcall : powerLead ++ b₁ ++ x ++ b₂ ++ ",".toList ++ b₃ ++ y ++ b₄ ++ ")".toList =
      powerCall b₁ x b₂ b₃ y b₄ := by
    simp [powerCall]
  rw [hcall] at hreads
  obtain ⟨m, hm⟩ := exists_at? (hreads.way rfl seen rest)
  obtain ⟨rest', hrest, hway, _⟩ := way_of_at? hm
  obtain ⟨c₁, u, c₂, c₃, v, c₄, htext, hgroups, hc₁, hc₂, hc₃, hc₄, hu, hv⟩ :=
    exists_of_reads_power hway.reads
  have hcomma {s : Text} (hs : ∀ c ∈ s, noneOf ",()" c = true) : ∀ c ∈ s, c ≠ ',' := by
    rintro c hc rfl
    exact absurd (hs ',' hc) (by decide)
  have hparen {s : Text} (hs : ∀ c ∈ s, noneOf "()" c = true) : ∀ c ∈ s, c ≠ ')' := by
    rintro c hc rfl
    exact absurd (hs ')' hc) (by decide)
  dsimp only at hrest
  rw [htext] at hrest
  obtain ⟨hbase, hexponent, rfl⟩ := trim_of_powerCall hrest.symm ⟨hb₁, hb₂, hb₃, hb₄⟩ ⟨hc₁, hc₂, hc₃, hc₄⟩
    (hcomma hx) (hcomma hu) (hparen hy) (hparen hv)
  refine ⟨u, v, hbase, hexponent, ?_⟩
  have hsame : m.text = powerCall b₁ x b₂ b₃ y b₄ := htext.trans (List.append_cancel_right hrest.symm)
  have hreplaced : powerText m = u ++ " ^ ".toList ++ v := by
    simp only [powerText, Match.group, Match.group?, hgroups]
    rfl
  rw [replaceFrom_of_match hm hsame (by simp [powerCall]), hreplaced]

/-- The calls in `s`, which comes after `seen` and before `rest`, are replaced, and `s'`, which comes of it, is
flattened. At both ends it may stand beside a sign. -/
structure Flattens (k : Nat) (t : Tree) (seen s rest s' : Text) : Prop where
  flattened : Flattened k (lexemes s') t
  first : ∀ c ∈ s'.head?, isSoft c = true
  last : ∀ c ∈ s'.getLast?, isSoft c = true
  replaced : Setting.power.replaceFrom powerText 0 seen (s ++ rest) =
    s' ++ Setting.power.replaceFrom powerText 0 (s.reverse ++ seen) rest

namespace Flattens

variable {k : Nat} {t : Tree} {seen rest : Text}

private theorem ne_nil {s s' : Text} (h : Flattens k t seen s rest s') : s' ≠ [] := by
  rintro rfl
  obtain ⟨_, _, hnil, _⟩ := h.flattened.ends.1
  cases hnil

theorem word {w : Text} (hw : IsWord w) (hrest : ∀ c ∈ rest.head?, wordOr "." c = false) :
    Flattens k (.leaf w) seen w rest w where
  flattened := by
    rw [lexemes_of_word hw.1 hw.2]
    exact .word hw
  first c hc := isSoft_of_isWordChar (hw.2 c (List.mem_of_mem_head? hc))
  last c hc := isSoft_of_isWordChar (hw.2 c (List.mem_of_mem_getLast? hc))
  replaced := replaceFrom_power_word hw.2 hrest seen

theorem group {b₁ b₂ s s' : Text} (gap₁ : IsGap b₁) (gap₂ : IsGap b₂)
    (h : Flattens 0 t (b₁.reverse ++ '(' :: seen) s (b₂ ++ [')'] ++ rest) s') :
    Flattens k t seen ('(' :: (b₁ ++ s ++ b₂ ++ [')'])) rest ('(' :: (b₁ ++ (s' ++ (b₂ ++ [')'])))) := by
  refine ⟨?_, ?_, ?_, ?_⟩
  · rw [lexemes_group gap₁ gap₂]
    exact h.flattened.group
  · rintro c ⟨⟩
    decide
  · have hend : '(' :: (b₁ ++ (s' ++ (b₂ ++ [')']))) = '(' :: (b₁ ++ (s' ++ b₂)) ++ [')'] := by simp
    rw [hend, List.getLast?_concat]
    rintro c ⟨⟩
    decide
  · have hopen := replaceFrom_power_skip (b := '(' :: b₁)
      (List.forall_mem_cons.mpr ⟨by decide, ne_of_isGap gap₁ (by decide)⟩) seen (s ++ (b₂ ++ [')'] ++ rest))
    have hclose := replaceFrom_power_skip (b := b₂ ++ [')'])
      (List.forall_mem_append.mpr ⟨ne_of_isGap gap₂ (by decide), List.forall_mem_singleton.mpr (by decide)⟩)
      (s.reverse ++ (b₁.reverse ++ '(' :: seen)) rest
    have hinner := h.replaced
    simp only [List.cons_append, List.append_assoc, List.reverse_cons, List.reverse_append, List.nil_append,
      List.reverse_nil] at hopen hclose hinner ⊢
    rw [hopen, hinner, hclose]

private theorem binary {d : Char} {o : Op} {b₁ b₂ x y x' y' : Text} {l r : Tree} (gap₁ : IsGap b₁) (gap₂ : IsGap b₂)
    (sign : Convention.braces.ops [d] = some o) (level : k ≤ o.level)
    (left : Flattens o.level l seen x (b₁ ++ ([d] ++ b₂ ++ y ++ rest)) x')
    (right : Flattens (o.level + 1) r (b₂.reverse ++ d :: (b₁.reverse ++ (x.reverse ++ seen))) y rest y') :
    Flattens k (.node o l r) seen (x ++ (b₁ ++ [d] ++ b₂ ++ y)) rest (x' ++ (b₁ ++ d :: (b₂ ++ y'))) := by
  obtain ⟨_, ⟨⟩, hsign, hblank, _, hM, _⟩ := exists_sign sign
  refine ⟨?_, ?_, ?_, ?_⟩
  · rw [lexemes_around hblank gap₁ gap₂ (fun c hc => (joins_sign (left.last c hc) hsign).1)
      (fun c hc => (joins_sign (right.first c hc) hsign).2)]
    exact .binary sign level left.flattened right.flattened
  · rw [List.head?_append_of_ne_nil _ left.ne_nil]
    exact left.first
  · have hend : x' ++ (b₁ ++ d :: (b₂ ++ y')) = x' ++ (b₁ ++ d :: b₂) ++ y' := by simp
    rw [hend, List.getLast?_append_of_ne_nil _ right.ne_nil]
    exact right.last
  · have hskip := replaceFrom_power_skip (b := b₁ ++ d :: b₂)
      (List.forall_mem_append.mpr ⟨ne_of_isGap gap₁ (by decide), List.forall_mem_cons.mpr
        ⟨hM, ne_of_isGap gap₂ (by decide)⟩⟩) (x.reverse ++ seen) (y ++ rest)
    have hleft := left.replaced
    have hright := right.replaced
    simp only [List.cons_append, List.append_assoc, List.reverse_cons, List.reverse_append,
      List.nil_append] at hskip hleft hright ⊢
    rw [hleft, hskip, hright]

private theorem exists_power {b₁ b₂ b₃ b₄ x y : Text} {l r : Tree} (gap₁ : IsGap b₁) (gap₂ : IsGap b₂)
    (gap₃ : IsGap b₃) (gap₄ : IsGap b₄) (base : Written 0 x l) (exponent : Written 0 y r)
    (bare : '(' ∉ x ∧ '(' ∉ y) :
    ∃ s', Flattens k (.node .pow l r) seen (powerCall b₁ x b₂ b₃ y b₄) rest s' := by
  obtain ⟨hparse, hchars⟩ := base.parses bare.1
  obtain ⟨hparse', hchars'⟩ := exponent.parses bare.2
  have hcomma : isForeign ',' = true := by decide
  have hclass {s : Text} (hs : ∀ c ∈ s, isForeign c = false ∧ c ≠ ')') (hbare : '(' ∉ s) :
      ∀ c ∈ s, noneOf ",()" c = true ∧ noneOf "()" c = true := by
    intro c hc
    have hne : c ≠ ',' ∧ c ≠ '(' ∧ c ≠ ')' := by
      refine ⟨?_, fun h => hbare (h ▸ hc), (hs c hc).2⟩
      rintro rfl
      exact absurd (hs _ hc).1 (by simp [hcomma])
    simp [noneOf, hne]
  obtain ⟨u, v, hu, hv, hreplace⟩ := replaceFrom_powerCall gap₁ gap₂ gap₃ gap₄
    (fun c hc => (hclass hchars bare.1 c hc).1) (fun c hc => (hclass hchars' bare.2 c hc).2)
    ⟨base.ne_nil, exponent.ne_nil⟩ seen rest
  obtain ⟨hlexemes, hne, hfirst, hlast⟩ := base.of_trim (base.trim_eq ▸ hu)
  obtain ⟨hlexemes', hne', hfirst', hlast'⟩ := exponent.of_trim (exponent.trim_eq ▸ hv)
  have hsign : '^' ∈ arithmeticSigns := by decide
  have htext : u ++ " ^ ".toList ++ v = u ++ ([' '] ++ '^' :: ([' '] ++ v)) := by simp
  have hspace : IsGap [' '] := List.forall_mem_singleton.mpr (by decide)
  refine ⟨u ++ " ^ ".toList ++ v, ?_, ?_, ?_, hreplace⟩
  · rw [htext, lexemes_around (by decide) hspace hspace (fun c hc => (joins_sign (hlast c hc) hsign).1)
      (fun c hc => (joins_sign (hfirst' c hc) hsign).2), hlexemes, hlexemes']
    exact .power hparse hparse' ⟨fun h => bare.1 (mem_of_mem_lexemes h (List.mem_singleton_self _)),
      fun h => bare.2 (mem_of_mem_lexemes h (List.mem_singleton_self _))⟩
  · rw [List.append_assoc, List.head?_append_of_ne_nil _ hne]
    exact hfirst
  · rw [List.getLast?_append_of_ne_nil _ hne']
    exact hlast'

end Flattens

theorem Written.exists_flattened {k : Nat} {s : Text} {t : Tree} (h : Written k s t) (seen : Text) {rest : Text}
    (hrest : ∀ c ∈ rest.head?, wordOr "." c = false) : ∃ s', Flattens k t seen s rest s' := by
  -- after an operand comes white space, a sign or a parenthesis, so the induction is for every such `rest`
  have hgap {b rest : Text} (hb : IsGap b) (hrest : ∀ c ∈ rest.head?, wordOr "." c = false) :
      ∀ c ∈ (b ++ rest).head?, wordOr "." c = false := by
    cases b with
    | nil => exact hrest
    | cons d b =>
      rintro _ ⟨⟩
      exact eq_false_of_isBlank (p := wordOr ".") (by decide +kernel) (hb d (by simp))
  induction h generalizing seen rest with
  | word hw => exact ⟨_, .word hw hrest⟩
  | @group _ b₁ b₂ _ _ gap₁ gap₂ _ ih =>
    have hclose : ∀ c ∈ (b₂ ++ [')'] ++ rest).head?, wordOr "." c = false := by
      rw [List.append_assoc]
      exact hgap gap₂ (by simpa using (by decide : wordOr "." ')' = false))
    obtain ⟨s', hinner⟩ := ih (b₁.reverse ++ '(' :: seen) hclose
    exact ⟨_, hinner.group gap₁ gap₂⟩
  | @binary _ _ _ b₁ b₂ x y _ _ gap₁ gap₂ sign level _ _ ihl ihr =>
    obtain ⟨d, rfl, _, _, hdot, _⟩ := exists_sign sign
    have hsign : ∀ c ∈ (b₁ ++ ([d] ++ b₂ ++ y ++ rest)).head?, wordOr "." c = false :=
      hgap gap₁ (by simpa using hdot)
    obtain ⟨x', hleft⟩ := ihl seen hsign
    obtain ⟨y', hright⟩ := ihr (b₂.reverse ++ d :: (b₁.reverse ++ (x.reverse ++ seen))) hrest
    exact ⟨_, .binary gap₁ gap₂ sign level hleft hright⟩
  | power gap₁ gap₂ gap₃ gap₄ base exponent bare _ _ =>
    exact Flattens.exists_power gap₁ gap₂ gap₃ gap₄ base exponent bare

/-! ### Spelling in a dialect -/

/-- Two characters that do not end a call, apart from one of the power function. -/
def NoOtherCall (c d : Char) : Prop := d = '(' → isWordChar c = true → c = 'w'

instance : DecidableRel NoOtherCall :=
  fun c d => inferInstanceAs (Decidable (d = '(' → isWordChar c = true → c = 'w'))

theorem isChain_of_bare {s : Text} (h : '(' ∉ s) : s.IsChain NoOtherCall := by
  induction s with
  | nil => exact .nil
  | cons c s ih =>
    refine List.isChain_cons.mpr ⟨?_, ih fun hs => h (List.mem_cons_of_mem c hs)⟩
    rintro d hd rfl
    exact absurd (List.mem_cons_of_mem c (List.mem_of_mem_head? hd)) h

theorem isChain_append_of_head {a b : Text} (ha : a.IsChain NoOtherCall) (hb : b.IsChain NoOtherCall)
    (h : ∀ c ∈ b.head?, c ≠ '(') : (a ++ b).IsChain NoOtherCall :=
  List.isChain_append.mpr ⟨ha, hb, fun _ _ d hd heq => absurd heq (h d hd)⟩

private theorem isChain_append_of_bare {a b : Text} (ha : a.IsChain NoOtherCall) (hb : '(' ∉ b) :
    (a ++ b).IsChain NoOtherCall := by
  refine isChain_append_of_head ha (isChain_of_bare hb) ?_
  rintro c hc rfl
  exact hb (List.mem_of_mem_head? hc)

private theorem isChain_cons_gap {c : Char} {b s : Text} (hc : isWordChar c = false) (hb : IsGap b)
    (hs : s.IsChain NoOtherCall) : (c :: (b ++ s)).IsChain NoOtherCall := by
  induction b generalizing c with
  | nil => exact List.isChain_cons.mpr ⟨fun d _ _ hw => by simp [hc] at hw, hs⟩
  | cons d b ih =>
    obtain ⟨hd, hb⟩ := List.forall_mem_cons.mp hb
    exact List.isChain_cons_cons.mpr ⟨fun _ hw => by simp [hc] at hw, ih (isWordChar_of_isBlank hd) hb⟩

private theorem plain_of_isForeign {c : Char} (h : isForeign c = false) : isQuote c = false ∧ c ≠ '[' := by
  have hquotes : isForeign '"' = true ∧ isForeign '\'' = true ∧ isForeign '[' = true := by decide
  have hne {d : Char} (hd : isForeign d = true) : c ≠ d := by
    rintro rfl
    simp [h] at hd
  simp [isQuote, hne hquotes.1, hne hquotes.2.1, hne hquotes.2.2]

namespace Written

variable {k : Nat} {s : Text} {t : Tree}

private theorem no_quotes (h : Written k s t) : ∀ c ∈ s, isQuote c = false ∧ c ≠ '[' := by
  have hgap {b : Text} (hb : IsGap b) : ∀ c ∈ b, isQuote c = false ∧ c ≠ '[' :=
    fun c hc => plain_of_isForeign (isForeign_of_isBlank (hb c hc))
  induction h with
  | word hw => exact fun c hc => plain_of_isForeign (isForeign_of_isWordChar (hw.2 c hc))
  | group gap₁ gap₂ _ ih =>
    simp only [List.forall_mem_cons, List.forall_mem_append]
    exact ⟨by decide, ⟨⟨hgap gap₁, ih⟩, hgap gap₂⟩, by decide, List.forall_mem_nil _⟩
  | binary gap₁ gap₂ sign _ _ _ ihl ihr =>
    obtain ⟨d, rfl, hsign, _⟩ := exists_sign sign
    simp only [List.forall_mem_append, List.forall_mem_singleton]
    exact ⟨ihl, ⟨⟨hgap gap₁, plain_of_isForeign (by simp [isForeign, hsign])⟩, hgap gap₂⟩, ihr⟩
  | power gap₁ gap₂ gap₃ gap₄ _ _ _ ihl ihr =>
    have hletters : powerLead.all (fun c => !isQuote c && c != '[') = true := by decide
    have hlead : ∀ c ∈ powerLead, isQuote c = false ∧ c ≠ '[' := by simpa using hletters
    simp only [powerCall, List.forall_mem_append, List.forall_mem_cons]
    exact ⟨hlead, ⟨⟨hgap gap₁, ihl⟩, hgap gap₂⟩, by decide, ⟨⟨hgap gap₃, ihr⟩, hgap gap₄⟩, by decide,
      List.forall_mem_nil _⟩

private theorem isChain (h : Written k s t) : s.IsChain NoOtherCall := by
  have hopen {b : Text} (hb : IsGap b) : '(' ∉ b := fun h => ne_of_isGap hb (by decide) _ h rfl
  induction h with
  | word hw => exact isChain_of_bare fun h => absurd (hw.2 _ h) (by decide)
  | group gap₁ gap₂ _ ih =>
    rw [List.append_assoc, List.append_assoc]
    refine isChain_cons_gap (by decide) gap₁ (isChain_append_of_bare ih ?_)
    simpa using hopen gap₂
  | @binary _ op o b₁ b₂ x y _ _ gap₁ gap₂ sign _ _ _ ihl ihr =>
    obtain ⟨d, rfl, _, _, hdot, _, _, hparen, _⟩ := exists_sign sign
    have hword : isWordChar d = false := by
      simp only [wordOr, Bool.or_eq_false_iff] at hdot
      exact hdot.1
    have htext : x ++ (b₁ ++ [d] ++ b₂ ++ y) = x ++ b₁ ++ d :: (b₂ ++ y) := by simp
    rw [htext]
    refine isChain_append_of_head (isChain_append_of_bare ihl (hopen gap₁)) (isChain_cons_gap hword gap₂ ihr) ?_
    rintro c ⟨⟩
    exact hparen
  | @power _ b₁ b₂ b₃ b₄ x y _ _ gap₁ gap₂ gap₃ gap₄ _ _ bare _ _ =>
    have hlead : powerLead.IsChain NoOtherCall := by decide
    refine isChain_append_of_bare hlead ?_
    simp [hopen gap₁, hopen gap₂, hopen gap₃, hopen gap₄, bare]

theorem chars (h : Written k s t) :
    (∀ c ∈ s, isQuote c = false ∧ c ≠ '[') ∧ s.IsChain NoOtherCall :=
  ⟨h.no_quotes, h.isChain⟩

end Written

theorem Flattened.plain {k : Nat} {s : Text} {t : Tree} (h : Flattened k (lexemes s) t)
    (hwords : ∀ w ∈ reserved .braces, w ∉ t.words) : Plain (reserved .braces) s := by
  have hall : ∀ l ∈ ['('] :: [')'] :: "^".toList :: Convention.braces.signs.map Prod.fst,
      l.any isForeign = false ∧ l ∉ reserved .braces := by
    decide
  have hsign {l : Text} (hl : l = ['('] ∨ l = [')'] ∨ ∃ o, powerOps l = some o) :
      (∀ c ∈ l, isForeign c = false) ∧ l ∉ reserved .braces := by
    have hmem : l ∈ ['('] :: [')'] :: "^".toList :: Convention.braces.signs.map Prod.fst := by
      rcases hl with rfl | rfl | ⟨o, ho⟩
      · simp
      · simp
      · unfold powerOps at ho
        split at ho
        · next hl => simp [hl]
        · exact List.mem_cons_of_mem _ (List.mem_cons_of_mem _ (List.mem_cons_of_mem _
            (Convention.ops_plain ho)))
    simpa using hall l hmem
  refine plain_of_lexemes (fun l hl => ?_) (fun w hw hm => ?_) h.isChain
  · rcases h.mem_cases hl with ⟨_, hword⟩ | hl
    · exact .inl hword
    · exact .inr (hsign hl).1
  · rcases h.mem_cases hm with ⟨hmem, _⟩ | hl
    · exact hwords w hw hmem
    · exact (hsign hl).2 hw

private theorem respellCode_of_flattened {st : Setting} (hst : st.convention = .braces) {s s' : Text}
    (hs : trim s ≠ []) (hs' : trim s' ≠ []) (hplain : Plain (reserved .braces) s')
    (hpower : Setting.power.replace powerText s = s') : st.respellCode s = st.respellCode s' := by
  have hsame : Setting.javaArithmetic s = Setting.javaArithmetic s' := by
    simp only [Setting.javaArithmetic]
    rw [hplain.replace_eq (p := Setting.power) (by decide), ← hpower]
    rfl
  have hpython : st.isPython = false := by simp [Setting.isPython, hst]
  have hempty {s : Text} (hs : trim s ≠ []) : (trim s).isEmpty = false := by simpa using hs
  rw [Setting.respellCode, Setting.respellCode, hempty hs, hempty hs', hpython]
  simp only [Bool.false_eq_true, if_false]
  rw [hsame]

private theorem carriesSigns_powerOps (d : Dialect) :
    CarriesSigns powerOps d.style.ops (spell d.style .braces) := by
  have hbraces := carriesSigns_spell d .braces
  refine ⟨fun s o hs => ?_, hbraces.word, hbraces.opening, hbraces.closing⟩
  unfold powerOps at hs
  split at hs
  · next heq =>
    subst heq
    obtain rfl := Option.some.inj hs
    cases d <;> decide
  · exact hbraces.sign s o hs

theorem eq_of_ops_pow {style : Style} {s : Text} (h : style.ops s = some .pow) :
    s = "^".toList := by
  obtain ⟨before, after, heq, _⟩ := List.lookup_eq_some_iff.mp h
  have hmem : (s, Op.pow) ∈ before ++ (s, Op.pow) :: after := by simp
  rw [← heq] at hmem
  simpa using hmem

private theorem PowersApart.map {ts : List Text} (h : PowersApart ts) {f : Text → Text}
    (hf : ∀ l, IsWord l → IsWord (f l)) (hpower : ∀ l, f l = "^".toList → l = "^".toList) :
    PowersApart (ts.map f) := by
  refine ⟨?_, fun w hw => ?_⟩
  · rw [List.isChain_map]
    exact h.beside.imp fun a b hab => ⟨fun hb => hf a (hab.1 (hpower b hb)), fun ha => hf b (hab.2 (hpower a ha))⟩
  · obtain ⟨us, hus, heq⟩ := List.infix_map_iff.mp hw
    obtain ⟨a, b, c, rfl⟩ := List.length_eq_three.mp (by simpa using (congrArg List.length heq).symm)
    simp only [List.map_cons, List.map_nil, List.cons.injEq, and_true] at heq
    obtain ⟨ha, _, hc⟩ := heq
    rw [hpower a ha.symm, hpower c hc.symm] at hus
    exact h.apart b hus

/-- An expression with calls of the power function, in the brace convention, has the meaning of its source
in every dialect exactly if the arguments of all these calls are single words. No reserved word and no
variable that is noted as a string may take part. -/
theorem power_calls_denote (d : Dialect) (symbols : Symbols) {e : Text} {t : Tree}
    (he : Written 0 (trim e) t) (hwords : ∀ w ∈ reserved .braces, w ∉ t.words)
    (hstrings : ∀ p, symbols.notes.isString p = true → ∃ l ∈ lexemes p, l ∉ lexemes e) :
    Denotes d.style.ops (Setting.expr ⟨d.style, .braces, symbols⟩ e) t ↔ t.PowersOfWords := by
  have hchars := he.chars
  have htrim : trim (trim e) ≠ [] := he.trim_eq.symm ▸ he.ne_nil
  have hend : ∀ c ∈ ([] : Text).head?, wordOr "." c = false := fun c hc => by cases hc
  obtain ⟨s', hflat, _, _, hreplace⟩ := he.exists_flattened [] hend
  rw [List.append_nil, replaceFrom_nil, List.append_nil] at hreplace
  have hplain := hflat.plain hwords
  have hne : lexemes s' ≠ [] := by
    obtain ⟨w, us, hlexemes, _⟩ := hflat.ends.1
    rw [hlexemes]
    exact List.cons_ne_nil w us
  have hne' : trim s' ≠ [] := fun h => hne (by rw [← lexemes_trim, h, lexemes_nil])
  have hcalls : ∀ w ∈ conversionEnds, ¬ w <:+: trim e := by
    have hends : ∀ w ∈ conversionEnds, ¬ w.IsChain NoOtherCall := by decide
    intro w hw hinfix
    exact hends w hw <| List.IsChain.infix hchars.2 hinfix
  have hexpr : Setting.expr ⟨d.style, .braces, symbols⟩ e = spellAll ⟨d.style, .braces, symbols⟩ s' := by
    rw [expr_eq_respellCode hchars.1 hcalls hstrings,
      respellCode_of_flattened rfl htrim hne' hplain hreplace, respellCode_eq (d := d) rfl hplain hne]
  have hlexemes : lexemes (Setting.expr ⟨d.style, .braces, symbols⟩ e) =
      (lexemes s').map (spell d.style .braces) := by
    rw [hexpr, lexemes_spellAll (d := d) rfl]
  have hword (l : Text) (hl : IsWord l) : IsWord (spell d.style .braces l) := by
    rwa [(carriesSigns_powerOps d).word l hl]
  have hpower (l : Text) (hl : spell d.style .braces l = "^".toList) : l = "^".toList := by
    have hmod : d.style.keyword .modWord ≠ "^".toList := by cases d <;> decide
    simp only [spell] at hl
    split at hl
    · exact absurd hl hmod
    · simpa using hl
  rw [Denotes, hlexemes]
  constructor
  · exact fun h => h.powersOfWords (fun s hs => eq_of_ops_pow hs) (hflat.powersApart.map hword hpower)
  · exact fun h => (hflat.parses (by decide) h).respell (carriesSigns_powerOps d)

/-- A power of words keeps its place in a product and a difference. -/
theorem power_calls_denote_operand :
    let e : Text := " x - y * Math.pow(a, 2)"
    let t : Tree := .node .sub (.leaf "x") (.node .mul (.leaf "y") (.node .pow (.leaf "a") (.leaf "2")))
    Written 0 (trim e) t ∧ t.PowersOfWords ∧
      Denotes Style.cambridge.ops (Setting.expr ⟨.cambridge, .braces, {}⟩ e) t := by
  intro e t
  have hgap : IsGap [] ∧ IsGap [' '] := ⟨List.forall_mem_nil _, List.forall_mem_singleton.mpr (by decide)⟩
  have hminus : Convention.braces.ops "-" = some .sub := by decide
  have htimes : Convention.braces.ops "*" = some .mul := by decide
  have hwritten : Written 0 (trim e) t :=
    .binary (x := "x") hgap.2 hgap.2 hminus (by decide) (.word (by decide))
      (.binary (x := "y") hgap.2 hgap.2 htimes (by decide) (.word (by decide))
        (.power (x := "a") (y := "2") hgap.1 hgap.1 hgap.2 hgap.1 (.word (by decide)) (.word (by decide))
          (by decide)))
  have hpowers : t.PowersOfWords := by simp [t, Tree.PowersOfWords]
  exact ⟨hwritten, hpowers,
    (power_calls_denote .cambridge {} hwritten (by decide) (fun p hp => by cases hp)).mpr hpowers⟩

/-- The power of a sum is torn apart. -/
theorem power_call_regroups :
    let t : Tree := .node .pow (.node .add (.leaf "a") (.leaf "b")) (.leaf "c")
    Written 0 "Math.pow(a + b, c)" t ∧
      Setting.expr ⟨.cambridge, .braces, {}⟩ "Math.pow(a + b, c)" = "a + b ^ c".toList ∧
      ¬ Denotes Style.cambridge.ops "a + b ^ c" t := by
  intro t
  have hgap : IsGap [] ∧ IsGap [' '] := ⟨List.forall_mem_nil _, List.forall_mem_singleton.mpr (by decide)⟩
  have hplus : Convention.braces.ops "+" = some .add := by decide
  refine ⟨?_, by decide +kernel, fun h => ?_⟩
  · exact .power (x := "a + b") (y := "c") hgap.1 hgap.1 hgap.2 hgap.1
      (.binary (x := "a") (y := "b") hgap.2 hgap.2 hplus (by decide) (.word (by decide))
        (.word (by decide))) (.word (by decide)) (by decide)
  · have hlexemes : lexemes "a + b ^ c" = [['a'], ['+'], ['b'], ['^'], ['c']] := by decide
    rw [Denotes, hlexemes] at h
    have hflat : Flattened 0 [['a'], ['+'], ['b'], ['^'], ['c']] t :=
      .power (a := [['a'], ['+'], ['b']]) (b := [['c']])
        (.binary (a := [['a']]) (b := [['b']]) (s := ['+']) (by decide) (by decide) (.word (by decide))
          (.word (by decide))) (.word (by decide)) (by decide)
    have hpowers := (h.powersOfWords (fun s hs => eq_of_ops_pow hs) hflat.powersApart).1 rfl
    simp at hpowers

end Pseudocode.Arithmetic
