import Mathlib.Data.List.Forall2
import Mathlib.Logic.Function.Basic
import Pseudocode.Proofs.VariableValues

/-! # Tuple assignments

The assignments that are written for a tuple assignment are executed one after another, where the values of
a tuple are all taken before the first target changes. Variables that a later value reads are saved for this
reason. Every target then gets the value that its expression had at first, for every way to evaluate
expressions. -/

namespace Pseudocode

namespace Text

/-! ### Pieces between commas -/

theorem pieces_append {sep : Char} {b : Text} (hb : sep ∉ b) (s : Text) :
    ∃ ps p, pieces sep s = ps ++ [p] ∧ pieces sep (s ++ b) = ps ++ [p ++ b] := by
  induction s with
  | nil =>
    refine ⟨[], [], rfl, ?_⟩
    induction b with
    | nil => rfl
    | cons c b ih =>
      rw [List.mem_cons, not_or] at hb
      rw [List.nil_append] at ih ⊢
      rw [pieces, if_neg (Ne.symm hb.1), ih hb.2]
      rfl
  | cons c s ih =>
    obtain ⟨ps, p, hs, hsb⟩ := ih
    rw [List.cons_append, pieces, pieces]
    split
    · exact ⟨[] :: ps, p, by rw [hs]; rfl, by rw [hsb]; rfl⟩
    · rw [hs, hsb]
      cases ps with
      | nil => exact ⟨[], c :: p, rfl, rfl⟩
      | cons q ps => exact ⟨(c :: q) :: ps, p, rfl, rfl⟩

theorem exists_mem_pieces {sep c : Char} (hc : c ≠ sep) {s : Text} (h : c ∈ s) :
    ∃ p ∈ pieces sep s, c ∈ p := by
  induction s with
  | nil => cases h
  | cons d s ih =>
    rw [pieces]
    split
    · next hd =>
      obtain ⟨p, hp, hcp⟩ := ih ((List.mem_cons.mp h).resolve_left fun heq => hc (heq.trans hd))
      exact ⟨p, List.mem_cons_of_mem _ hp, hcp⟩
    · split
      · next q qs hq =>
        rcases List.mem_cons.mp h with rfl | h
        · exact ⟨c :: q, by simp, by simp⟩
        · obtain ⟨p, hp, hcp⟩ := ih h
          rcases List.mem_cons.mp (hq ▸ hp) with rfl | hp
          · exact ⟨d :: p, by simp, by simp [hcp]⟩
          · exact ⟨p, by simp [hp], hcp⟩
      · next hq =>
        obtain ⟨ps, p, hs, -⟩ := pieces_append (b := []) (List.not_mem_nil (a := sep)) s
        simp [hq] at hs

end Text

namespace Indented

open Text Pattern

/-! ### Execution -/

/-- A way to evaluate expressions. A value depends on the variables that occur in an expression, and a variable may
be read under the name that it is saved under. -/
structure Evaluation (V : Type*) where
  value : Text → (Text → V) → V
  depends {e : Text} {env env' : Text → V} (h : ∀ x, Occurs x e → env x = env' x) :
    value e env = value e env'
  renamed {x e : Text} (env : Text → V) (hx : Name.isIdentifier x = true) (hfresh : ¬ Occurs (savedName x) e) :
    value (rename x (savedName x) e) env = value e (Function.update env x (env (savedName x)))

/-- One of the assignments that are written for a tuple assignment. -/
inductive Step where
  | save (var : Text)
  | assign (target value : Text)

/-- The line of a step. The value is translated with what is noted by then. -/
def Step.Shown (cx : Context) : Step → Text → Prop
  | .save var, line => line = cx.assign (savedName var) var
  | .assign target value, line => ∃ notes, line = cx.assign target ((cx.withNotes notes).expr value)

variable {V : Type*}

/-- The variables after a step. -/
def Step.exec (E : Evaluation V) (env : Text → V) : Step → Text → V
  | .save var => Function.update env (savedName var) (env var)
  | .assign target value => Function.update env target (E.value value env)

/-- The variables after one step after another. -/
def execAll (E : Evaluation V) (env : Text → V) (steps : List Step) : Text → V :=
  steps.foldl (Step.exec E) env

/-- A value with the saved variables under their new names. -/
def withSaved (saved : List Text) (value : Text) : Text :=
  saved.foldl (fun v t => rename t (savedName t) v) value

def assignSteps (saved targets values : List Text) : List Step :=
  (targets.zip values).map fun p => .assign p.1 (withSaved saved p.2)

/-- The steps of a tuple assignment: variables are saved, then each target gets its value. -/
def tupleSteps (targets values : List Text) : List Step :=
  (savedTargets targets values).map .save ++ assignSteps (savedTargets targets values) targets values

/-- A text of the form `t₁, …, tₙ = v₁, …, vₙ`. -/
def IsTuple (code : Text) (targets values : List Text) : Prop :=
  ∃ left right, code = left ++ '=' :: right ∧ targets = (pieces ',' left).map trim ∧
    values = splitTopLevel ',' right

/-! ### Names -/

theorem isIdentifier_savedName {x : Text} (h : Name.isIdentifier x = true) :
    Name.isIdentifier (savedName x) = true := by
  have hlead : ("emp_".toList ++ x).all isNameChar = true := by
    rw [List.all_append, List.all_eq_true.mpr (Name.isNameChar_of_mem h)]
    decide
  change ((isLetter 't' || 't' == '_') && ("emp_".toList ++ x).all isNameChar) = true
  rw [hlead]
  decide

theorem savedName_inj {x y : Text} (h : savedName x = savedName y) : x = y := List.append_cancel_left h

theorem savedTargets_subset (targets values : List Text) : savedTargets targets values ⊆ targets := by
  fun_induction savedTargets targets values with
  | case1 t ts v vs _ ih => exact List.cons_subset_cons t ih
  | case2 t ts v vs _ ih => exact List.Subset.trans ih (List.subset_cons_self t ts)
  | case3 => exact List.nil_subset _

/-! ### Saved variables -/

/-- The saved variables can be told from their new names. -/
structure Saves (saved : List Text) : Prop where
  isIdentifier : ∀ s ∈ saved, Name.isIdentifier s = true
  fresh : ∀ s ∈ saved, savedName s ∉ saved

theorem Saves.tail {s : Text} {saved : List Text} (h : Saves (s :: saved)) : Saves saved where
  isIdentifier := (List.forall_mem_cons.mp h.isIdentifier).2
  fresh r hr hmem := h.fresh r (List.mem_cons_of_mem s hr) (List.mem_cons_of_mem s hmem)

theorem Saves.savedName_ne {r s : Text} {saved : List Text} (h : Saves saved) (hr : r ∈ saved) (hs : s ∈ saved) :
    savedName r ≠ s := by
  rintro rfl
  exact h.fresh r hr hs

/-- The variables where those that are saved have their saved values. -/
def restored (saved : List Text) (env : Text → V) (x : Text) : V :=
  if x ∈ saved then env (savedName x) else env x

theorem value_withSaved (E : Evaluation V) {saved : List Text} (hsaves : Saves saved) {e : Text}
    (hfresh : ∀ s ∈ saved, Occurs (savedName s) e → ¬ Occurs s e) (env : Text → V) :
    E.value (withSaved saved e) env = E.value e (restored saved env) := by
  induction saved generalizing e with
  | nil => rfl
  | cons s saved ih =>
    have hs := hsaves.isIdentifier s (by simp)
    have hword := isWord_of_isIdentifier hs
    have hname := isIdentifier_savedName hs
    have hoccurs {z : Text} := occurs_of_rename (z := z) (e := e) hword (isWord_of_isIdentifier hname)
    have htail : ∀ r ∈ saved, Occurs (savedName r) (rename s (savedName s) e) →
        ¬ Occurs r (rename s (savedName s) e) := by
      intro r hr hnew hold
      have hne : r ≠ s ∧ Occurs r e :=
        (hoccurs hold).resolve_left fun h => hsaves.savedName_ne (by simp) (by simp [hr]) h.symm
      rcases hoccurs hnew with heq | ⟨-, hnew⟩
      · exact hne.1 (savedName_inj heq)
      · exact hfresh r (by simp [hr]) hnew hne.2
    have hagree {x : Text} (hx : x ≠ s) : restored saved env x = restored (s :: saved) env x := by
      simp [restored, hx]
    refine (ih hsaves.tail htail).trans ?_
    by_cases hnew : Occurs (savedName s) e
    · have hgone := hfresh s (by simp) hnew
      rw [rename_of_not_occurs hword _ hgone]
      exact E.depends fun x hx => hagree fun heq => hgone (heq ▸ hx)
    · rw [E.renamed _ hs hnew]
      refine congrArg (E.value e) (funext fun x => ?_)
      by_cases hx : x = s
      · have hnot : savedName s ∉ saved := fun h => hsaves.fresh s (by simp) (by simp [h])
        rw [hx, Function.update_self]
        simp [restored, hnot]
      · rw [Function.update_of_ne hx, hagree hx]

theorem execAll_save (E : Evaluation V) {saved : List Text} (hsaves : Saves saved) (env : Text → V) :
    (∀ s ∈ saved, execAll E env (saved.map .save) (savedName s) = env s) ∧
      ∀ x, x ∉ saved.map savedName → execAll E env (saved.map .save) x = env x := by
  induction saved generalizing env with
  | nil => exact ⟨List.forall_mem_nil _, fun _ _ => rfl⟩
  | cons s saved ih =>
    obtain ⟨hkept, hother⟩ := ih hsaves.tail (Function.update env (savedName s) (env s))
    have hupdate {r : Text} (hr : r ∈ s :: saved) : Function.update env (savedName s) (env s) r = env r :=
      Function.update_of_ne (hsaves.savedName_ne (by simp) hr).symm _ _
    refine ⟨List.forall_mem_cons.mpr ⟨?_, fun r hr => ?_⟩, fun x hx => ?_⟩
    · by_cases hs : s ∈ saved
      · exact (hkept s hs).trans (hupdate (by simp))
      · have hnew : savedName s ∉ saved.map savedName := by
          intro h
          obtain ⟨r, hr, heq⟩ := List.mem_map.mp h
          exact hs (savedName_inj heq ▸ hr)
        exact (hother _ hnew).trans (Function.update_self _ _ _)
    · exact (hkept r hr).trans (hupdate (by simp [hr]))
    · rw [List.map_cons, List.mem_cons, not_or] at hx
      exact (hother x hx.2).trans (Function.update_of_ne hx.1 _ _)

/-! ### Assignments one after another -/

/-- With `env` the values that variables have with `env₀` can still be found: those of saved variables under their
new names, and of the others those that some expressions read. -/
structure Recalls (saved values : List Text) (env₀ env : Text → V) : Prop where
  kept : ∀ s ∈ saved, env (savedName s) = env₀ s
  others : ∀ v ∈ values, ∀ x, Occurs x v → x ∉ saved → env x = env₀ x

section

variable {saved values : List Text} {env₀ env : Text → V}

private theorem Recalls.value (h : Recalls saved values env₀ env) (E : Evaluation V) (hsaves : Saves saved) {v : Text}
    (hv : v ∈ values) (hfresh : ∀ s ∈ saved, ¬ Occurs (savedName s) v) :
    E.value (withSaved saved v) env = E.value v env₀ := by
  rw [value_withSaved E hsaves fun s hs hocc => absurd hocc (hfresh s hs)]
  refine E.depends fun x hx => ?_
  unfold restored
  split
  · next hmem => exact h.kept x hmem
  · next hmem => exact h.others v hv x hx hmem

private theorem Recalls.assign {t v : Text} {ts : List Text} (h : Recalls saved (v :: values) env₀ env)
    (ht : Name.isIdentifier t = true) (hsaved : savedTargets (t :: ts) (v :: values) ⊆ saved)
    (hapart : ∀ s ∈ saved, savedName s ≠ t) (a : V) : Recalls saved values env₀ (Function.update env t a) := by
  refine ⟨fun s hs => ?_, fun w hw x hx hmem => ?_⟩
  · rw [Function.update_of_ne (hapart s hs)]
    exact h.kept s hs
  · have hne : x ≠ t := by
      rintro rfl
      have hany : values.any (reads · x) = true :=
        List.any_eq_true.mpr ⟨w, hw, (reads_iff_occurs (isWord_of_isIdentifier ht)).mpr hx⟩
      refine hmem (hsaved ?_)
      rw [savedTargets, if_pos hany]
      exact List.mem_cons_self
    rw [Function.update_of_ne hne]
    exact h.others w (List.mem_cons_of_mem v hw) x hx hmem

end

private theorem savedTargets_subset_cons (t v : Text) (ts vs : List Text) :
    savedTargets ts vs ⊆ savedTargets (t :: ts) (v :: vs) := by
  rw [savedTargets]
  split
  · exact List.subset_cons_self _ _
  · exact List.Subset.refl _

theorem execAll_assignSteps (E : Evaluation V) {saved : List Text} (hsaves : Saves saved) (env₀ : Text → V)
    {targets values : List Text} (hlength : targets.length = values.length)
    (hid : ∀ t ∈ targets, Name.isIdentifier t = true) (hsaved : savedTargets targets values ⊆ saved)
    (hapart : ∀ s ∈ saved, savedName s ∉ targets) (hfresh : ∀ s ∈ saved, ∀ v ∈ values, ¬ Occurs (savedName s) v)
    {env : Text → V} (hold : ∀ s ∈ saved, env (savedName s) = env₀ s)
    (hread : ∀ v ∈ values, ∀ x, Occurs x v → x ∉ saved → env x = env₀ x) :
    (∀ i t, targets[i]? = some t → t ∉ targets.drop (i + 1) →
        ∃ v, values[i]? = some v ∧ execAll E env (assignSteps saved targets values) t = E.value v env₀) ∧
      ∀ x, x ∉ targets → execAll E env (assignSteps saved targets values) x = env x := by
  have hrecalls : Recalls saved values env₀ env := ⟨hold, hread⟩
  clear hold hread
  induction targets generalizing values env with
  | nil => exact ⟨by simp, fun _ _ => rfl⟩
  | cons t ts ih =>
    cases values with
    | nil => cases hlength
    | cons v vs =>
      obtain ⟨ht, hid⟩ := List.forall_mem_cons.mp hid
      have hvalue := hrecalls.value E hsaves List.mem_cons_self fun s hs => hfresh s hs v List.mem_cons_self
      have hnext := hrecalls.assign ht hsaved (fun s hs h => hapart s hs (by simp [h])) (E.value v env₀)
      have hsaved := List.Subset.trans (savedTargets_subset_cons t v ts vs) hsaved
      obtain ⟨hvalues, hother⟩ := ih (Nat.succ.inj hlength) hid hsaved
        (fun s hs h => hapart s hs (List.mem_cons_of_mem t h))
        (fun s hs w hw => hfresh s hs w (List.mem_cons_of_mem v hw)) hnext
      have hstep : execAll E env (assignSteps saved (t :: ts) (v :: vs)) =
          execAll E (Function.update env t (E.value v env₀)) (assignSteps saved ts vs) := by
        rw [← hvalue]
        rfl
      rw [hstep]
      refine ⟨fun i t' hi hlast => ?_, fun x hx => ?_⟩
      · cases i with
        | zero =>
          obtain rfl : t = t' := by simpa using hi
          refine ⟨v, rfl, ?_⟩
          rw [hother t (by simpa using hlast), Function.update_self]
        | succ i => simpa using hvalues i t' (by simpa using hi) (by simpa using hlast)
      · rw [List.mem_cons, not_or] at hx
        rw [hother x hx.2, Function.update_of_ne hx.1]

/-! ### What is written -/

private theorem shown_assignEach (saved : List Text) (cx : Context) (targets values : List Text) :
    List.Forall₂ (Step.Shown cx) (assignSteps saved targets values)
      (assignEach saved cx (targets.zip values)).1 := by
  unfold assignSteps
  induction targets.zip values generalizing cx with
  | nil => exact .nil
  | cons p ps ih =>
    refine .cons ⟨_, rfl⟩ ?_
    refine (ih _).imp fun step line h => ?_
    cases step with
    | save => exact h
    | assign => exact h

private theorem equals_not_mem {left : Text} (hid : ∀ t ∈ (pieces ',' left).map trim, Name.isIdentifier t = true) :
    '=' ∉ left := by
  intro hmem
  have hcomma : '=' ≠ ',' := by decide
  obtain ⟨p, hp, hmem⟩ := exists_mem_pieces hcomma hmem
  obtain ⟨b₁, b₂, heq, hb₁, hb₂⟩ := exists_trim p
  rw [heq, List.mem_append, List.mem_append] at hmem
  rcases hmem with hmem | hmem | hmem
  · exact absurd (hb₁ _ hmem) (by decide)
  · exact absurd (Name.isNameChar_of_mem (hid _ (List.mem_map_of_mem hp)) _ hmem) (by decide)
  · exact absurd (hb₂ _ hmem) (by decide)

private theorem groups_of_multiplePattern {code left right : Text} {m : Match}
    (hm : multiplePattern.whole? code = some m)
    (hcode : code = left ++ '=' :: right) (hleft : '=' ∉ left) :
    (pieces ',' (m.group 1)).map trim = (pieces ',' left).map trim ∧
      splitTopLevel ',' (m.group 2) = splitTopLevel ',' right := by
  obtain ⟨_, v, _, _, hs, hg, h₁, hv⟩ := reads_append.mp (reads_of_whole? hm)
  obtain ⟨_, b₂, _, _, rfl, rfl, h₂, hgap₂⟩ := reads_append.mp h₁
  obtain ⟨_, _, _, _, rfl, rfl, h₃, hsign⟩ := reads_append.mp h₂
  obtain ⟨t, b₁, _, _, rfl, rfl, ht, hgap₁⟩ := reads_append.mp h₃
  obtain ⟨_, rfl, htargets⟩ := reads_group.mp ht
  obtain ⟨_, rfl, hvalues⟩ := reads_group.mp hv
  obtain ⟨_, _, rfl⟩ := reads_most1.mp hvalues
  obtain ⟨rfl, rfl⟩ := reads_text.mp hsign
  obtain ⟨hb₁, rfl⟩ := reads_most.mp hgap₁
  obtain ⟨hb₂, rfl⟩ := reads_most.mp hgap₂
  have hblank {b : Text} (hb : ∀ c ∈ b, isBlank c = true) {c : Char} (hc : isBlank c = false) : c ∉ b :=
    fun h => by simp [hb c h] at hc
  have hnot : '=' ∉ t ++ b₁ := by
    simp [htargets.avoids (c := '=') (by decide), hblank hb₁ (c := '=') (by decide)]
  obtain ⟨rfl, rfl⟩ : left = t ++ b₁ ∧ right = b₂ ++ v :=
    eq_of_first hleft hnot (by rw [← hcode, hs]; simp)
  have hgroups : m.group 1 = t ∧ m.group 2 = v := by
    simp [Match.group, Match.group?, hg, List.lookup_cons]
  rw [hgroups.1, hgroups.2]
  constructor
  · obtain ⟨ps, p, hps, hpsb⟩ := pieces_append (hblank hb₁ (c := ',') (by decide)) t
    rw [hps, hpsb]
    simp [trim_append_right hb₁]
  · have hplain : ∀ c ∈ b₂, isQuote c = false ∧ bracketWeight c = 0 :=
      fun c hc => ⟨isQuote_of_isBlank (hb₂ c hc), bracketWeight_of_isBlank (hb₂ c hc)⟩
    simp only [splitTopLevel, splitFrom_append hplain (hblank hb₂ (c := ',') (by decide)), trim_append_left hb₂]

private theorem shown_of_multipleRule {cx : Context} {code : Text} {o : Outcome} {targets values : List Text}
    (h : multipleRule cx code = some o) (hcode : IsTuple code targets values)
    (hid : ∀ t ∈ targets, Name.isIdentifier t = true) :
    targets.length = values.length ∧ List.Forall₂ (Step.Shown cx) (tupleSteps targets values) o.lines := by
  obtain ⟨left, right, htext, rfl, rfl⟩ := hcode
  rw [computes_multipleRule.apply_eq] at h
  obtain ⟨m, hm, hrule⟩ := Option.bind_eq_some_iff.mp h
  obtain ⟨hleft, hright⟩ := groups_of_multiplePattern hm htext (equals_not_mem hid)
  rw [hleft, hright] at hrule
  generalize (pieces ',' left).map trim = targets at hrule ⊢
  generalize splitTopLevel ',' right = values at hrule ⊢
  obtain ⟨_, hguard, hlines⟩ := Option.bind_eq_some_iff.mp hrule
  have hlength : targets.length = values.length := (Option.guard_eq_some' _).mp hguard
  refine ⟨hlength, ?_⟩
  rw [← Option.some.inj hlines]
  refine List.rel_append ?_ (shown_assignEach _ cx targets values)
  exact List.forall₂_map_left_iff.mpr (List.forall₂_map_right_iff.mpr (List.forall₂_same.mpr fun _ _ => rfl))

/-- Executed one after another, the assignments that are written for a tuple assignment give every target the
value that its expression had at first, the last one if a target is repeated. Besides the targets only
variables under which targets are saved change. -/
theorem tuple_assignments_keep_values (E : Evaluation V) {cx : Context} {code : Text} {o : Outcome}
    {targets values : List Text} (hrule : multipleRule cx code = some o) (hcode : IsTuple code targets values)
    (hid : ∀ t ∈ targets, Name.isIdentifier t = true)
    (hfresh : ∀ t ∈ targets, savedName t ∉ targets ∧ ∀ v ∈ values, ¬ Occurs (savedName t) v) (env : Text → V) :
    List.Forall₂ (Step.Shown cx) (tupleSteps targets values) o.lines ∧
      (∀ i t, targets[i]? = some t → t ∉ targets.drop (i + 1) →
        ∃ v, values[i]? = some v ∧ execAll E env (tupleSteps targets values) t = E.value v env) ∧
      ∀ x, x ∉ targets → x ∉ targets.map savedName → execAll E env (tupleSteps targets values) x = env x := by
  obtain ⟨hlength, hshown⟩ := shown_of_multipleRule hrule hcode hid
  have hsub := savedTargets_subset targets values
  have hsaves : Saves (savedTargets targets values) :=
    ⟨fun s hs => hid s (hsub hs), fun s hs h => (hfresh s (hsub hs)).1 (hsub h)⟩
  obtain ⟨hkept, hother⟩ := execAll_save E hsaves env
  have hsame {x : Text} (hx : x ∉ targets.map savedName) :
      execAll E env ((savedTargets targets values).map .save) x = env x :=
    hother x fun h => hx (List.map_subset savedName hsub h)
  obtain ⟨hvalues, hrest⟩ := execAll_assignSteps E hsaves env hlength hid (List.Subset.refl _)
    (fun s hs => (hfresh s (hsub hs)).1) (fun s hs => (hfresh s (hsub hs)).2) hkept fun v hv x hx _ => by
      refine hsame fun h => ?_
      obtain ⟨t, ht, rfl⟩ := List.mem_map.mp h
      exact (hfresh t ht).2 v hv hx
  have hall : execAll E env (tupleSteps targets values) =
      execAll E (execAll E env ((savedTargets targets values).map .save))
        (assignSteps (savedTargets targets values) targets values) := List.foldl_append
  rw [hall]
  exact ⟨hshown, hvalues, fun x hx hnew => (hrest x hx).trans (hsame hnew)⟩

/-- Expressions are evaluated as their characters with the values of variables among them, in any way. -/
def Evaluation.ofItems (combine : List (V ⊕ Char) → V) : Evaluation V where
  value e env := combine (items env e)
  depends h := congrArg combine (items_congr h)
  renamed env hx _ := congrArg combine (items_rename hx (isIdentifier_savedName hx) env _)

/-- Two variables are saved, and the last value is a sum of both. -/
theorem tuple_assignments_keep_values_sum :
    let cx : Context :=
      { style := .cambridge, convention := .indentation, symbols := {}, blocks := [], written := 0, indent := [] }
    let E : Evaluation Nat := .ofItems fun items => (items.filterMap Sum.getLeft?).foldr (· + ·) 0
    let targets : List Text := ["a", "b", "c"]
    let values : List Text := ["b", "c", "a + b"]
    let final := fun env => execAll E env (tupleSteps targets values)
    multipleRule cx "a, b, c = b, c, a + b" =
        some (cx.writes ["temp_a ← a", "temp_b ← b", "a ← temp_b", "b ← c", "c ← temp_a + temp_b"]) ∧
      ∀ env : Text → Nat, final env "a" = env "b" ∧ final env "b" = env "c" ∧
        final env "c" = env "a" + env "b" ∧ final env "d" = env "d" := by
  intro cx E targets values final
  have hrule : multipleRule cx "a, b, c = b, c, a + b" =
      some (cx.writes ["temp_a ← a", "temp_b ← b", "a ← temp_b", "b ← c", "c ← temp_a + temp_b"]) := by
    decide +kernel
  refine ⟨hrule, fun env => ?_⟩
  have hcode : IsTuple "a, b, c = b, c, a + b" targets values :=
    ⟨"a, b, c ", " b, c, a + b", rfl, by decide, by decide⟩
  have hid : ∀ t ∈ targets, Name.isIdentifier t = true := by decide
  have hfresh : ∀ t ∈ targets, savedName t ∉ targets ∧ ∀ v ∈ values, ¬ Occurs (savedName t) v := by
    intro t ht
    have hnot : savedName t ∉ targets ∧ ∀ v ∈ values, reads v (savedName t) = false := by
      revert t
      decide
    refine ⟨hnot.1, fun v hv hocc => ?_⟩
    have hword := isWord_of_isIdentifier (isIdentifier_savedName (hid t ht))
    simpa [hnot.2 v hv] using (reads_iff_occurs hword).mpr hocc
  obtain ⟨-, hvalues, hother⟩ := tuple_assignments_keep_values E hrule hcode hid hfresh env
  have hvalue {i : Nat} {t v : Text} (ht : targets[i]? = some t) (hlast : t ∉ targets.drop (i + 1))
      (hv : values[i]? = some v) : final env t = E.value v env := by
    obtain ⟨w, hw, h⟩ := hvalues i t ht hlast
    obtain rfl := Option.some.inj (hv.symm.trans hw)
    exact h
  refine ⟨hvalue (i := 0) rfl (by decide) rfl, hvalue (i := 1) rfl (by decide) rfl, ?_,
    hother "d" (by decide) (by decide)⟩
  exact hvalue (i := 2) rfl (by decide) rfl

end Indented

end Pseudocode
