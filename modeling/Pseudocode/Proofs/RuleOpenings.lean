import Pseudocode.Proofs.LiteralAssignments
import Pseudocode.Proofs.Lockstep
import Pseudocode.Proofs.RuleForms

/-! # The blocks that rules open

Rules look at the dialect and at the notes that a dialect keeps, but neither decides which block a line
opens. In indented sources neither decides whether a line is taken at all. -/

namespace Pseudocode

open Text

/-- The block that an outcome opens, as far as nesting goes. -/
def Outcome.opening (o : Outcome) : Option Block := o.opens.map Block.outline

/-- Contexts in which the same lines have been surveyed and the same blocks are open. Dialects, notes
and what was written may differ. -/
structure Context.Alike (cx cx' : Context) : Prop where
  convention : cx.convention = cx'.convention
  survey : cx.symbols.survey = cx'.symbols.survey
  blocks : cx.blocks.map Block.outline = cx'.blocks.map Block.outline

theorem Context.Alike.openClass? {cx cx' : Context} (h : cx.Alike cx') :
    cx.openClass? = cx'.openClass? := by
  rw [Context.openClass?, ← openClass?_map_outline, h.blocks, openClass?_map_outline]
  rfl

private theorem Context.Alike.isClass {cx cx' : Context} (h : cx.Alike cx') (name : Text) :
    cx.symbols.isClass name = cx'.symbols.isClass name := by
  rw [Symbols.isClass, h.survey]
  rfl

/-- Two outcomes open the same block, or none. -/
def SameOpening (o o' : Outcome) : Prop := o.opening = o'.opening

theorem SameOpening.statement {cx cx' : Context} {lines lines' : List Text} :
    SameOpening (cx.outcome (.statement lines)) (cx'.outcome (.statement lines')) := rfl

theorem SameOpening.header {cx cx' : Context} {lines lines' : List Text} {b b' : Block}
    (h : b.outline = b'.outline) :
    SameOpening (cx.outcome (.header lines b)) (cx'.outcome (.header lines' b')) :=
  congrArg some h

theorem SameOpening.collectionLoop (cx cx' : Context) (var collection collection' : Text) :
    SameOpening (cx.outcome (cx.collectionLoop var collection))
      (cx'.outcome (cx'.collectionLoop var collection')) := by
  have hloop (cx : Context) (collection : Text) :
      (cx.outcome (cx.collectionLoop var collection)).opening = some (Block.loop var).outline := by
    unfold Context.collectionLoop
    split <;> rfl
  exact (hloop cx collection).trans (hloop cx' collection').symm

/-! ### Indented sources -/

namespace Indented

private theorem isSome_rangeBounds? (cx : Context) (isDown : Text → Text → Bool) (args : Text) :
    (rangeBounds? cx isDown args).isSome =
      decide ((splitTopLevel ',' args).length ∈ [1, 2, 3]) := by
  unfold rangeBounds?
  match splitTopLevel ',' args with
  | [] => rfl
  | [_] => rfl
  | [_, _] => rfl
  | [_, _, _] => rfl
  | _ :: _ :: _ :: _ :: _ => simp

private theorem isSome_rangeBounds?_congr (cx cx' : Context) (isDown : Text → Text → Bool) (args : Text) :
    (rangeBounds? cx isDown args).isSome = (rangeBounds? cx' isDown args).isSome := by
  rw [isSome_rangeBounds?, isSome_rangeBounds?]

/-- The rule for constants; some dialects have none. -/
def constant : Rule := ⟨"constant", constantRule⟩

def assignment : Rule := ⟨"assignment", assignmentRule⟩

theorem acceptAlike_of_mem_rules {cx cx' : Context} (h : cx.Alike cx') (code : Text) :
    ∀ r ∈ rules, r.name ≠ constant.name → AcceptAlike SameOpening (r.apply cx code) (r.apply cx' code) := by
  simp only [rules, List.forall_mem_cons]
  exact
    ⟨fun _ => .reading (.bind fun _ => .some .statement),
     fun _ => .reading (.bind fun _ => .some .statement),
     fun _ => .reading (.bind fun _ => .some (.header rfl)),
     fun _ => .computes computes_defRule (.bind fun _ => .some (.header rfl)),
     fun _ => .computes computes_returnRule (.bind fun _ => by split <;> exact .some .statement),
     fun _ => .reading (.bind fun _ => .some (.header rfl)),
     fun _ => .reading (.bind fun _ => .some (.header rfl)),
     fun _ => .reading (.bind fun _ => .some (.header rfl)),
     fun _ => .reading (.bind fun _ => .bind_of_isSome (isSome_rangeBounds?_congr ..) fun _ _ => .some (.header rfl)),
     fun _ => .reading (.bind fun _ => .some (.collectionLoop ..)),
     fun _ => .reading (.bind fun _ => .some (.header rfl)),
     fun _ => .reading (.bind fun _ => .some (.header rfl)),
     fun _ => .reading (.bind fun _ => .some (.header rfl)),
     fun _ => .reading (.bind fun _ => .some (.header rfl)),
     fun _ => .reading (.bind fun _ => .some .statement),
     fun _ => .computes computes_lambdaRule (.bind fun _ => .some .statement),
     fun _ => .reading (.bind fun _ => .bind_of_isSome (isSome_rangeBounds?_congr ..) fun _ _ => .some .statement),
     fun _ => .computes computes_inputRule (.bind fun _ => .bind fun _ => .bind fun _ => .some .statement),
     fun _ => .reading (.bind fun _ => .some .statement),
     fun _ => .computes computes_multipleRule (.bind fun _ => .bind fun _ => .some .statement),
     fun _ => .computes computes_dictRule (.bind fun _ => .bind fun _ => .bind fun _ => by
       split <;> split <;> exact .some .statement),
     fun _ => .computes computes_listRule (.bind fun _ => .bind fun _ => by
       dsimp only
       split <;> split <;> exact .some .statement),
     fun _ => .computes computes_instanceRule (.bind fun _ => by
       dsimp only
       rw [h.isClass]
       exact .bind fun _ => .some .statement),
     fun hname => absurd rfl hname,
     fun _ => .computes computes_assignmentRule (.bind fun _ => .bind fun _ => .some .statement),
     fun _ => .reading (.bind fun _ => .bind fun _ => .bind fun _ => .some .statement),
     List.forall_mem_nil _⟩

/-- Lines that the rule for constants takes would be taken by the rule after it. -/
theorem opening_assignment_of_constant {cx : Context} {code : Text} {opening : Option Block}
    (h : (constant.apply cx code).map Outcome.opening = some opening) :
    (assignment.apply cx code).map Outcome.opening = some opening := by
  obtain ⟨o, ho, hopening⟩ := Option.map_eq_some_iff.mp h
  have hnothing : Accepted (·.opening = none) (constant.apply cx code) :=
    .computes computes_constantRule (.bind fun _ _ => .bind fun _ _ => .bind fun _ _ => .bind fun _ _ => .some rfl)
  obtain ⟨notes, lines, hassignment⟩ := assignmentRule_of_constantRule ho cx
  rw [← hopening, hnothing o ho]
  exact congrArg (Option.map Outcome.opening) hassignment

theorem exists_rules_eq : ∃ before after, rules = before ++ constant :: assignment :: after ∧
    ∀ r ∈ before ++ assignment :: after, r ∈ rules ∧ r.name ≠ constant.name := by
  have hrules : rules = rules.take 23 ++ constant :: assignment :: rules.drop 25 := rfl
  have hnames : ∀ r ∈ rules.take 23 ++ assignment :: rules.drop 25, r.name ≠ constant.name := by
    decide
  refine ⟨rules.take 23, rules.drop 25, hrules, ?_⟩
  intro r hr
  refine ⟨?_, hnames r hr⟩
  rw [hrules]
  rcases List.mem_append.mp hr with hr | hr
  · exact List.mem_append_left _ hr
  · exact List.mem_append_right _ (List.mem_cons_of_mem _ hr)

end Indented

/-! ### Braced sources -/

namespace Braced

private theorem Method.outline_kind (st : Style) (m : Method) : (m.kind st).outline = .function := by
  unfold Method.kind
  split <;> rfl

private theorem opening_declarationOutcome (cx : Context) (mods : List Text) (type : Text) (vars : List Text)
    (value : Option Text) : (declarationOutcome cx mods type vars value).opening = none := by
  have hfields : (fieldOutcome cx mods type vars value).opening = none := by
    unfold fieldOutcome
    split
    · rfl
    · cases value <;> rfl
  have hvariables : (variableOutcome cx type vars value).opening = none := by
    unfold variableOutcome
    cases value <;> rfl
  unfold declarationOutcome
  cases value with
  | some v =>
    dsimp only
    split
    · rfl
    · split
      · exact hfields
      · exact hvariables
  | none =>
    dsimp only
    split
    · exact hfields
    · exact hvariables

/-- A line that ends unlike a statement is taken alike in all dialects: what rules know of input
readers matters in statements only. -/
theorem acceptAlike_of_mem_rules {cx cx' : Context} (h : cx.Alike cx') {code : Text}
    (hs : code.getLast? ≠ some ';') :
    ∀ r ∈ rules, AcceptAlike SameOpening (r.apply cx code) (r.apply cx' code) := by
  have hdeclined {p : Pattern} : (p ++ .text [';']).whole? code = none := by
    cases hm : (p ++ .text [';']).whole? code with
    | none => rfl
    | some m => exact absurd (Pattern.getLast?_of_whole?_append rfl hm) hs
  have hscanner (cx : Context) : scannerRule cx code = none := by
    have hsetup : scannerPattern.whole? code = none := hdeclined
    have hclose : closePattern.whole? code = none := hdeclined
    simp [computes_scannerRule.apply_eq, scannerOutcome?, hsetup, hclose]
  have hinput (cx : Context) : inputRule cx code = none := by
    have hread : readPattern.whole? code = none := hdeclined
    simp [computes_inputRule.apply_eq, inputOutcome?, hread]
  simp only [rules, List.forall_mem_cons]
  exact
    ⟨.reading (.bind fun _ => .some .statement),
     by rw [hscanner, hscanner]; exact .none,
     .reading (.bind fun _ => .some (.header rfl)),
     .computes computes_methodRule (.bind fun _ => .bind fun _ => .bind fun _ => by
       dsimp only
       rw [h.openClass?]
       exact .bind fun _ => .some (.header (by simp [Block.outline, Method.outline_kind]))),
     .reading (.bind fun _ => .some (.header rfl)),
     .reading (.bind fun _ => .some (.header rfl)),
     .reading (.bind fun _ => .some (.header rfl)),
     .computes computes_countRule (.bind fun _ => .bind fun _ => .some (.header rfl)),
     .reading (.bind fun _ => .some (.collectionLoop ..)),
     .reading (.bind fun _ => .some (.header rfl)),
     .reading (.bind fun _ => .some .statement),
     .reading (.bind fun _ => .some (.header rfl)),
     .reading (.bind fun _ => .some (.header rfl)),
     .reading (.bind fun _ => .some (.header rfl)),
     .reading (.bind fun _ => .some (.header rfl)),
     .reading (.bind fun _ => by split <;> exact .some .statement),
     .reading (.bind fun _ => .some .statement),
     by rw [hinput, hinput]; exact .none,
     .computes computes_arrayRule (by
       unfold arrayOutcome?
       split
       · exact .bind fun _ => .some .statement
       · exact .bind fun _ => .bind fun _ => .some .statement),
     .computes computes_declarationRule (.bind fun _ => .bind fun _ => .bind fun _ => .some
       ((opening_declarationOutcome ..).trans (opening_declarationOutcome ..).symm)),
     .reading (.bind fun _ => .some .statement),
     .reading (.bind fun _ => .some .statement),
     .reading (.bind fun _ => .bind fun _ => .bind fun _ => .some .statement),
     .reading (.bind fun _ => .bind fun _ => .some .statement),
     List.forall_mem_nil _⟩

end Braced

/-! ### The rule that takes a line -/

theorem findSome?_congr {α β : Type} {f g : α → Option β} {l : List α} (h : ∀ a ∈ l, f a = g a) :
    l.findSome? f = l.findSome? g := by
  induction l with
  | nil => rfl
  | cons a l ih =>
    obtain ⟨ha, hl⟩ := List.forall_mem_cons.mp h
    rw [List.findSome?_cons, List.findSome?_cons, ha, ih hl]

namespace Context

/-- What the first rule that takes a line opens. -/
def opening? (cx : Context) (code : Text) : Option (Option Block) :=
  (cx.convert? code).map fun r => r.2.opening

theorem opening?_eq (cx : Context) (code : Text) :
    cx.opening? code =
      cx.convention.rules.findSome? fun r => (r.apply cx code).map Outcome.opening := by
  unfold opening? convert?
  rw [List.map_findSome?]
  refine findSome?_congr fun r _ => ?_
  rw [Function.comp_apply, Option.map_map]
  rfl

variable {cx cx' : Context} (h : cx.Alike cx') (code : Text)

include h

theorem Alike.opening?_of_indentation (hc : cx.convention = .indentation) :
    cx.opening? code = cx'.opening? code := by
  obtain ⟨before, after, hrules, hsteady⟩ := Indented.exists_rules_eq
  have hskip (cx : Context) :
      Indented.rules.findSome? (fun r => (r.apply cx code).map Outcome.opening) =
        (before ++ Indented.assignment :: after).findSome? fun r =>
          (r.apply cx code).map Outcome.opening := by
    rw [hrules, List.findSome?_append, List.findSome?_append, List.findSome?_cons]
    cases hconstant : (Indented.constant.apply cx code).map Outcome.opening with
    | none => rfl
    | some opening =>
      have hassignment := Indented.opening_assignment_of_constant hconstant
      rw [List.findSome?_cons, hassignment]
  rw [opening?_eq, opening?_eq, ← h.convention, hc]
  change Indented.rules.findSome? _ = Indented.rules.findSome? _
  rw [hskip, hskip]
  refine findSome?_congr fun r hr => ?_
  obtain ⟨hmem, hname⟩ := hsteady r hr
  exact (Indented.acceptAlike_of_mem_rules h code r hmem hname).map_eq

theorem Alike.opening?_join : (cx.opening? code).join = (cx'.opening? code).join := by
  cases hc : cx.convention with
  | indentation => rw [h.opening?_of_indentation code hc]
  | braces =>
    rw [opening?_eq, opening?_eq, ← h.convention, hc]
    by_cases hs : code.getLast? = some ';'
    · have hnothing (cx : Context) :
          (Braced.rules.findSome? fun r => (r.apply cx code).map Outcome.opening).join = none := by
        cases hfind : Braced.rules.findSome? fun r => (r.apply cx code).map Outcome.opening with
        | none => rfl
        | some opening =>
          obtain ⟨r, hr, hopening⟩ := List.exists_of_findSome?_eq_some hfind
          obtain ⟨o, ho, rfl⟩ := Option.map_eq_some_iff.mp hopening
          -- a line that opens a block ends unlike a statement
          have hform := Braced.form_rules cx code r hr o ho
          cases hopens : o.opens with
          | none => rw [Outcome.opening, hopens]; rfl
          | some b => exact absurd hs (hopens ▸ hform.opening).ends
      exact (hnothing cx).trans (hnothing cx').symm
    · refine congrArg Option.join (findSome?_congr fun r hr => ?_)
      exact (Braced.acceptAlike_of_mem_rules h hs r hr).map_eq

end Context

end Pseudocode
