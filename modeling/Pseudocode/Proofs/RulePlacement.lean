import Pseudocode.Proofs.RuleOpenings
import Pseudocode.Proofs.Weaving

/-! # Rules and the place of a header

Rules see how many lines have been written, but only to know where the provisional header of a routine
stands. Where further lines have been written, a rule comes to the same outcome with that header at
its new place. -/

namespace Pseudocode

open Text

/-- An outcome with the provisional header that it writes at a place. -/
def Outcome.placedAt (n : Nat) (o : Outcome) : Outcome :=
  { o with opens := o.opens.map (Block.placedAt n) }

/-! ### Blocks with their headers elsewhere -/

section

variable {bs cs : List Block} (h : bs.map (Block.placedAt 0) = cs.map (Block.placedAt 0))

include h

theorem openClass?_of_placedAt : openClass? bs = openClass? cs := by
  have hplaced (blocks : List Block) :
      openClass? (blocks.map (Block.placedAt 0)) = openClass? blocks := by
    cases blocks <;> rfl
  rw [← hplaced bs, h, hplaced]

/-- The innermost routine is known by its key. -/
theorem markReturn_of_placedAt (notes : Notes) (type : Option Text) :
    notes.markReturn bs type = notes.markReturn cs type := by
  have hkey (blocks : List Block) :
      (blocks.map (Block.placedAt 0)).findSome? (fun b => b.routine.map Routine.key) =
        blocks.findSome? fun b => b.routine.map Routine.key := by
    rw [List.findSome?_map]
    refine findSome?_congr fun b _ => ?_
    simp only [Function.comp_apply, Block.placedAt, Option.map_map]
    rfl
  unfold Notes.markReturn
  rw [← hkey bs, h, hkey]

end

/-! ### Contexts with more written -/

namespace Context

/-- The same context with other places for headers. -/
def moved (cx : Context) (blocks : List Block) (n : Nat) : Context :=
  { cx with blocks, written := n }

variable (cx : Context) (bs : List Block) (n : Nat)

@[simp] theorem style_moved : (cx.moved bs n).style = cx.style := rfl

@[simp] theorem notes_moved : (cx.moved bs n).notes = cx.notes := rfl

@[simp] theorem withNotes_moved (notes : Notes) :
    (cx.moved bs n).withNotes notes = (cx.withNotes notes).moved bs n := rfl

variable {bs n} in
theorem ite_moved {c : Prop} [Decidable c] {p p' q q' : List Text × Context} (h : q = (p.1, p.2.moved bs n))
    (h' : q' = (p'.1, p'.2.moved bs n)) :
    (if c then q else q') = ((if c then p else p').1, (if c then p else p').2.moved bs n) := by
  split
  · exact h
  · exact h'

@[simp] theorem declareOnce_moved (name type text : Text) :
    (cx.moved bs n).declareOnce name type text =
      ((cx.declareOnce name type text).1, (cx.declareOnce name type text).2.moved bs n) :=
  ite_moved rfl rfl

end Context

/-- An outcome, and the same where the next line stands at place `n`. -/
def MovesTo (n : Nat) (o o' : Outcome) : Prop := o' = o.placedAt n

theorem movesTo_collectionLoop (cx : Context) (bs : List Block) (n : Nat) (var collection : Text) :
    MovesTo n (cx.outcome (cx.collectionLoop var collection))
      ((cx.moved bs n).outcome ((cx.moved bs n).collectionLoop var collection)) := by
  unfold Context.collectionLoop
  rw [Context.style_moved]
  cases cx.style.collectionLoop with
  | forEach => rfl
  | iterator => rfl

namespace Indented

variable {cx : Context} {bs : List Block} (n : Nat) (code : Text)

theorem movesTo_defRule (hb : bs.map (Block.placedAt 0) = cx.blocks.map (Block.placedAt 0)) :
    AcceptAlike (MovesTo n) (defRule cx code) (defRule (cx.moved bs n) code) := by
  refine .computes computes_defRule (.bind fun m => ?_)
  have hroutine : routineOf (cx.moved bs n) (m.group 1) (m.group 2) =
      { routineOf cx (m.group 1) (m.group 2) with headerIndex := n } := by
    have hclass : (cx.moved bs n).openClass? = cx.openClass? := openClass?_of_placedAt hb
    unfold routineOf
    rw [hclass]
    rfl
  rw [hroutine]
  exact .some rfl

private theorem movesTo_returnRule (hb : bs.map (Block.placedAt 0) = cx.blocks.map (Block.placedAt 0)) :
    AcceptAlike (MovesTo n) (returnRule cx code) (returnRule (cx.moved bs n) code) := by
  refine .computes computes_returnRule (.bind fun m => ?_)
  split
  · exact .some rfl
  · have hmark (value : Text) : cx.notes.markReturn (cx.moved bs n).blocks
        (returnType? (cx.moved bs n) value) = cx.notes.markReturn cx.blocks (returnType? cx value) :=
      markReturn_of_placedAt hb cx.notes (returnType? cx value)
    simp only [Context.notes_moved, hmark]
    exact .some rfl

private theorem assignEach_moved (cx : Context) (saved : List Text) (pairs : List (Text × Text)) :
    assignEach saved (cx.moved bs n) pairs =
      ((assignEach saved cx pairs).1, (assignEach saved cx pairs).2.moved bs n) := by
  induction pairs generalizing cx with
  | nil => rfl
  | cons pair pairs ih =>
    simp only [assignEach, Context.notes_moved, Context.withNotes_moved, ih]
    rfl

private theorem movesTo_multipleRule :
    AcceptAlike (MovesTo n) (multipleRule cx code) (multipleRule (cx.moved bs n) code) := by
  refine .computes computes_multipleRule (.bind fun m => .bind fun _ => ?_)
  dsimp only
  rw [assignEach_moved]
  exact .some rfl

private theorem recordOnce_moved (cx : Context) (record : Text) (pairs : List (Text × Text)) :
    recordOnce (cx.moved bs n) record pairs =
      ((recordOnce cx record pairs).1, (recordOnce cx record pairs).2.moved bs n) :=
  Context.ite_moved rfl rfl

private theorem movesTo_dictRule : AcceptAlike (MovesTo n) (dictRule cx code) (dictRule (cx.moved bs n) code) := by
  refine .computes computes_dictRule (.bind fun m => .bind fun _ => .bind fun pairs => .ite (.some rfl) ?_)
  dsimp only
  rw [recordOnce_moved]
  exact .some rfl

private theorem movesTo_listRule : AcceptAlike (MovesTo n) (listRule cx code) (listRule (cx.moved bs n) code) := by
  refine .computes computes_listRule (.bind fun m => .bind fun _ => .ite (.some rfl) ?_)
  simp only [Context.declareOnce_moved]
  exact .some rfl

private theorem objectOnce_moved (cx : Context) (target cls : Text) :
    objectOnce (cx.moved bs n) target cls =
      ((objectOnce cx target cls).1, (objectOnce cx target cls).2.moved bs n) :=
  Context.ite_moved (Context.declareOnce_moved ..) rfl

private theorem movesTo_instanceRule :
    AcceptAlike (MovesTo n) (instanceRule cx code) (instanceRule (cx.moved bs n) code) := by
  refine .computes computes_instanceRule (.bind fun m => .bind fun _ => ?_)
  dsimp only
  rw [objectOnce_moved]
  exact .some rfl

theorem movesTo_rules (hb : bs.map (Block.placedAt 0) = cx.blocks.map (Block.placedAt 0)) :
    ∀ r ∈ rules, AcceptAlike (MovesTo n) (r.apply cx code) (r.apply (cx.moved bs n) code) := by
  simp only [rules, List.forall_mem_cons]
  exact
    ⟨.reading (.bind fun _ => .some rfl),
     .reading (.bind fun _ => .some rfl),
     .reading (.bind fun _ => .some rfl),
     movesTo_defRule n code hb,
     movesTo_returnRule n code hb,
     .reading (.bind fun _ => .some rfl),
     .reading (.bind fun _ => .some rfl),
     .reading (.bind fun _ => .some rfl),
     .reading (.bind fun _ => .bind fun _ => .some rfl),
     .reading (.bind fun _ => .some (movesTo_collectionLoop ..)),
     .reading (.bind fun _ => .some rfl),
     .reading (.bind fun _ => .some rfl),
     .reading (.bind fun _ => .some rfl),
     .reading (.bind fun _ => .some rfl),
     .reading (.bind fun _ => .some rfl),
     .computes computes_lambdaRule (.bind fun _ => .some rfl),
     .reading (.bind fun _ => .bind fun _ => .some rfl),
     .computes computes_inputRule (.bind fun _ => .bind fun _ => .bind fun _ => .some rfl),
     .reading (.bind fun _ => .some rfl),
     movesTo_multipleRule n code,
     movesTo_dictRule n code,
     movesTo_listRule n code,
     movesTo_instanceRule n code,
     .computes computes_constantRule (.bind fun _ => .bind fun _ => .bind fun _ => .bind fun _ => .some rfl),
     .computes computes_assignmentRule (.bind fun _ => .bind fun _ => .some rfl),
     .reading (.bind fun _ => .bind fun _ => .bind fun _ => .some rfl),
     List.forall_mem_nil _⟩

end Indented

namespace Braced

variable {cx : Context} {bs : List Block} (n : Nat) (code : Text)

theorem movesTo_methodRule (hb : bs.map (Block.placedAt 0) = cx.blocks.map (Block.placedAt 0)) :
    AcceptAlike (MovesTo n) (methodRule cx code) (methodRule (cx.moved bs n) code) := by
  have hclass : (cx.moved bs n).openClass? = cx.openClass? := openClass?_of_placedAt hb
  refine .computes computes_methodRule (.bind fun m => .bind fun _ => .bind fun _ => ?_)
  dsimp only
  rw [hclass]
  exact .bind fun _ => .some rfl

theorem declared_moved (cx : Context) (var type : Text) :
    declared (cx.moved bs n) var type =
      ((declared cx var type).1, (declared cx var type).2.moved bs n) :=
  Context.ite_moved (Context.declareOnce_moved ..) rfl

private theorem declaredAll_moved (cx : Context) (type : Text) (vars : List Text) :
    declaredAll type (cx.moved bs n) vars =
      ((declaredAll type cx vars).1, (declaredAll type cx vars).2.moved bs n) := by
  induction vars generalizing cx with
  | nil => rfl
  | cons var vars ih => simp only [declaredAll, declared_moved, ih]

private theorem declaredRead_moved (m : Match) :
    declaredRead (cx.moved bs n) m = ((declaredRead cx m).1, (declaredRead cx m).2.moved bs n) := by
  unfold declaredRead
  split
  · exact declared_moved ..
  · rfl

private theorem declaredArray_moved (array type : Text) (count : Nat) :
    declaredArray (cx.moved bs n) array type count =
      ((declaredArray cx array type count).1, (declaredArray cx array type count).2.moved bs n) :=
  Context.ite_moved (Context.declareOnce_moved ..) rfl

private theorem movesTo_inputRule :
    AcceptAlike (MovesTo n) (inputRule cx code) (inputRule (cx.moved bs n) code) := by
  refine .computes computes_inputRule (.bind fun m => .bind fun _ => ?_)
  dsimp only
  rw [declaredRead_moved]
  exact .some rfl

private theorem movesTo_arrayRule :
    AcceptAlike (MovesTo n) (arrayRule cx code) (arrayRule (cx.moved bs n) code) := by
  refine .computes computes_arrayRule ?_
  unfold arrayOutcome?
  split
  · exact .bind fun _ => .some rfl
  · refine .bind fun m => .bind fun _ => ?_
    simp only [arrayLiteralOutcome, declaredArray_moved]
    exact .some rfl

private theorem movesTo_fieldOutcome (mods : List Text) (type : Text) (vars : List Text) (value : Option Text) :
    MovesTo n (fieldOutcome cx mods type vars value) (fieldOutcome (cx.moved bs n) mods type vars value) := by
  unfold fieldOutcome
  rw [Context.style_moved]
  split
  · rfl
  · cases value <;> rfl

private theorem movesTo_variableOutcome (type : Text) (vars : List Text) (value : Option Text) :
    MovesTo n (variableOutcome cx type vars value) (variableOutcome (cx.moved bs n) type vars value) := by
  simp only [variableOutcome, declaredAll_moved]
  cases value <;> rfl

private theorem movesTo_declarationOutcome (hb : bs.map (Block.placedAt 0) = cx.blocks.map (Block.placedAt 0))
    (mods : List Text) (type : Text) (vars : List Text) (value : Option Text) :
    MovesTo n (declarationOutcome cx mods type vars value)
      (declarationOutcome (cx.moved bs n) mods type vars value) := by
  have hclass : (cx.moved bs n).openClass? = cx.openClass? := openClass?_of_placedAt hb
  have hfields : MovesTo n (fieldOutcome cx mods type vars value)
      (fieldOutcome (cx.moved bs n) mods type vars value) := movesTo_fieldOutcome ..
  have hvariables : MovesTo n (variableOutcome cx type vars value)
      (variableOutcome (cx.moved bs n) type vars value) := movesTo_variableOutcome ..
  simp only [declarationOutcome, hclass, Context.style_moved]
  cases value with
  | some v =>
    dsimp only
    split
    · rfl
    · split
      · exact hfields
      · exact hvariables
  | none =>
    dsimp only
    split
    · exact hfields
    · exact hvariables

private theorem movesTo_rules (hb : bs.map (Block.placedAt 0) = cx.blocks.map (Block.placedAt 0)) :
    ∀ r ∈ rules, AcceptAlike (MovesTo n) (r.apply cx code) (r.apply (cx.moved bs n) code) := by
  simp only [rules, List.forall_mem_cons]
  exact
    ⟨.reading (.bind fun _ => .some rfl),
     .computes computes_scannerRule (by
       unfold scannerOutcome?
       split
       · exact .some rfl
       · exact .bind fun _ => .bind fun _ => .some rfl),
     .reading (.bind fun _ => .some rfl),
     movesTo_methodRule n code hb,
     .reading (.bind fun _ => .some rfl),
     .reading (.bind fun _ => .some rfl),
     .reading (.bind fun _ => .some rfl),
     .computes computes_countRule (.bind fun _ => .bind fun _ => .some rfl),
     .reading (.bind fun _ => .some (movesTo_collectionLoop ..)),
     .reading (.bind fun _ => .some rfl),
     .reading (.bind fun _ => .some rfl),
     .reading (.bind fun _ => .some rfl),
     .reading (.bind fun _ => .some rfl),
     .reading (.bind fun _ => .some rfl),
     .reading (.bind fun _ => .some rfl),
     .reading (.bind fun _ => by split <;> exact .some rfl),
     .reading (.bind fun _ => .some rfl),
     movesTo_inputRule n code,
     movesTo_arrayRule n code,
     .computes computes_declarationRule (.bind fun _ => .bind fun _ => .bind fun _ => .some
       (movesTo_declarationOutcome n hb ..)),
     .reading (.bind fun _ => .some rfl),
     .reading (.bind fun _ => .some rfl),
     .reading (.bind fun _ => .bind fun _ => .bind fun _ => .some rfl),
     .reading (.bind fun _ => .bind fun _ => .some rfl),
     List.forall_mem_nil _⟩

end Braced

/-! ### The rule that takes a line -/

namespace Context

variable {cx : Context} {bs : List Block}
  (hb : bs.map (Block.placedAt 0) = cx.blocks.map (Block.placedAt 0)) (n : Nat) (code : Text)

include hb

/-- The same rule takes a line, wherever the next line stands. -/
theorem convert?_moved :
    (cx.moved bs n).convert? code = (cx.convert? code).map fun r => (r.1, r.2.placedAt n) := by
  have hrules : ∀ r ∈ cx.convention.rules,
      AcceptAlike (MovesTo n) (r.apply cx code) (r.apply (cx.moved bs n) code) := by
    cases cx.convention with
    | indentation => exact Indented.movesTo_rules n code hb
    | braces => exact Braced.movesTo_rules n code hb
  have hmoved {x y : Option Outcome} (h : AcceptAlike (MovesTo n) x y) : y = x.map (Outcome.placedAt n) := by
    cases h with
    | none => rfl
    | some h => exact congrArg some h
  unfold convert?
  rw [List.map_findSome?]
  refine findSome?_congr fun r hr => ?_
  rw [hmoved (hrules r hr), Function.comp_apply, Option.map_map, Option.map_map]
  rfl

omit hb

/-- A routine that a line opens has its provisional header where the first line is written for it. -/
theorem routine_of_convert? {rule : Text} {o : Outcome} (h : cx.convert? code = some (rule, o))
    {b : Block} (ho : o.opens = some b) {r : Routine} (hr : b.routine = some r) :
    r.headerIndex = cx.written ∧ o.lines ≠ [] := by
  have hopening := (form_of_convert? h).opening
  rw [ho] at hopening
  cases hopening with
  | block bare => cases bare.symm.trans hr
  | routine _ _ provisional index _ =>
    obtain rfl := Option.some.inj hr
    exact ⟨index, by simp [provisional]⟩

end Context

end Pseudocode
