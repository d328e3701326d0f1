import Pseudocode.Conversion

/-! # Rules as functions of their context

Rules are programs that may change the state and decline afterwards. None does: what a rule makes of a line depends
on its context alone, and it leaves the state as it was or changes the notes in it. So each rule comes down to a
function from contexts to outcomes, and the search through the rules to a search through these functions. -/

namespace Pseudocode

open Text Converting

theorem guard_of_pos {f : Type → Type} [Alternative f] {c : Prop} [Decidable c] (h : c) :
    (guard c : f Unit) = pure () :=
  if_pos h

theorem guard_of_neg {f : Type → Type} [Alternative f] {c : Prop} [Decidable c] (h : ¬ c) :
    (guard c : f Unit) = failure :=
  if_neg h

/-! ### Outcomes -/

namespace Context

variable (cx : Context)

def withNotes (notes : Notes) : Context := { cx with symbols := { cx.symbols with notes } }

/-- A translation that leaves the notes as they are. -/
def outcome (c : Translation) : Outcome := { c with notes := cx.notes }

def writes (lines : List Text) : Outcome := cx.outcome (.statement lines)

def opens (lines : List Text) (b : Block) : Outcome := cx.outcome (.header lines b)

/-- A call that stands alone. -/
def callStatement (call : Text) : Outcome := cx.writes [cx.callLine call]

/-- The declaration of a variable whose type is not known. -/
def declareOnce (name type text : Text) : List Text × Context :=
  if cx.notes.types.has name then ([], cx) else ([text], cx.withNotes (cx.notes.addType name type))

/-- A state in which a line has this context. -/
def Of (s : State) : Prop := s.context cx.style cx.convention cx.indent = cx

theorem of_state : cx.Of cx.state := by
  simp [Of, State.context, state]

variable {cx}

theorem Of.notes {s : State} (h : cx.Of s) : s.symbols.notes = cx.notes :=
  congrArg (fun cx : Context => cx.symbols.notes) h

theorem Of.withNotes {s : State} (h : cx.Of s) (notes : Notes) : (cx.withNotes notes).Of (s.withNotes notes) :=
  congrArg (fun cx : Context => cx.withNotes notes) h

theorem Of.withNotes_self {s : State} (h : cx.Of s) : s.withNotes cx.notes = s := by
  rw [← h.notes]
  rfl

end Context

theorem State.of_context (s : State) (st : Style) (conv : Convention) (indent : Text) :
    (s.context st conv indent).Of s := rfl

/-! ### Programs that always have a result -/

namespace Converting

variable {α β : Type} {cx : Context}

theorem run_bind (x : Converting α) (f : α → Converting β) (site : Site) (s : State) :
    (x >>= f).run site s =
      match x.run site s with
      | (some a, t) => (f a).run site t
      | (none, t) => (none, t) := by
  change (OptionT.run (x site >>= fun a => f a site)).run s = _
  rw [OptionT.run_bind]
  simp only [Option.elimM, StateT.run_bind, run]
  generalize (OptionT.run (x site)).run s = r
  obtain ⟨_ | a, t⟩ := r <;> rfl

theorem run_orElse (x y : Converting α) (site : Site) (s : State) :
    (x <|> y).run site s =
      match x.run site s with
      | (some a, t) => (some a, t)
      | (none, t) => y.run site t := by
  change (OptionT.run (x site <|> y site)).run s = _
  rw [OptionT.run_orElse]
  simp only [Option.elimM, StateT.run_bind, run]
  generalize (OptionT.run (x site)).run s = r
  obtain ⟨_ | a, t⟩ := r <;> rfl

/-- In a context a program has a result and leaves a context with other notes, whatever else there is in the
state. -/
def Yields (x : Converting α) (cx : Context) (p : α × Context) : Prop :=
  ∃ notes, p.2 = cx.withNotes notes ∧ ∀ s, cx.Of s → x.run cx.site s = (some p.1, s.withNotes notes)

namespace Yields

theorem pure (a : α) : Yields (pure a) cx (a, cx) :=
  ⟨cx.notes, rfl, fun s hs => by rw [hs.withNotes_self]; rfl⟩

theorem note (f : Notes → Notes) : Yields (note f) cx ((), cx.withNotes (f cx.notes)) :=
  ⟨f cx.notes, rfl, fun s hs => by rw [← hs.notes]; rfl⟩

theorem context : Yields context cx (cx, cx) :=
  ⟨cx.notes, rfl, fun s hs => by
    rw [hs.withNotes_self]
    exact congrArg (fun cx => (some cx, s)) hs⟩

theorem bind {x : Converting α} {f : α → Converting β} {p : α × Context} {q : β × Context} (hx : Yields x cx p)
    (hf : Yields (f p.1) p.2 q) : Yields (x >>= f) cx q := by
  obtain ⟨notes, hp, hrun⟩ := hx
  obtain ⟨notes', hq, hrun'⟩ := hf
  refine ⟨notes', by rw [hq, hp]; rfl, fun s hs => ?_⟩
  have hnext : p.2.Of (s.withNotes notes) := hp ▸ hs.withNotes notes
  rw [run_bind, hrun s hs]
  rw [show cx.site = p.2.site by rw [hp]; rfl]
  exact hrun' _ hnext

theorem ite {c : Prop} [Decidable c] {x y : Converting α} {p q : α × Context} (hx : c → Yields x cx p)
    (hy : ¬c → Yields y cx q) : Yields (if c then x else y) cx (if c then p else q) := by
  split
  · next h => exact hx h
  · next h => exact hy h

end Yields

theorem yields_declareOnce (name type text : Text) :
    Yields (declareOnce name type text) cx (cx.declareOnce name type text) :=
  .bind .context (.ite (fun _ => .pure _) fun _ => .bind (.note _) (.pure _))

/-! ### Programs that may decline -/

/-- In a context a program declines and leaves the state as it was, or it has an outcome and leaves its notes. -/
def ActsAs (x : Converting Translation) (cx : Context) (accepted : Option Outcome) : Prop :=
  ∀ s, cx.Of s → x.run cx.site s =
    match accepted with
    | some o => (some o.toTranslation, s.withNotes o.notes)
    | none => (none, s)

namespace ActsAs

variable {x y : Converting Translation} {accepted accepted' : Option Outcome}

theorem pure (c : Translation) : ActsAs (pure c) cx (some (cx.outcome c)) := by
  intro s hs
  change _ = (some c, s.withNotes cx.notes)
  rw [hs.withNotes_self]
  rfl

/-- A part that has a result may change the notes, if the rest does not decline. -/
theorem yields {x : Converting α} {f : α → Converting Translation} {p : α × Context} {o : Outcome}
    (hx : Yields x cx p) (hf : ActsAs (f p.1) p.2 (some o)) : ActsAs (x >>= f) cx (some o) := by
  obtain ⟨notes, hp, hrun⟩ := hx
  intro s hs
  have hnext : p.2.Of (s.withNotes notes) := hp ▸ hs.withNotes notes
  rw [run_bind, hrun s hs, show cx.site = p.2.site by rw [hp]; rfl]
  exact hf _ hnext

theorem context {f : Context → Converting Translation} (h : ActsAs (f cx) cx accepted) :
    ActsAs (context >>= f) cx accepted := by
  intro s hs
  rw [run_bind, show Converting.context.run cx.site s = (some cx, s) from congrArg (fun cx => (some cx, s)) hs]
  exact h s hs

theorem lift {o : Option α} {f : α → Converting Translation} {g : α → Option Outcome}
    (h : ∀ a, ActsAs (f a) cx (g a)) : ActsAs (liftM o >>= f) cx (o >>= g) := by
  intro s hs
  rw [run_bind, show (liftM o : Converting α).run cx.site s = (o, s) from rfl]
  cases o with
  | none => rfl
  | some a => exact h a s hs

theorem check {c : Prop} [Decidable c] {f : Unit → Converting Translation} {g : Unit → Option Outcome}
    (h : ActsAs (f ()) cx (g ())) : ActsAs (guard c >>= f) cx (guard c >>= g) := by
  intro s hs
  rw [run_bind]
  by_cases hc : c
  · rw [guard_of_pos hc, guard_of_pos hc]
    exact h s hs
  · rw [guard_of_neg hc, guard_of_neg hc]
    rfl

theorem ite {c : Prop} [Decidable c] (hx : ActsAs x cx accepted) (hy : ActsAs y cx accepted') :
    ActsAs (if c then x else y) cx (if c then accepted else accepted') := by
  split
  · exact hx
  · exact hy

theorem choose {c : Prop} [Decidable c] {o o' : Outcome} (hx : ActsAs x cx (some o)) (hy : ActsAs y cx (some o')) :
    ActsAs (if c then x else y) cx (some (if c then o else o')) := by
  split
  · exact hx
  · exact hy

end ActsAs

end Converting

/-! ### Rules -/

namespace Converter

variable {c : Converter} {f : Context → Text → Option Outcome}

/-- A rule is a function of the context and the line. -/
def Computes (c : Converter) (f : Context → Text → Option Outcome) : Prop :=
  ∀ cx code, ActsAs (c.convert code) cx (f cx code)

theorem Computes.apply_eq (h : c.Computes f) (cx : Context) (code : Text) : c cx code = f cx code := by
  rw [outcome?, h cx code cx.state cx.of_state]
  cases f cx code <;> rfl

theorem Computes.outcome? (h : c.Computes f) : c.Computes c.outcome? := by
  intro cx code
  rw [h.apply_eq]
  exact h cx code

theorem computes_reading (f : Context → Text → Option Translation) :
    (reading f).Computes fun cx code => (f cx code).map cx.outcome := by
  intro cx code
  refine .context ?_
  intro s hs
  change (f cx code, s) = _
  dsimp only
  cases f cx code with
  | none => rfl
  | some c =>
    change _ = (some c, s.withNotes cx.notes)
    rw [hs.withNotes_self]

theorem reading_apply (f : Context → Text → Option Translation) (cx : Context) (code : Text) :
    reading f cx code = (f cx code).map cx.outcome :=
  (computes_reading f).apply_eq cx code

end Converter

/-! ### Rules of indented sources that write -/

namespace Indented

section

variable (cx : Context)

/-- One assignment after another, and the context after them. -/
def assignEach (saved : List Text) : Context → List (Text × Text) → List Text × Context
  | cx, [] => ([], cx)
  | cx, (target, value) :: rest =>
    let value := saved.foldl (fun v t => rename t (savedName t) v) value
    let cx := cx.withNotes (cx.notes.addTypeOf target value)
    let r := assignEach saved cx rest
    (cx.assign target (cx.expr value) :: r.1, r.2)

theorem yields_assignAll (saved : List Text) (pairs : List (Text × Text)) :
    Yields (assignAll saved pairs) cx (assignEach saved cx pairs) := by
  induction pairs generalizing cx with
  | nil => exact .pure _
  | cons pair rest ih => exact .bind (.note _) (.bind .context (.bind (ih _) (.pure _)))

/-- The declaration of a record that has none, and the context after it. -/
def recordOnce (record : Text) (pairs : List (Text × Text)) : List Text × Context :=
  if cx.notes.declaredRecords.contains record then ([], cx)
  else (recordLines cx record pairs,
    cx.withNotes { cx.notes with declaredRecords := cx.notes.declaredRecords.add record })

theorem yields_declareRecord (record : Text) (pairs : List (Text × Text)) :
    Yields (declareRecord record pairs) cx (recordOnce cx record pairs) :=
  .bind .context (.ite (fun _ => .pure _) fun _ => .bind (.note _) (.pure _))

def objectOnce (target cls : Text) : List Text × Context :=
  if cx.style.objectModel && Name.isIdentifier target then cx.declareOnce target cls (cx.declaration target cls)
  else ([], cx)

theorem yields_declareObject (target cls : Text) :
    Yields (declareObject target cls) cx (objectOnce cx target cls) :=
  .bind .context (.ite (fun _ => yields_declareOnce ..) fun _ => .pure _)

def defOutcome? (code : Text) : Option Outcome := do
  let m ← defPattern.whole? code
  let r := routineOf cx (m.group 1) (m.group 2)
  let notes := match (m.group? 3).bind DataType.ofPython? with
    | some type => { cx.notes with returnTypes := cx.notes.returnTypes.set r.key type.name }
    | none => cx.notes
  return (cx.withNotes notes).opens [cx.line (r.header cx.style false none)] (.ofRoutine r)

def returnOutcome? (code : Text) : Option Outcome := do
  let m ← returnPattern.whole? code
  match trim (m.group 1) with
  | [] => return cx.writes [cx.line (cx.kw .returnWord)]
  | value =>
    let cx := cx.withNotes (cx.notes.markReturn cx.blocks (returnType? cx value))
    return cx.writes [cx.line (cx.kw .returnWord ++ " " ++ cx.expr value)]

def lambdaOutcome? (code : Text) : Option Outcome := do
  let m ← lambdaPattern.whole? code
  let cx := cx.withNotes (cx.notes.addLambda (m.group 1))
  let r : Routine := { name := m.group 1, params := parameterNames (m.group 2) }
  let type := (DataType.ofExpression? (m.group 3)).map DataType.name
  return cx.writes
    [cx.line (r.header cx.style true type),
     cx.inner (cx.kw .returnWord ++ " " ++ cx.expr (m.group 3)),
     cx.line (cx.style.terminator (r.kind cx.style true) none none),
     []]

def inputOutcome? (code : Text) : Option Outcome := do
  let m ← inputTarget.whole? code
  let target := m.group 1
  let (value, type) := converted (trim (m.group 2))
  guard (isSingleCall value)
  let call ← inputCall.whole? value
  let prompt := trim (call.group 1)
  let cx := cx.withNotes (cx.notes.addType target type.name)
  let asked := if cx.style.promptInput && !prompt.isEmpty then
      [cx.line (cx.kw .outputWord ++ " " ++ cx.expr prompt)]
    else []
  return cx.writes (asked ++ [cx.line (cx.kw .inputWord ++ " " ++ target)])

def multipleOutcome? (code : Text) : Option Outcome := do
  let m ← multiplePattern.whole? code
  let targets := (pieces ',' (m.group 1)).map trim
  let values := splitTopLevel ',' (m.group 2)
  guard (targets.length = values.length)
  let saved := savedTargets targets values
  let r := assignEach saved cx (targets.zip values)
  return r.2.writes (saved.map (fun t => cx.assign (savedName t) t) ++ r.1)

def dictOutcome? (code : Text) : Option Outcome := do
  let m ← dictPattern.whole? code
  let record := m.group 1
  let body := "\x7b" ++ m.group 2 ++ "\x7d"
  guard (!isComprehension body)
  let pairs ← dictPairs? (m.group 2)
  if !cx.style.records then return cx.writes [cx.assign record (cx.expr body)]
  else
    let r := recordOnce cx record pairs
    return r.2.writes (r.1 ++ pairs.map fun p => r.2.assign (record ++ "." ++ p.1) (r.2.expr p.2))

def listOutcome? (code : Text) : Option Outcome := do
  let m ← listPattern.whole? code
  let array := m.group 1
  let body := "[" ++ m.group 2 ++ "]"
  guard (!isComprehension body)
  let items := splitTopLevel ',' (m.group 2)
  if !cx.style.arrayDeclarations || items.isEmpty then
    return cx.writes [cx.assign array (cx.expr body)]
  else
    let type := DataType.ofElements items
    let r := cx.declareOnce array (DataType.arrayOf type.name)
      (cx.line (cx.style.arrayDeclaration array (ofNat items.length) type.name))
    let elements := items.mapIdx fun i item =>
      r.2.assign (array ++ "[" ++ ofNat i ++ "]") (elementText r.2 type item)
    return r.2.writes (r.1 ++ elements)

def instanceOutcome? (code : Text) : Option Outcome := do
  let m ← instancePattern.whole? code
  let target := m.group 1
  let cls := m.group 2
  guard (cx.symbols.isClass cls)
  let r := objectOnce cx target cls
  return r.2.writes (r.1 ++ [r.2.assign target (r.2.expr (cls ++ "(" ++ m.group 3 ++ ")"))])

def constantOutcome? (code : Text) : Option Outcome := do
  guard cx.style.constants
  let m ← constantPattern.whole? code
  let value := trim (m.group 2)
  let type ← DataType.ofLiteral? value
  guard (Name.isConstant (m.group 1))
  let cx := cx.withNotes (cx.notes.addType (m.group 1) type.name)
  return cx.writes [cx.line (cx.kw .constantWord ++ " " ++ m.group 1 ++ " = " ++ cx.expr value)]

def assignmentOutcome? (code : Text) : Option Outcome := do
  let (target, value) ← splitAssignment? code
  let target := bareTarget (trim target)
  let value := trim value
  guard (!value.isEmpty && Name.isTarget target && !isComprehension value)
  let cx := cx.withNotes (if Name.isIdentifier target then cx.notes.addTypeOf target value else cx.notes)
  return cx.writes [cx.assign (cx.expr target) (cx.expr value)]

end

theorem computes_defRule : defRule.Computes defOutcome? := by
  intro cx code
  exact .lift fun m => .context (.yields (.note _) (.pure _))

theorem computes_returnRule : returnRule.Computes returnOutcome? := by
  intro cx code
  refine .lift fun m => .context ?_
  cases trim (m.group 1) with
  | nil => exact .pure _
  | cons c cs => exact .yields (.note _) (.context (.pure _))

theorem computes_lambdaRule : lambdaRule.Computes lambdaOutcome? := by
  intro cx code
  exact .lift fun m => .yields (.note _) (.context (.pure _))

theorem computes_inputRule : inputRule.Computes inputOutcome? := by
  intro cx code
  exact .lift fun m => .check (.lift fun call => .yields (.note _) (.context (.pure _)))

theorem computes_multipleRule : multipleRule.Computes multipleOutcome? := by
  intro cx code
  exact .lift fun m => .check (.context (.yields (yields_assignAll ..) (.pure _)))

theorem computes_dictRule : dictRule.Computes dictOutcome? := by
  intro cx code
  exact .lift fun m => .check (.lift fun pairs => .context
    (.ite (.pure _) (.yields (yields_declareRecord ..) (.context (.pure _)))))

theorem computes_listRule : listRule.Computes listOutcome? := by
  intro cx code
  exact .lift fun m => .check (.context
    (.ite (.pure _) (.yields (yields_declareOnce ..) (.context (.pure _)))))

theorem computes_instanceRule : instanceRule.Computes instanceOutcome? := by
  intro cx code
  exact .lift fun m => .context (.check (.yields (yields_declareObject ..) (.context (.pure _))))

theorem computes_constantRule : constantRule.Computes constantOutcome? := by
  intro cx code
  exact .context (.check (.lift fun m => .lift fun type => .check (.yields (.note _) (.context (.pure _)))))

theorem computes_assignmentRule : assignmentRule.Computes assignmentOutcome? := by
  intro cx code
  exact .lift fun parts => .check (.yields (.note _) (.context (.pure _)))

/-- Every rule computes its outcomes. -/
theorem computes_rules : ∀ r ∈ rules, r.apply.Computes r.apply.outcome? := by
  have hreading (f : Context → Text → Option Translation) :
      (Converter.reading f).Computes (Converter.reading f).outcome? :=
    (Converter.computes_reading f).outcome?
  simp only [rules, List.forall_mem_cons]
  exact
    ⟨hreading _, hreading _, hreading _, computes_defRule.outcome?, computes_returnRule.outcome?, hreading _,
     hreading _, hreading _, hreading _, hreading _, hreading _, hreading _, hreading _, hreading _, hreading _,
     computes_lambdaRule.outcome?, hreading _, computes_inputRule.outcome?, hreading _,
     computes_multipleRule.outcome?, computes_dictRule.outcome?, computes_listRule.outcome?,
     computes_instanceRule.outcome?, computes_constantRule.outcome?, computes_assignmentRule.outcome?, hreading _,
     List.forall_mem_nil _⟩

end Indented

/-! ### Rules of braced sources that write -/

namespace Braced

section

variable (cx : Context)

theorem yields_noteTypes (params : List (Text × Text)) :
    Yields (noteTypes params) cx
      ((), cx.withNotes (params.foldl (fun n p => n.setType p.1 p.2) cx.notes)) := by
  induction params generalizing cx with
  | nil => exact .pure ()
  | cons p ps ih => exact .bind (.note _) (ih _)

/-- The declaration of a variable, in dialects that declare variables, and the context after it. -/
def declared (var type : Text) : List Text × Context :=
  if cx.style.declareVariables then cx.declareOnce var type (cx.declaration var type)
  else ([], cx.withNotes (cx.notes.addType var type))

theorem yields_declareVariable (var type : Text) :
    Yields (declareVariable var type) cx (declared cx var type) :=
  .bind .context (.ite (fun _ => yields_declareOnce ..) fun _ => .bind (.note _) (.pure _))

def declaredRead (m : Match) : List Text × Context :=
  match m.group? 1 with
  | some type => declared cx (m.group 2) (DataType.ofJavaParameter type)
  | none => ([], cx.withNotes (cx.notes.addType (m.group 2) (readType (m.group 4)).name))

theorem yields_declareRead (m : Match) : Yields (declareRead m) cx (declaredRead cx m) := by
  unfold declareRead declaredRead
  cases m.group? 1 with
  | some type => exact yields_declareVariable ..
  | none => exact .bind (.note _) (.pure _)

def declaredArray (array type : Text) (count : Nat) : List Text × Context :=
  if cx.style.declareVariables then
    cx.declareOnce array (DataType.arrayOf type) (cx.line (cx.style.arrayDeclaration array (ofNat count) type))
  else ([], cx)

theorem yields_declareArray (array type : Text) (count : Nat) :
    Yields (declareArray array type count) cx (declaredArray cx array type count) :=
  .bind .context (.ite (fun _ => yields_declareOnce ..) fun _ => .pure _)

/-- Variables declared one after another, and the context after them. -/
def declaredAll (type : Text) : Context → List Text → List Text × Context
  | cx, [] => ([], cx)
  | cx, var :: vars =>
    let r := declaredAll type (declared cx var type).2 vars
    ((declared cx var type).1 ++ r.1, r.2)

theorem yields_declareAll (type : Text) (vars : List Text) :
    Yields (declareAll type vars) cx (declaredAll type cx vars) := by
  induction vars generalizing cx with
  | nil => exact .pure _
  | cons var vars ih => exact .bind (yields_declareVariable ..) (.bind (ih _) (.pure _))

def methodOutcome? (code : Text) : Option Outcome := do
  let m ← methodPattern.whole? code
  let name := m.group 3
  let type := m.group? 2
  guard (!isOneOf notMethods name)
  guard (type.all fun t => !isOneOf notMethods t && t != "else")
  let isConstructor := type.isNone && cx.openClass? = some name
  guard (type.isSome || isConstructor)
  let params := parameters name (m.group 4)
  let method : Method :=
    { modifiers := words (m.group 1), name, params, type, isConstructor
      inClass := cx.openClass?.isSome }
  let notes := params.foldl (fun n p => n.setType p.1 p.2) cx.notes
  return (cx.withNotes notes).opens [cx.line (method.header cx.style)] { kind := method.kind cx.style }

def countOutcome? (code : Text) : Option Outcome := do
  let m ← countPattern.whole? code
  let var := m.group 1
  guard (m.group 3 = var)
  let stop := lastValue (m.group 4) (cx.expr (m.group 5))
  let header := cx.style.forHeader var (cx.expr (m.group 2)) stop (loopStep? (m.group 6) var)
  return (cx.withNotes (cx.notes.addType var DataType.integer.name)).opens [cx.line header] (.loop var)

def scannerOutcome? (code : Text) : Option Outcome :=
  match scannerPattern.whole? code with
  | some m => some ((cx.withNotes (cx.notes.setType (m.group 1) scanner)).writes [])
  | none => do
    let m ← closePattern.whole? code
    guard (isScanner cx (m.group 1))
    return cx.writes []

def inputOutcome? (code : Text) : Option Outcome := do
  let m ← readPattern.whole? code
  guard (isScanner cx (m.group 3) || !cx.notes.types.has (m.group 3))
  let r := declaredRead cx m
  return r.2.writes (r.1 ++ [cx.line (cx.kw .inputWord ++ " " ++ m.group 2)])

def newArrayOutcome (m : Match) : Outcome :=
  let type := DataType.ofJavaParameter (m.group 1)
  let text := cx.line (cx.style.arrayDeclaration (m.group 3) (cx.expr (m.group 5)) type)
  (cx.withNotes (cx.notes.setType (m.group 3) (DataType.arrayOf type))).writes [text]

def arrayLiteralOutcome (m : Match) : Outcome :=
  let items := (splitTopLevel ',' (m.group 5)).map cx.expr
  let r := declaredArray cx (m.group 3) (DataType.ofJavaParameter (m.group 1)) items.length
  r.2.writes (r.1 ++ [cx.assign (m.group 3) ("[" ++ join ", " items ++ "]")])

def arrayOutcome? (code : Text) : Option Outcome :=
  match arrayNewPattern.whole? code with
  | some m => do
    guard (hasBrackets m)
    return newArrayOutcome cx m
  | none => do
    let m ← arrayLiteralPattern.whole? code
    guard (hasBrackets m)
    return arrayLiteralOutcome cx m

def fieldOutcome (mods : List Text) (type : Text) (vars : List Text) (value : Option Text) : Outcome :=
  if cx.style.objectModel then
    let visibility := cx.kw (if mods.contains "public" then .publicWord else .privateWord)
    (cx.withNotes ((vars.map (·, type)).foldl (fun n p => n.setType p.1 p.2) cx.notes)).writes
      (vars.map fun v => cx.line (visibility ++ " " ++ v ++ " : " ++ type))
  else match value with
    | some value => cx.writes [cx.assign (vars.headD []) (cx.expr value)]
    | none => cx.writes []

def constantOutcome (type var value : Text) : Outcome :=
  let cx := cx.withNotes (cx.notes.addType var type)
  cx.writes [cx.line (cx.kw .constantWord ++ " " ++ var ++ " = " ++ cx.expr value)]

def variableOutcome (type : Text) (vars : List Text) (value : Option Text) : Outcome :=
  let r := declaredAll type cx vars
  match value with
  | some value => r.2.writes (r.1 ++ [r.2.assign (vars.headD []) (r.2.expr value)])
  | none => r.2.writes r.1

/-- A constant, a field directly inside a class, or a variable. -/
def declarationOutcome (mods : List Text) (type : Text) (vars : List Text) (value : Option Text) : Outcome :=
  match value with
  | some v =>
    if mods.contains "final" && cx.style.constants then constantOutcome cx type (vars.headD []) v
    else if cx.openClass?.isSome then fieldOutcome cx mods type vars value
    else variableOutcome cx type vars value
  | none =>
    if cx.openClass?.isSome then fieldOutcome cx mods type vars value
    else variableOutcome cx type vars value

def declarationOutcome? (code : Text) : Option Outcome := do
  let m ← declarationPattern.whole? code
  guard (!isOneOf notTypes (m.group 2))
  let vars := (pieces ',' (m.group 3)).map trim
  let value := (m.group? 4).map trim
  guard (value.isNone || vars.length ≤ 1)
  return declarationOutcome cx (words (m.group 1)) (DataType.ofJavaParameter (m.group 2)) vars value

private theorem actsAs_declareFields (mods : List Text) (type : Text) (vars : List Text) (value : Option Text) :
    ActsAs (declareFields mods type vars value) cx (some (fieldOutcome cx mods type vars value)) := by
  refine .context ?_
  unfold fieldOutcome
  split
  · exact .yields (yields_noteTypes ..) (.pure _)
  · cases value with
    | some value => exact .pure _
    | none => exact .pure _

private theorem actsAs_declareConstant (type var value : Text) :
    ActsAs (declareConstant type var value) cx (some (constantOutcome cx type var value)) :=
  .yields (.note _) (.context (.pure _))

private theorem actsAs_declareVariables (type : Text) (vars : List Text) (value : Option Text) :
    ActsAs (declareVariables type vars value) cx (some (variableOutcome cx type vars value)) := by
  refine .yields (yields_declareAll ..) (.context ?_)
  cases value with
  | some value => exact .pure _
  | none => exact .pure _

end

theorem computes_methodRule : methodRule.Computes methodOutcome? := by
  intro cx code
  exact .lift fun m => .check (.check (.context (.check (.yields (yields_noteTypes ..) (.pure _)))))

theorem computes_countRule : countRule.Computes countOutcome? := by
  intro cx code
  exact .lift fun m => .check (.context (.yields (.note _) (.pure _)))

theorem computes_scannerRule : scannerRule.Computes scannerOutcome? := by
  intro cx code
  unfold scannerRule scannerOutcome?
  dsimp only
  cases scannerPattern.whole? code with
  | some m => exact .yields (.note _) (.pure _)
  | none => exact .lift fun m => .context (.check (.pure _))

theorem computes_inputRule : inputRule.Computes inputOutcome? := by
  intro cx code
  exact .lift fun m => .context (.check (.yields (yields_declareRead ..) (.pure _)))

theorem computes_arrayRule : arrayRule.Computes arrayOutcome? := by
  intro cx code
  unfold arrayRule arrayOutcome?
  dsimp only
  cases arrayNewPattern.whole? code with
  | some m => exact .check (.context (.yields (.note _) (.pure _)))
  | none => exact .lift fun m => .check (.context (.yields (yields_declareArray ..) (.pure _)))

theorem computes_declarationRule : declarationRule.Computes declarationOutcome? := by
  intro cx code
  refine .lift fun m => .check (.check (.context ?_))
  have hfields := actsAs_declareFields cx (words (m.group 1)) (DataType.ofJavaParameter (m.group 2))
    ((pieces ',' (m.group 3)).map trim) ((m.group? 4).map trim)
  have hvariables := actsAs_declareVariables cx (DataType.ofJavaParameter (m.group 2))
    ((pieces ',' (m.group 3)).map trim) ((m.group? 4).map trim)
  unfold declarationOutcome
  cases hvalue : (m.group? 4).map trim with
  | some v =>
    rw [hvalue] at hfields hvariables
    exact .choose (actsAs_declareConstant cx _ _ v) (.choose hfields hvariables)
  | none =>
    rw [hvalue] at hfields hvariables
    exact .choose hfields hvariables

/-- Every rule computes its outcomes. -/
theorem computes_rules : ∀ r ∈ rules, r.apply.Computes r.apply.outcome? := by
  have hreading (f : Context → Text → Option Translation) :
      (Converter.reading f).Computes (Converter.reading f).outcome? :=
    (Converter.computes_reading f).outcome?
  simp only [rules, List.forall_mem_cons]
  exact
    ⟨hreading _, computes_scannerRule.outcome?, hreading _, computes_methodRule.outcome?, hreading _, hreading _,
     hreading _, computes_countRule.outcome?, hreading _, hreading _, hreading _, hreading _, hreading _, hreading _,
     hreading _, hreading _, hreading _, computes_inputRule.outcome?, computes_arrayRule.outcome?,
     computes_declarationRule.outcome?, hreading _, hreading _, hreading _, hreading _, List.forall_mem_nil _⟩

end Braced

/-! ### The search through the rules -/

theorem Convention.computes_rules (conv : Convention) : ∀ r ∈ conv.rules, r.apply.Computes r.apply.outcome? := by
  cases conv with
  | indentation => exact Indented.computes_rules
  | braces => exact Braced.computes_rules

section

variable {st : Style} {conv : Convention} {indent code : Text} (s : State)

theorem Converter.Computes.run_eq {c : Converter} (h : c.Computes c.outcome?) :
    (c.convert code).run ⟨st, conv, indent⟩ s =
      match c (s.context st conv indent) code with
      | some o => (some o.toTranslation, s.withNotes o.notes)
      | none => (none, s) :=
  h (s.context st conv indent) code s (s.of_context st conv indent)

/-- Rules that decline leave no trace, so the first that accepts does so in the state at the start. -/
theorem Converting.run_first {rules : List Rule} (h : ∀ r ∈ rules, r.apply.Computes r.apply.outcome?) :
    (first code rules).run ⟨st, conv, indent⟩ s =
      match rules.findSome? fun r => (r.apply (s.context st conv indent) code).map fun o => (r.name, o) with
      | some (name, o) => (some (name, o.toTranslation), s.withNotes o.notes)
      | none => (none, s) := by
  induction rules with
  | nil => rfl
  | cons r rules ih =>
    obtain ⟨hr, hrules⟩ := List.forall_mem_cons.mp h
    rw [first, run_orElse, run_bind, hr.run_eq, List.findSome?_cons]
    cases r.apply (s.context st conv indent) code with
    | none => exact ih hrules
    | some o => rfl

theorem State.dispatch_eq : s.dispatch st conv indent code =
    match (s.context st conv indent).convert? code with
    | some (name, o) => (some (name, o.toTranslation), s.withNotes o.notes)
    | none => (none, s) :=
  Converting.run_first s conv.computes_rules

theorem State.convert?_eq : s.convert? st conv indent code =
    ((s.context st conv indent).convert? code).map fun r => (r, s.withNotes r.2.notes) := by
  rw [convert?, dispatch_eq]
  cases (s.context st conv indent).convert? code <;> rfl

end

end Pseudocode
