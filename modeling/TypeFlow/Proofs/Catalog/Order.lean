import TypeFlow.Proofs.Catalog.Accepted
import TypeFlow.Proofs.Eval.Agreement

/-!
# The order of definitions in a catalog

Definitions may come in any order and in any file. Their frame gives every name the same meaning, so
the variables, which are evaluated there one after the other, have the same values. That holds as
well if variables share what is remembered: the memo depends on the order, but no result does.
-/

namespace TypeFlow

open List

namespace Interface

/-- The interface with another scope. -/
def inScope (interface : Interface) (scope : Scope) : Interface := { interface with scope }

variable {scope scope' : Scope} (agrees : scope.Agrees scope')
include agrees

/-- Adapters are the same in scopes that agree. -/
theorem adapterOf_agrees (kind : InputKind) : adapterOf scope kind = adapterOf scope' kind := by
  cases kind with
  | dropdown options => simp only [adapterOf, agrees.evaluate]
  | _ => rfl

/-- Inputs are added alike. -/
theorem addInput_agrees : addInput scope = addInput scope' := by
  funext sofar input
  simp only [addInput, agrees.evaluate, adapterOf_agrees agrees]

/-- Interfaces differ in their scope only. -/
theorem ofSchema_agrees {schema : NodeSchema} {interface : Interface}
    (evaluated : ofSchema schema scope = .ok interface) :
    interface.scope = scope ∧ ofSchema schema scope' = .ok (interface.inScope scope') := by
  unfold ofSchema at evaluated ⊢
  rw [← addInput_agrees agrees]
  obtain ⟨inputs, ran, same⟩ := bind_eq_ok_iff.mp evaluated
  obtain rfl := Except.ok.inj same
  exact ⟨rfl, bind_eq_ok_iff.mpr ⟨inputs, ran, rfl⟩⟩

omit agrees in
/-- The scope of an interface may be exchanged. -/
theorem bind_inScope {interface : Interface} (agrees : interface.scope.Agrees scope') :
    (interface.inScope scope').bind = interface.bind := by
  have outputs : bindOutput scope' = bindOutput interface.scope := by
    funext generics narrowing bound output
    simp only [bindOutput, agrees.evaluate]
  funext provider narrowing passthrough
  simp only [bind, inScope, outputs]

end Interface

namespace Signature

/-- Two signatures say the same, although the definitions in their scopes may have different
places. -/
structure Alike (s s' : Signature) : Prop where
  schema : s.schema = s'.schema
  inputs : s.inputs = s'.inputs
  adapters : s.adapters = s'.adapters
  default : s.default = s'.default
  bind : s.bind = s'.bind

/-- The signature with another scope. -/
def inScope (s : Signature) (scope : Scope) : Signature := { s with scope }

/-- Signatures differ in their scope only. -/
theorem ofSchema_agrees {scope scope' : Scope} (agrees : scope.Agrees scope')
    {schema : NodeSchema} {s : Signature} (evaluated : ofSchema schema scope = .ok s) :
    s.scope = scope ∧ ofSchema schema scope' = .ok (s.inScope scope') := by
  unfold ofSchema at evaluated ⊢
  obtain ⟨interface, ran, evaluated⟩ := bind_eq_ok_iff.mp evaluated
  obtain ⟨default, bound, same⟩ := bind_eq_ok_iff.mp evaluated
  obtain rfl := Except.ok.inj same
  obtain ⟨rfl, ran'⟩ := Interface.ofSchema_agrees agrees ran
  rw [← Interface.bind_inScope agrees] at bound
  exact ⟨rfl, bind_eq_ok_iff.mpr ⟨_, ran', bind_eq_ok_iff.mpr ⟨default, bound, rfl⟩⟩⟩

/-- Exchanging the scope changes nothing that counts. -/
theorem alike_inScope {s : Signature} {scope : Scope} (agrees : s.scope.Agrees scope) :
    s.Alike (s.inScope scope) :=
  ⟨rfl, rfl, rfl, rfl, (Interface.bind_inScope agrees).symm⟩

/-- What is passed through stays the same. -/
theorem passthrough?_inScope (s : Signature) (scope : Scope) :
    (s.inScope scope).passthrough? = s.passthrough? := by
  have fitting (t : Ty) (inputs : List InputSchema) :
      (s.inScope scope).fittingInput? t inputs = s.fittingInput? t inputs := by
    induction inputs with
    | nil => rfl
    | cons input rest ih =>
      simp only [fittingInput?, ih]
      rfl
  have inputs (output : OutputSchema) :
      (s.inScope scope).passthroughInput? output = s.passthroughInput? output := by
    unfold passthroughInput?
    simp only [fitting]
    rfl
  unfold passthrough?
  simp only [inputs]
  rfl

end Signature

namespace Catalog

/-- Name and meaning of an entry that is no variable. -/
def asDefinition : CatalogEntry → Option (String × Definition)
  | .struct name fields => some (name, .struct fields)
  | .alias name type => some (name, .alias type)
  | .function name parameters body => some (name, .function parameters body)
  | .variable _ _ => none

/-- The scope of the definitions without variables. -/
def definitionScope (entries : List CatalogEntry) : Scope :=
  ⟨"catalog", entries.filterMap asDefinition⟩ :: Prelude.scope

/-- A variable can be added: its name is free, and its expression has a type. -/
def HasValue (definitions : Scope) (entry : String × Expr) : Prop :=
  definitions.local? entry.1 = none ∧ ∃ value, definitions.evaluate [] entry.2 = .ok value

/-- A variable with its type. -/
def variableEntry (definitions : Scope) (entry : String × Expr) : String × Definition :=
  (entry.1, .variable ((definitions.evaluate [] entry.2).toOption.getD .never))

/-- The scope with a frame of variables, if there are any. -/
def withVariables (definitions : Scope) : List (String × Definition) → Scope
  | [] => definitions
  | values => ⟨"variables", values⟩ :: definitions

/-- Entries are added as definitions. -/
theorem foldlM_addEntry (entries : List CatalogEntry) (b : Builder) :
    entries.foldlM addEntry b =
      (entries.filterMap asDefinition).foldlM (fun b entry => b.add entry.1 entry.2) b := by
  induction entries generalizing b with
  | nil => rfl
  | cons entry rest ih =>
    cases entry with
    | «variable» name value => exact ih b
    | _ =>
      simp only [foldlM_cons, filterMap_cons, asDefinition, addEntry]
      exact bind_congr ih

variable {definitions : Scope} {entry : String × Expr} {named : List (String × Expr)}
  {entries : List CatalogEntry}

/-- A variable stands for its value. -/
theorem variableEntry_of_ok {value : Ty} (same : definitions.evaluate [] entry.2 = .ok value) :
    variableEntry definitions entry = (entry.1, .variable value) := by
  rw [variableEntry, same]
  rfl

/-- A variable is added if it has a value. -/
theorem addVariable_eq_ok_iff {b b' : Builder} :
    addVariable definitions b entry = .ok b' ↔
      HasValue definitions entry ∧
        b.add (variableEntry definitions entry).1 (variableEntry definitions entry).2 = .ok b' := by
  unfold addVariable HasValue
  simp only
  split
  · next taken =>
    refine iff_of_false (by simp [Run.fail]) fun both => ?_
    rw [both.1.1] at taken
    cases taken
  · next free =>
    simp only [bind_eq_ok_iff, Run.mapError_eq_ok_iff, Run.ofExcept_eq_ok_iff]
    constructor
    · rintro ⟨value, same, added⟩
      rw [variableEntry_of_ok same]
      exact ⟨⟨Option.not_isSome_iff_eq_none.mp free, value, same⟩, added⟩
    · rintro ⟨⟨-, value, same⟩, added⟩
      rw [variableEntry_of_ok same] at added
      exact ⟨value, same, added⟩

/-- Variables can be added one after the other exactly if all have values and their names are
proper. -/
theorem foldlM_addVariable_eq_ok_iff {name : String} {b : Builder} :
    named.foldlM (addVariable definitions) (Builder.new name definitions) = .ok b ↔
      (∀ entry ∈ named, HasValue definitions entry) ∧
        ProperEntries (named.map (variableEntry definitions)) ∧
        b = ⟨name, definitions, named.map (variableEntry definitions)⟩ := by
  have added (start : Builder) : named.foldlM (addVariable definitions) start = .ok b ↔
      (∀ entry ∈ named, HasValue definitions entry) ∧
        (named.map (variableEntry definitions)).foldlM (fun b entry => b.add entry.1 entry.2)
          start = .ok b := by
    induction named generalizing start with
    | nil => simp [pure, Except.pure]
    | cons entry rest ih =>
      rw [foldlM_cons, map_cons, foldlM_cons, forall_mem_cons]
      simp only [bind_eq_ok_iff, addVariable_eq_ok_iff, ih]
      constructor
      · rintro ⟨next, ⟨here, first⟩, each, later⟩
        exact ⟨⟨here, each⟩, next, first, later⟩
      · rintro ⟨⟨here, each⟩, next, first, later⟩
        exact ⟨next, ⟨here, first⟩, each, later⟩
  rw [added, Builder.foldlM_add_eq_ok_iff]

variable {scope scope' : Scope}

/-- Definitions make a scope exactly if they are proper, the variables have values, and their
names are proper as well. -/
theorem scopeOf_eq_ok_iff :
    scopeOf entries = .ok scope ↔
      ProperEntries (entries.filterMap asDefinition) ∧
        (∀ entry ∈ entries.filterMap asVariable, HasValue (definitionScope entries) entry) ∧
        ProperEntries
          ((entries.filterMap asVariable).map (variableEntry (definitionScope entries))) ∧
        scope = withVariables (definitionScope entries)
          ((entries.filterMap asVariable).map (variableEntry (definitionScope entries))) := by
  unfold scopeOf
  rw [foldlM_addEntry]
  simp only [bind_eq_ok_iff, Run.mapError_eq_ok_iff, Run.ofExcept_eq_ok_iff,
    Builder.foldlM_add_eq_ok_iff]
  constructor
  · rintro ⟨_, ⟨proper, rfl⟩, made⟩
    refine ⟨proper, ?_⟩
    cases named : entries.filterMap asVariable with
    | nil =>
      rw [named] at made
      exact ⟨by simp, ⟨nodup_nil, by simp⟩, (Except.ok.inj made).symm⟩
    | cons first rest =>
      rw [named] at made
      obtain ⟨b, ran, made⟩ := bind_eq_ok_iff.mp made
      obtain ⟨each, properValues, rfl⟩ := foldlM_addVariable_eq_ok_iff.mp ran
      exact ⟨each, properValues, (Except.ok.inj made).symm⟩
  · rintro ⟨proper, each, properValues, rfl⟩
    refine ⟨_, ⟨proper, rfl⟩, ?_⟩
    cases named : entries.filterMap asVariable with
    | nil => rfl
    | cons first rest =>
      rw [named] at each properValues
      exact bind_eq_ok_iff.mpr ⟨_, foldlM_addVariable_eq_ok_iff.mpr ⟨each, properValues, rfl⟩, rfl⟩

/-- Variables of scopes that agree. -/
theorem withVariables_agrees {definitions definitions' : Scope}
    (agrees : definitions.Agrees definitions') {values values' : List (String × Definition)}
    (perm : values.Perm values') (nodup : (values.map (·.1)).Nodup) :
    (withVariables definitions values).Agrees (withVariables definitions' values') := by
  cases values with
  | nil =>
    obtain rfl := perm.nil_eq
    exact agrees
  | cons first rest =>
    cases values' with
    | nil => exact absurd perm (not_perm_cons_nil)
    | cons first' rest' => exact .cons (Frame.agrees_of_perm perm nodup) agrees

/-- Definitions in another order make a scope as well, and the scopes agree. -/
theorem scopeOf_perm {entries entries' : List CatalogEntry} (perm : entries.Perm entries')
    (made : scopeOf entries = .ok scope) :
    ∃ scope', scopeOf entries' = .ok scope' ∧ scope.Agrees scope' := by
  obtain ⟨proper, each, properValues, rfl⟩ := scopeOf_eq_ok_iff.mp made
  have definitions : (definitionScope entries).Agrees (definitionScope entries') :=
    .cons (Frame.agrees_of_perm (perm.filterMap asDefinition) proper.1)
      (Scope.Agrees.refl Prelude.scope)
  have values : variableEntry (definitionScope entries) =
      variableEntry (definitionScope entries') := by
    funext entry
    rw [variableEntry, variableEntry, definitions.evaluate]
  have free (name : String) : (definitionScope entries).local? name =
      (definitionScope entries').local? name :=
    (Frame.agrees_of_perm (perm.filterMap asDefinition) proper.1).meaning name
  have permValues : ((entries.filterMap asVariable).map
      (variableEntry (definitionScope entries))).Perm
      ((entries'.filterMap asVariable).map (variableEntry (definitionScope entries'))) := by
    rw [← values]
    exact (perm.filterMap asVariable).map _
  refine ⟨_, scopeOf_eq_ok_iff.mpr ⟨?_, ?_, ?_, rfl⟩, ?_⟩
  · exact (properEntries_perm (perm.filterMap asDefinition)).mp proper
  · intro entry mem
    obtain ⟨unused, value, same⟩ := each entry ((perm.filterMap asVariable).mem_iff.mpr mem)
    refine ⟨by rw [← free, unused], value, by rw [← definitions.evaluate, same]⟩
  · exact (properEntries_perm permValues).mp properValues
  · exact withVariables_agrees definitions permValues properValues.1

/-- The signatures in another scope. -/
def signaturesIn (scope : Scope) (signatures : List (SchemaId × Signature)) :
    List (SchemaId × Signature) :=
  signatures.map fun entry => (entry.1, entry.2.inScope scope)

/-- All signatures of scopes that agree. -/
theorem signaturesOf_agrees (agrees : scope.Agrees scope') {schemas : List NodeSchema}
    {signatures : List (SchemaId × Signature)}
    (signed : signaturesOf scope schemas = .ok signatures) :
    signaturesOf scope' schemas = .ok (signaturesIn scope' signatures) := by
  unfold signaturesOf at signed ⊢
  induction schemas generalizing signatures with
  | nil =>
    obtain rfl := Except.ok.inj signed
    rfl
  | cons schema rest ih =>
    rw [mapM_cons] at signed ⊢
    obtain ⟨entry, here, signed⟩ := bind_eq_ok_iff.mp signed
    obtain ⟨entries, later, signed⟩ := bind_eq_ok_iff.mp signed
    obtain rfl := Except.ok.inj signed
    obtain ⟨s, ran, same⟩ := bind_eq_ok_iff.mp here
    obtain rfl := Except.ok.inj same
    have ran' := (Signature.ofSchema_agrees agrees (Run.mapError_eq_ok_iff.mp ran)).2
    refine bind_eq_ok_iff.mpr ⟨(schema.id, s.inScope scope'), ?_, ?_⟩
    · exact bind_eq_ok_iff.mpr ⟨_, Run.mapError_eq_ok_iff.mpr ran', rfl⟩
    · exact bind_eq_ok_iff.mpr ⟨_, ih later, rfl⟩

/-- What is passed through ignores the scope. -/
theorem passthroughOf_signaturesIn (scope : Scope) (signatures : List (SchemaId × Signature)) :
    passthroughOf (signaturesIn scope signatures) = passthroughOf signatures := by
  unfold passthroughOf signaturesIn
  rw [mapM_map]
  simp only [Function.comp_def, Signature.passthrough?_inScope]

open Eval

/-- Evaluates a variable with what is remembered and adds it to a frame. -/
def addVariableWith (definitions : Scope) (sofar : Builder × Memo) (entry : String × Expr) :
    Run CatalogError (Builder × Memo) := do
  if (definitions.local? entry.1).isSome then
    Run.fail (.definition (.repeatedName entry.1 (definitions.name?.getD "")))
  else
    let ran := definitions.evaluateWith [] entry.2 sofar.2
    let value ← Run.mapError (.variable entry.1) ran.1
    let builder ← Run.mapError .definition (Run.ofExcept (sofar.1.add entry.1 (.variable value)))
    return (builder, ran.2)

/-- The scope of definitions, with what is remembered after the variables. -/
def scopeWithMemo (entries : List CatalogEntry) : Run CatalogError (Scope × Memo) := do
  let builder ← Run.mapError .definition <| Run.ofExcept <|
    entries.foldlM addEntry (Builder.new "catalog" Prelude.scope)
  let definitions := builder.build
  match entries.filterMap asVariable with
  | [] => return (definitions, [])
  | named =>
    let made ← named.foldlM (addVariableWith definitions) (Builder.new "variables" definitions, [])
    return (made.1.build, made.2)

/-- No variable runs out of levels. -/
def Ends (entries : List CatalogEntry) : Prop :=
  ∀ entry ∈ entries.filterMap asVariable,
    (definitionScope entries).evaluate [] entry.2 ≠ exhausted

/-- A variable added with a memo. -/
theorem addVariableWith_eq {memo : Memo} (reached : Reached definitions memo)
    {entry : String × Expr} (ended : definitions.evaluate [] entry.2 ≠ exhausted) (b : Builder) :
    addVariableWith definitions (b, memo) entry =
      (·, (definitions.evaluateWith [] entry.2 memo).2) <$> addVariable definitions b entry := by
  unfold addVariableWith addVariable
  simp only [reached.evaluateWith_eq (suffix_refl definitions) ended]
  split
  · rfl
  · rw [map_bind]
    refine bind_congr fun value => ?_
    rw [map_eq_pure_bind]

/-- Variables added with a memo handed on. -/
theorem foldlM_addVariableWith
    (ended : ∀ entry ∈ named, definitions.evaluate [] entry.2 ≠ exhausted) {memo : Memo}
    (reached : Reached definitions memo) (b b' : Builder) :
    ((∃ memo', named.foldlM (addVariableWith definitions) (b, memo) = .ok (b', memo')) ↔
      named.foldlM (addVariable definitions) b = .ok b') ∧
    ∀ memo', named.foldlM (addVariableWith definitions) (b, memo) = .ok (b', memo') →
      Reached definitions memo' := by
  induction named generalizing memo b with
  | nil =>
    simp only [foldlM_nil, pure, Except.pure, Except.ok.injEq, Prod.mk.injEq]
    refine ⟨⟨?_, fun same => ⟨memo, same, rfl⟩⟩, ?_⟩
    · rintro ⟨_, same, -⟩
      exact same
    · rintro memo' ⟨-, rfl⟩
      exact reached
  | cons entry rest ih =>
    obtain ⟨here, others⟩ := forall_mem_cons.mp ended
    rw [foldlM_cons, foldlM_cons, addVariableWith_eq reached here, bind_map_left]
    cases added : addVariable definitions b entry with
    | error h => simp [bind, Except.bind]
    | ok next =>
      obtain ⟨⟨-, value, same⟩, -⟩ := addVariable_eq_ok_iff.mp added
      have answer := reached.evaluateWith_eq (suffix_refl definitions) here
      rw [same] at answer
      exact ih others
        (reached.evaluateWith (suffix_refl definitions) (by rw [answer]; simp)) next

/-- Variables that share what is remembered make the same scope, and what is remembered then comes
from calls in that scope. -/
theorem scopeWithMemo_eq_ok (ended : Ends entries) :
    ((∃ memo, scopeWithMemo entries = .ok (scope, memo)) ↔ scopeOf entries = .ok scope) ∧
    ∀ memo, scopeWithMemo entries = .ok (scope, memo) → Reached scope memo := by
  unfold scopeWithMemo scopeOf
  rw [foldlM_addEntry]
  simp only [bind_eq_ok_iff, Run.mapError_eq_ok_iff, Run.ofExcept_eq_ok_iff,
    Builder.foldlM_add_eq_ok_iff]
  unfold Ends at ended
  cases named : entries.filterMap asVariable with
  | nil =>
    constructor
    · constructor
      · rintro ⟨memo, b, made, same⟩
        exact ⟨b, made, congrArg (Except.ok ∘ Prod.fst) (Except.ok.inj same)⟩
      · rintro ⟨b, made, same⟩
        exact ⟨[], b, made, congrArg (fun scope => Except.ok (scope, [])) (Except.ok.inj same)⟩
    · rintro memo ⟨b, -, same⟩
      obtain ⟨-, rfl⟩ := Prod.mk.inj (Except.ok.inj same)
      exact .fresh
  | cons first rest =>
    rw [named] at ended
    have shared := foldlM_addVariableWith ended .fresh
      (Builder.new "variables" (definitionScope entries))
    constructor
    · constructor
      · rintro ⟨memo, _, ⟨proper, rfl⟩, ran⟩
        obtain ⟨made, added, same⟩ := bind_eq_ok_iff.mp ran
        obtain ⟨rfl, rfl⟩ := Prod.mk.inj (Except.ok.inj same)
        exact ⟨_, ⟨proper, rfl⟩, bind_eq_ok_iff.mpr ⟨_, (shared made.1).1.mp ⟨_, added⟩, rfl⟩⟩
      · rintro ⟨_, ⟨proper, rfl⟩, ran⟩
        obtain ⟨b', added, same⟩ := bind_eq_ok_iff.mp ran
        obtain rfl := Except.ok.inj same
        obtain ⟨memo, added'⟩ := (shared b').1.mpr added
        exact ⟨memo, _, ⟨proper, rfl⟩, bind_eq_ok_iff.mpr ⟨_, added', rfl⟩⟩
    · rintro memo ⟨_, ⟨proper, rfl⟩, ran⟩
      obtain ⟨made, added, same⟩ := bind_eq_ok_iff.mp ran
      obtain ⟨rfl, rfl⟩ := Prod.mk.inj (Except.ok.inj same)
      obtain ⟨-, -, inside⟩ := foldlM_addVariable_eq_ok_iff.mp ((shared made.1).1.mp ⟨_, added⟩)
      refine ((shared made.1).2 _ added).mono ?_
      rw [inside]
      exact suffix_cons _ _

/-- Files with the same schemas and with their definitions in another order make a catalog as well.
Its scope agrees, and the signatures differ in nothing but the scope. -/
theorem ofFiles_perm {files files' : List CatalogFile}
    (schemas : files.flatMap (·.schemas) = files'.flatMap (·.schemas))
    (perm : (files.flatMap (·.definitions)).Perm (files'.flatMap (·.definitions)))
    {catalog : Catalog} (accepted : ofFiles files = .ok catalog) :
    ∃ scope', catalog.scope.Agrees scope' ∧ ofFiles files' =
      .ok ⟨scope', signaturesIn scope' catalog.signatures, catalog.passthrough⟩ := by
  unfold ofFiles at accepted ⊢
  rw [← schemas]
  simp only at accepted ⊢
  split at accepted
  · cases accepted
  · next unique =>
    obtain ⟨scope, made, accepted⟩ := bind_eq_ok_iff.mp accepted
    obtain ⟨signatures, signed, accepted⟩ := bind_eq_ok_iff.mp accepted
    obtain ⟨passthrough, passed, accepted⟩ := bind_eq_ok_iff.mp accepted
    obtain rfl := Except.ok.inj accepted
    obtain ⟨scope', made', agrees⟩ := scopeOf_perm perm made
    refine ⟨scope', agrees, ?_⟩
    rw [← passthroughOf_signaturesIn scope'] at passed
    refine bind_eq_ok_iff.mpr ⟨scope', made', ?_⟩
    refine bind_eq_ok_iff.mpr ⟨_, signaturesOf_agrees agrees signed, ?_⟩
    exact bind_eq_ok_iff.mpr ⟨passthrough, passed, rfl⟩

/-- Two catalogs say the same: about schemas, about what they pass through, and about every
expression, whatever was evaluated in either of them before. -/
structure Alike (c c' : Catalog) : Prop where
  signatures : Forall₂ (fun entry entry' => entry.1 = entry'.1 ∧ entry.2.Alike entry'.2)
    c.signatures c'.signatures
  passthrough : c.passthrough = c'.passthrough
  evaluate : ∀ generics e, c.scope.evaluate generics e = c'.scope.evaluate generics e
  afterCalls : ∀ generics e memo memo', Reached c.scope memo → Reached c'.scope memo' →
    c.scope.evaluate generics e ≠ exhausted →
      (c.scope.evaluateWith generics e memo).1 = (c'.scope.evaluateWith generics e memo').1

/-- Catalogs in scopes that agree are alike. -/
theorem alike_signaturesIn {files : List CatalogFile} {c : Catalog}
    (accepted : ofFiles files = .ok c) (agrees : c.scope.Agrees scope') :
    c.Alike ⟨scope', signaturesIn scope' c.signatures, c.passthrough⟩ where
  signatures := by
    refine forall₂_map_right_iff.mpr (forall₂_same.mpr fun entry mem => ⟨rfl, ?_⟩)
    obtain ⟨schema, -, -, evaluated⟩ :=
      exists_left_of_forall₂ (ofFiles_eq_ok accepted).2 mem
    have inside := (Signature.ofSchema_agrees agrees evaluated).1
    exact Signature.alike_inScope (inside ▸ agrees)
  passthrough := rfl
  evaluate := agrees.evaluate
  afterCalls generics e memo memo' reached reached' ended := by
    have ended' : scope'.evaluate generics e ≠ exhausted := by rwa [← agrees.evaluate]
    rw [reached.evaluateWith_eq (suffix_refl _) ended,
      reached'.evaluateWith_eq (suffix_refl _) ended', agrees.evaluate]

/-- Definitions may come in any order and in any file. With the schemas in place, files make a
catalog if and only if they do so with their definitions in another order, and then both catalogs
say the same. Nothing depends on the memory that variables share while they are evaluated one
after the other, unless functions call each other without end. -/
theorem ofFiles_reordered {files files' : List CatalogFile}
    (schemas : files.flatMap (·.schemas) = files'.flatMap (·.schemas))
    (perm : (files.flatMap (·.definitions)).Perm (files'.flatMap (·.definitions))) :
    ((∃ c, ofFiles files = .ok c) ↔ ∃ c, ofFiles files' = .ok c) ∧
    (∀ c c', ofFiles files = .ok c → ofFiles files' = .ok c' → c.Alike c') ∧
    ∀ entries, Ends entries → ∀ scope,
      ((∃ memo, scopeWithMemo entries = .ok (scope, memo)) ↔ scopeOf entries = .ok scope) ∧
      ∀ memo, scopeWithMemo entries = .ok (scope, memo) → Reached scope memo := by
  refine ⟨⟨?_, ?_⟩, ?_, fun entries ended scope => scopeWithMemo_eq_ok ended⟩
  · rintro ⟨c, accepted⟩
    obtain ⟨scope', -, accepted'⟩ := ofFiles_perm schemas perm accepted
    exact ⟨_, accepted'⟩
  · rintro ⟨c, accepted⟩
    obtain ⟨scope', -, accepted'⟩ := ofFiles_perm schemas.symm perm.symm accepted
    exact ⟨_, accepted'⟩
  · intro c c' accepted accepted'
    obtain ⟨scope', agrees, same⟩ := ofFiles_perm schemas perm accepted
    obtain rfl := Except.ok.inj (same.symm.trans accepted')
    exact alike_signaturesIn accepted agrees

namespace Sample

/-- A variable and a function before the struct and the alias that they need. -/
def forward : List CatalogEntry :=
  [.variable "origin" (.named "place" [("x", .number (.literal (.fin 0)))]),
    .function "at" [("x", .named "digit" [])] (.named "place" [("x", .named "x" [])]),
    .struct "place" [("x", .named "digit" []), ("name", .string .all)],
    .alias "digit" (.number (.ints (.fin 0) (.fin 9)))]

/-- A schema with an input of a struct type and an output that is the result of a call. -/
def mover : NodeSchema :=
  ⟨"mover", "Mover", [⟨0, "in", .named "place" [], .generic, true, true, true, none⟩],
    [⟨0, "out", .call "at" [.access (.named "origin" []) "x"], true, none⟩], false, .regular, []⟩

/-- The definitions in two files. -/
def spread : List CatalogFile := [⟨forward.take 2, []⟩, ⟨forward.drop 2, [mover]⟩]

/-- All in one file, and the other way round. -/
def gathered : List CatalogFile := [⟨forward.reverse, [mover]⟩]

end Sample

open Sample

/-- Definitions in one file or spread over several. -/
theorem ofFiles_reordered_gathered : (∃ c, ofFiles spread = .ok c) ∧
    ∃ c, ofFiles gathered = .ok c ∧ ∀ c', ofFiles spread = .ok c' → c'.Alike c := by
  have schemas : spread.flatMap (·.schemas) = gathered.flatMap (·.schemas) := rfl
  have perm : (spread.flatMap (·.definitions)).Perm (gathered.flatMap (·.definitions)) :=
    (reverse_perm forward).symm
  obtain ⟨accepted, alike, -⟩ := ofFiles_reordered schemas perm
  have both : ∃ c, ofFiles spread = .ok c := ⟨_, rfl⟩
  obtain ⟨c, same⟩ := accepted.mp both
  exact ⟨both, c, same, fun c' same' => alike c' c same' same⟩

end Catalog

end TypeFlow
