import TypeFlow.Proofs.Catalog.Accepted
import TypeFlow.Proofs.Eval.Memo
import TypeFlow.Proofs.Eval.Shapes

/-!
# Catalogs without a clash

The structs of a catalog are defined in its own frame, where each name is defined once, or in the
prelude. A name of the prelude can be defined again, which hides the old meaning from the catalog
but not from the prelude itself and not from nullable inputs. So no computation on a catalog
clashes as long as the three structs that are used behind its back keep their shape.
-/

namespace TypeFlow

open List Ty

/-- The field names of structs where these definitions are around the prelude. -/
def shapeOf (entries : List (String × Definition)) (name : String) : List String :=
  match valueAt? name entries with
  | some (.struct fields) => fields.map (·.1)
  | _ =>
    match valueAt? name Prelude.entries with
    | some (.struct fields) => fields.map (·.1)
    | _ => []

/-- A definition is one that a catalog has under a name. -/
def Declares (entries : List CatalogEntry) (name : String) : Definition → Prop
  | .struct fields => .struct name fields ∈ entries
  | .alias _ | .function _ _ => True
  | _ => False

/-- The structs that the prelude and nullable inputs use have no fields where a catalog defines
them again. -/
def KeepsPrelude (entries : List CatalogEntry) : Prop :=
  ∀ name fields, .struct name fields ∈ entries → name ∈ [Prelude.nullName, "true", "false"] →
    fields = []

namespace Catalog

variable {entries : List CatalogEntry}

/-- A frame of definitions has only what the catalog declares. -/
theorem declares_of_addEntry {b : Builder}
    (ran : entries.foldlM addEntry (Builder.new "catalog" Prelude.scope) = .ok b) :
    b.outer = Prelude.scope ∧ ∀ name definition, valueAt? name b.entries = some definition →
      Declares entries name definition := by
  refine foldlM_keeps (P := fun b => b.outer = Prelude.scope ∧ ∀ name definition,
    valueAt? name b.entries = some definition → Declares entries name definition) ran
    ⟨rfl, fun _ _ found => by cases found⟩ ?_
  intro b declares entry mem b' added
  -- All kinds of definitions are added in the same way.
  have add (name : String) (definition : Definition) (own : Declares entries name definition)
      (added : b.add name definition = .ok b') :
      b'.outer = Prelude.scope ∧ ∀ name definition, valueAt? name b'.entries = some definition →
        Declares entries name definition := by
    obtain ⟨-, -, rfl⟩ := Builder.add_eq_ok_iff.mp added
    refine ⟨declares.1, fun other d found => ?_⟩
    rw [valueAt?_concat, Option.or_eq_some_iff] at found
    rcases found with before | ⟨-, here⟩
    · exact declares.2 other d before
    · rw [Option.ite_none_right_eq_some] at here
      obtain ⟨rfl, same⟩ := here
      exact Option.some.inj same ▸ own
  cases entry with
  | struct name fields => exact add name (.struct fields) mem added
  | «alias» name type => exact add name (.alias type) trivial added
  | function name parameters body => exact add name (.function parameters body) trivial added
  | «variable» name value =>
    obtain rfl := Except.ok.inj added
    exact declares

/-- The scope of definitions is shaped by its own frame. -/
theorem shapedScope_build {b : Builder} (outer : b.outer = Prelude.scope)
    (declares : ∀ name definition, valueAt? name b.entries = some definition →
      Declares entries name definition) : ShapedScope (shapeOf b.entries) b.build := by
  unfold Builder.build
  rw [outer]
  refine .outermost (fun name definition found => ?_) fun name definition hidden found => ?_
  · have own := declares name definition found
    cases definition with
    | struct fields =>
      show fields.map (·.1) = shapeOf b.entries name
      simp only [shapeOf, found]
    | «alias» type => trivial
    | function parameters body => trivial
    | «variable» value => exact own.elim
    | builtin parameters varargs run => exact own.elim
    | parameter bound value => exact own.elim
  · refine Kept.defines_prelude _ (mem_of_valueAt? found) fun fields same => ?_
    have free : valueAt? name b.entries = none := hidden
    have known : valueAt? name Prelude.entries = some (.struct fields) := same ▸ found
    show fields.map (·.1) = shapeOf b.entries name
    simp only [shapeOf, free, known]

/-- The structs that are used behind the back of the catalog have no fields. -/
theorem shapeOf_eq_nil {b : Builder} (declares : ∀ name definition,
    valueAt? name b.entries = some definition → Declares entries name definition)
    (kept : KeepsPrelude entries) {name : String}
    (used : name ∈ [Prelude.nullName, "true", "false"]) : shapeOf b.entries name = [] := by
  have prelude : valueAt? name Prelude.entries = some (.struct []) := by
    simp only [mem_cons, not_mem_nil, or_false] at used
    rcases used with rfl | rfl | rfl <;> rfl
  unfold shapeOf
  cases found : valueAt? name b.entries with
  | none => simp only [prelude, map_nil]
  | some definition =>
    have own := declares name definition found
    cases definition with
    | struct fields => simp only [kept name fields own used, map_nil]
    | _ => simp only [prelude, map_nil]

/-- Field names for all structs of a scope, none for those behind its back. -/
structure Shapes (shape : String → List String) (scope : Scope) : Prop where
  scope : ShapedScope shape scope
  null : shape Prelude.nullName = []
  truth : shape "true" = [] ∧ shape "false" = []

/-- A scope that keeps the prelude has shapes. -/
theorem scopeOf_unclashed (kept : KeepsPrelude entries) :
    (scopeOf entries).Unclashed fun scope => ∃ shape, Shapes shape scope := by
  have definitions : (Run.ofExcept (entries.foldlM addEntry
      (Builder.new "catalog" Prelude.scope))).Unclashed fun b => b.outer = Prelude.scope ∧
        ∀ name definition, valueAt? name b.entries = some definition →
          Declares entries name definition :=
    .ofExcept fun b ran => declares_of_addEntry ran
  refine definitions.mapError.bind fun b own => ?_
  obtain ⟨outer, declares⟩ := own
  have shapes : Shapes (shapeOf b.entries) b.build :=
    ⟨shapedScope_build outer declares, shapeOf_eq_nil declares kept (by simp),
      shapeOf_eq_nil declares kept (by simp), shapeOf_eq_nil declares kept (by simp)⟩
  simp only
  split
  · exact .ok ⟨_, shapes⟩
  · have evaluated : ((entries.filterMap asVariable).foldlM (addVariable b.build)
        (Builder.new "variables" b.build)).Unclashed
        ((Kept.shaped (shapeOf b.entries)).Fills b.build) := by
      refine .foldlM (Kept.fills_new _ _) fun b' shaped entry _ => ?_
      obtain ⟨name, e⟩ := entry
      unfold addVariable
      simp only
      split
      · exact .error _
      · have value := shapes.scope.evaluate shapes.truth Eval.keptGenerics_nil e
        refine value.mapError.bind fun t shapedT => ?_
        have own : (Kept.shaped (shapeOf b.entries)).Defines name (.variable t) := shapedT
        exact Run.UnclashedUnless.mapError (.ofExcept fun b'' added => shaped.add own added)
    refine evaluated.bind fun b' shaped => .ok ?_
    refine ⟨shapeOf b.entries, ?_, shapes.null, shapes.truth⟩
    unfold Builder.build
    rw [shaped.1]
    exact .inner shaped.2 shapes.scope

end Catalog

/-- All types of entries are shaped. -/
def ShapedTypes {α : Type} (shape : String → List String) (types : List (α × Ty)) : Prop :=
  ∀ entry ∈ types, Shaped shape entry.2

section

variable {shape : String → List String}

/-- Setting a shaped type keeps types shaped. -/
theorem ShapedTypes.setEntry {α : Type} [DecidableEq α] {types : List (α × Ty)}
    (shaped : ShapedTypes shape types) (key : α) {t : Ty} (own : Shaped shape t) :
    ShapedTypes shape (setEntry key t types) := by
  intro entry mem
  rcases eq_or_mem_of_mem_setEntry mem with rfl | old
  · exact own
  · exact shaped entry old

/-- Without its errors a type stays shaped. -/
theorem splitErrors_shaped {t : Ty} (shaped : Shaped shape t) :
    Yields (splitErrors t) fun result => Shaped shape result.1 := by
  unfold splitErrors
  split
  · have rest : ∀ m ∈ t.members.filter fun m => !isErrorType m, Shaped shape m :=
      fun m mem => shaped.of_mem_members (mem_filter.mp mem).1
    exact (unionOf_shaped rest).bind fun u shapedU => Yields.pure shapedU
  · exact Yields.pure shaped

namespace Interface

variable {scope : Scope} (shapes : Catalog.Shapes shape scope)
include shapes

/-- Declared types are shaped. -/
theorem declaredType_unclashed (input : InputSchema) :
    (declaredType scope input).Unclashed (Shaped shape) := by
  refine (shapes.scope.evaluate shapes.truth Eval.keptGenerics_nil input.type).bind
    fun t shapedT => ?_
  have null : Shaped shape Prelude.null := shaped_struct.mpr ⟨shapes.null.symm, by simp⟩
  split
  · exact .ofChecked (.inl (unionOf_shaped (by simp [shapedT, null])))
  · exact .ok shapedT

/-- Adapters are found without a clash. -/
theorem adapterOf_unclashed (kind : InputKind) :
    (adapterOf scope kind).Unclashed fun _ => True := by
  cases kind with
  | generic | number | text => exact .ok trivial
  | dropdown options =>
    refine Run.UnclashedUnless.bind (.mapM (Q := fun _ => True) fun option _ => ?_)
      fun results _ => .ok trivial
    cases option.type with
    | none => exact .ok trivial
    | some e =>
      exact (shapes.scope.evaluate shapes.truth Eval.keptGenerics_nil e).bind
        fun t _ => .ok trivial

/-- Interfaces have shaped inputs. -/
theorem ofSchema_unclashed (schema : NodeSchema) :
    (ofSchema schema scope).Unclashed fun interface =>
      interface.scope = scope ∧ ShapedTypes shape interface.inputs := by
  have inputs : (schema.inputs.foldlM (addInput scope) ([], [])).Unclashed
      fun sofar => ShapedTypes shape sofar.1 := by
    refine .foldlM (fun _ mem => by cases mem) fun sofar shaped input _ => ?_
    rw [addInput_eq]
    refine (declaredType_unclashed shapes input).bind fun t shapedT => ?_
    refine (adapterOf_unclashed shapes input.kind).bind fun adapter _ => ?_
    exact .ok (shaped.setEntry input.id shapedT)
  exact inputs.bind fun sofar shaped => .ok ⟨rfl, shaped⟩

variable {provider : InputId → Option Ty} {narrowing : List (OutputId × Ty)}

omit shapes in
/-- Bound inputs are shaped. -/
theorem foldlM_bindInput_shaped (supplied : ∀ input t, provider input = some t → Shaped shape t)
    {inputs : List (InputId × Ty)} (declared : ShapedTypes shape inputs) {start : BoundInputs}
    (sofar : ShapedTypes shape start.types) :
    Yields (inputs.foldlM (bindInput provider) start) fun bound =>
      ShapedTypes shape bound.types := by
  induction inputs generalizing start with
  | nil => exact Yields.pure sofar
  | cons input rest ih =>
    have own := declared input mem_cons_self
    have narrows : Yields (narrowed provider input) (Shaped shape) := by
      unfold narrowed
      cases found : provider input.1 with
      | none => exact Yields.pure own
      | some t => exact intersectionOf_shaped (by simp [supplied input.1 t found, own])
    obtain ⟨t, same, shapedT⟩ := narrows
    rw [foldlM_cons, bindInput_eq, same]
    apply ih (fun entry mem => declared entry (mem_cons_of_mem input mem))
    intro entry mem
    rcases mem_append.mp mem with old | new
    · exact sofar entry old
    · rw [mem_singleton.mp new]
      exact shapedT

/-- A bound output is shaped. -/
theorem bindOutput_unclashed {generics : Generics}
    (known : Eval.KeptGenerics (.shaped shape) generics)
    (reported : ShapedTypes shape narrowing) {bound : BoundOutputs}
    (sofar : ShapedTypes shape bound.types) (output : OutputSchema) :
    (bindOutput scope generics narrowing bound output).Unclashed fun bound =>
      ShapedTypes shape bound.types := by
  unfold bindOutput
  refine (shapes.scope.evaluate shapes.truth known output.type).bind fun raw shapedRaw => ?_
  have split := splitErrors_shaped shapedRaw
  refine (Run.UnclashedUnless.ofChecked (.inl split)).bind fun parts shapedParts => ?_
  obtain ⟨value, reason⟩ := parts
  have finish {value : Ty} (shapedValue : Shaped shape value) {errors : List OutputError} :
      ShapedTypes shape (⟨setEntry output.id value bound.types, errors⟩ : BoundOutputs).types :=
    sofar.setEntry output.id shapedValue
  simp only
  cases found : valueAt? output.id narrowing with
  | none => exact .ok (finish shapedParts)
  | some t =>
    have own := reported _ (mem_of_valueAt? found)
    have both : ∀ u ∈ [value, t], Shaped shape u := by simp [shapedParts, own]
    have intersected := intersectionOf_shaped both
    refine Run.UnclashedUnless.bind (.ofChecked (.inl intersected)) fun u shapedU => .ok ?_
    apply finish
    split
    · exact shapedParts
    · exact shapedU

/-- Binding gives shaped outputs. -/
theorem bind_unclashed {interface : Interface} (same : interface.scope = scope)
    (declared : ShapedTypes shape interface.inputs)
    (supplied : ∀ input t, provider input = some t → Shaped shape t)
    (reported : ShapedTypes shape narrowing) :
    (interface.bind provider narrowing []).Unclashed fun i => ShapedTypes shape i.outputs := by
  have unbound : ShapedTypes shape (⟨[], [], []⟩ : BoundInputs).types := fun _ mem => by cases mem
  obtain ⟨inputs, ran, shapedInputs⟩ := foldlM_bindInput_shaped supplied declared unbound
  have known : Eval.KeptGenerics (.shaped shape)
      (inputs.types.map fun entry => (InputId.parameter entry.1, entry.2)) := by
    intro name t found
    obtain ⟨entry, mem, same⟩ := mem_map.mp (mem_of_valueAt? found)
    obtain ⟨-, rfl⟩ := Prod.mk.inj same
    exact shapedInputs entry mem
  have outputs : (interface.outputsFor narrowing inputs.types).Unclashed fun bound =>
      ShapedTypes shape bound.types := by
    unfold outputsFor
    rw [same]
    exact .foldlM (fun _ mem => by cases mem) fun bound sofar output _ =>
      bindOutput_unclashed shapes known reported sofar output
  simp only [bind_eq, ran]
  generalize interface.outputsFor narrowing inputs.types = result at outputs
  cases outputs with
  | ok shaped => exact .ok shaped
  | error e => exact .error e
  | exhausted => exact .exhausted
  | clash allowed => cases allowed

end Interface

namespace Signature

/-- All types of the inputs and of the default outputs are shaped. -/
def ShapedSignature (shape : String → List String) (signature : Signature) : Prop :=
  ShapedTypes shape signature.inputs ∧ ShapedTypes shape signature.default.outputs

/-- Signatures of a shaped scope are shaped. -/
theorem ofSchema_unclashed {scope : Scope} (shapes : Catalog.Shapes shape scope)
    (schema : NodeSchema) : (ofSchema schema scope).Unclashed (ShapedSignature shape) := by
  refine (Interface.ofSchema_unclashed shapes schema).bind fun interface own => ?_
  obtain ⟨same, declared⟩ := own
  have none : ∀ (input : InputId) t, (fun _ => none : InputId → Option Ty) input = some t →
      Shaped shape t := fun _ _ found => by cases found
  refine (Interface.bind_unclashed shapes same declared none (fun _ mem => by cases mem)).bind
    fun default shaped => ?_
  exact .ok ⟨declared, shaped⟩

variable {signature : Signature} (shaped : ShapedSignature shape signature)
include shaped

/-- Looking for a fitting input never clashes. -/
theorem fittingInput?_shaped {t : Ty} (shapedT : Shaped shape t) (inputs : List InputSchema) :
    Yields (signature.fittingInput? t inputs) fun _ => True := by
  induction inputs with
  | nil => exact Yields.pure trivial
  | cons input rest ih =>
    have last (fits : Bool) : Yields
        (if fits then pure (some input.id) else signature.fittingInput? t rest) fun _ => True := by
      cases fits with
      | true => exact Yields.pure trivial
      | false => exact ih
    simp only [fittingInput?]
    split
    · cases found : signature.input? input.id with
      | none => exact last false
      | some declared =>
        have own := shaped.1 _ (mem_of_valueAt? found)
        exact Yields.bind (disjoint_shaped own shapedT) fun apart _ => last (!apart)
    · exact last false

/-- What is passed through is found without a clash. -/
theorem passthrough?_shaped : Yields signature.passthrough? fun _ => True := by
  unfold passthrough?
  split
  · next output _ =>
    have input : Yields (signature.passthroughInput? output) fun _ => True := by
      unfold passthroughInput?
      split
      · exact Yields.pure trivial
      · exact Yields.pure trivial
      · cases found : signature.default.output? output.id with
        | none => exact Yields.pure trivial
        | some t =>
          exact fittingInput?_shaped shaped (shaped.2 _ (mem_of_valueAt? found)) _
    split
    · exact Yields.pure trivial
    · exact input.bind fun _ _ => Yields.pure trivial
  · exact Yields.pure trivial

end Signature

end

namespace Catalog

/-- All types of signatures are shaped, and so is what evaluates in the scope, whatever has been
evaluated there before. -/
structure Unclashing (shape : String → List String) (catalog : Catalog) : Prop where
  signatures : ∀ entry ∈ catalog.signatures, entry.2.ShapedSignature shape
  evaluate : ∀ memo, Eval.Reached catalog.scope memo → ∀ e,
    Run.Unclashed (Shaped shape) (catalog.scope.evaluateWith [] e memo).1

/-- From any memo evaluation stays shaped. -/
theorem Shapes.evaluateWith {shape : String → List String} {scope : Scope}
    (shapes : Shapes shape scope) {memo : Memo} (reached : Eval.Reached scope memo) (e : Expr) :
    Run.Unclashed (Shaped shape) (scope.evaluateWith [] e memo).1 := by
  by_cases finished : (scope.evaluateWith [] e memo).1 = Eval.exhausted
  · rw [finished]
    exact .exhausted
  · have part := suffix_refl scope
    have plain := (reached.answers_iff part [] e finished).mp ⟨_, rfl⟩
    obtain ⟨levels, same⟩ := (Eval.Reached.fresh.answers_iff part [] e finished).mpr plain
    rw [← same]
    have keeps : Eval.Keeps (.shaped shape) (Shaped shape) (Eval.level levels ⟨scope, []⟩ e) :=
      Eval.level_keeps shapes.truth levels (.inl ⟨shapes.scope, Eval.keptGenerics_nil⟩)
    exact (keeps [] Eval.keptMemo_nil).1

/-- A catalog that keeps the prelude has shapes. -/
theorem ofFiles_unclashed {files : List CatalogFile}
    (kept : KeepsPrelude (files.flatMap (·.definitions))) :
    (ofFiles files).Unclashed fun catalog => ∃ shape, catalog.Unclashing shape := by
  unfold ofFiles
  simp only
  split
  · exact .error _
  · refine (scopeOf_unclashed kept).bind fun scope own => ?_
    obtain ⟨shape, shapes⟩ := own
    have signed : (signaturesOf scope (files.flatMap (·.schemas))).Unclashed
        fun signatures => ∀ entry ∈ signatures, entry.2.ShapedSignature shape := by
      refine .mapM fun schema _ => ?_
      refine (Signature.ofSchema_unclashed shapes schema).mapError.bind fun signature shaped => ?_
      exact .ok shaped
    refine signed.bind fun signatures shaped => ?_
    have passed : Yields (passthroughOf signatures) fun _ => True := by
      unfold passthroughOf
      refine Yields.bind (Yields.mapM (R := fun _ _ => True) fun entry mem => ?_)
        fun _ _ => Yields.pure trivial
      exact (Signature.passthrough?_shaped (shaped entry mem)).bind fun _ _ => Yields.pure trivial
    refine Run.UnclashedUnless.bind (.ofChecked (.inl passed)) fun passthrough _ =>
      .ok ⟨shape, shaped, ?_⟩
    exact fun memo reached e => shapes.evaluateWith reached e

/-- Catalog files never clash, and no evaluation on an accepted catalog does, whatever has been
evaluated there before, if the structs for null and the truth values have no fields where the files
define them again. Then there are field names for every struct that all types of the catalog
respect. -/
theorem ofFiles_never_clashes {files : List CatalogFile}
    (kept : KeepsPrelude (files.flatMap (·.definitions))) :
    (∀ c, ofFiles files ≠ .error (.fatal (.clash c))) ∧
    ∀ catalog, ofFiles files = .ok catalog →
      (∀ memo, Eval.Reached catalog.scope memo → ∀ e c,
        (catalog.scope.evaluateWith [] e memo).1 ≠ .error (.fatal (.clash c))) ∧
      ∃ shape, catalog.Unclashing shape := by
  have unclashed := ofFiles_unclashed kept
  refine ⟨unclashed.ne_clash, fun catalog accepted => ?_⟩
  obtain ⟨shape, unclashing⟩ := unclashed.of_eq_ok accepted
  refine ⟨fun memo reached e => ?_, shape, unclashing⟩
  exact (unclashing.evaluate memo reached e).ne_clash

namespace Sample

/-- A field of numbers. -/
def field : List (String × Expr) := [("x", .number .all)]

/-- A schema with one input, which may be null. -/
def optional (type : Expr) : NodeSchema :=
  ⟨"optional", "Optional", [⟨0, "in", type, .generic, true, true, true, none⟩], [], false, .regular,
    []⟩

/-- A struct for null with a field, met by a nullable input. -/
def nullFile : CatalogFile := ⟨[.struct "null" field], [optional (.named "null" [])]⟩

/-- A truth value with a field. -/
def truthFile : CatalogFile := ⟨[.struct "true" field], []⟩

/-- Null again without a field, errors with other fields, and a nullable input for both. -/
def errorFile : CatalogFile :=
  ⟨[.struct "null" [], .struct "Error" field],
    [optional (.union [.named "null" [], .named "Error" [], .named "bool" []])]⟩

end Sample

open Sample

/-- A file with another kind of error. -/
theorem ofFiles_never_clashes_errorFile :
    (∃ catalog, ofFiles [errorFile] = .ok catalog) ∧ KeepsPrelude errorFile.definitions ∧
    ∀ catalog, ofFiles [errorFile] = .ok catalog → ∃ shape, catalog.Unclashing shape := by
  have kept : KeepsPrelude errorFile.definitions := by
    intro name fields mem unset
    simp only [errorFile, mem_cons, CatalogEntry.struct.injEq, not_mem_nil, or_false] at mem
    rcases mem with ⟨-, rfl⟩ | ⟨rfl, -⟩
    · rfl
    · simp [Prelude.nullName] at unset
  refine ⟨⟨_, rfl⟩, kept, fun catalog accepted => ?_⟩
  have whole : KeepsPrelude ([errorFile].flatMap (·.definitions)) := by simpa using kept
  exact ((ofFiles_never_clashes whole).2 catalog accepted).2

/-- With a field for null the files themselves clash, and with a field for a truth value an
accepted catalog clashes on the union of that truth value and all of them. -/
theorem ofFiles_clashes :
    ofFiles [nullFile] =
      .error (.fatal (.clash ⟨⟨"null", []⟩, ⟨"null", [("x", .number .all)]⟩⟩)) ∧
    ∃ catalog, ofFiles [truthFile] = .ok catalog ∧
      catalog.scope.evaluate [] (.union [.named "true" [], .named "bool" []]) =
        .error (.fatal (.clash ⟨⟨"true", []⟩, ⟨"true", [("x", .number .all)]⟩⟩)) :=
  ⟨rfl, _, rfl, rfl⟩

end Catalog

end TypeFlow
