import TypeFlow.Mismatch
import TypeFlow.Proofs.Entries
import TypeFlow.Proofs.Operands

/-!
# Explained mismatches

There is an explanation for two types if and only if the disjointness test says that they have no
value in common, and its trace leads to a mismatch. The trace ends early, at a struct, only where
all fields fit one by one. Among types with small numbers there is no such place, as fields with
common values make a common record.
-/

namespace TypeFlow

open List

/-- The types at the end of a trace. -/
def Trace.leaf : Trace → Ty × Ty
  | .general assigned declared => (assigned, declared)
  | .field _ _ inner => inner.leaf

namespace Mismatch

open Ty

/-- The structs of a name among the members of a type. -/
def structsNamed (name : String) (t : Ty) : List Record :=
  (t.members.filterMap Ty.record?).filter fun r => r.name = name

/-- Fields of one name that do not count as disjoint. -/
def Fitting (f g : String × Ty) : Prop := f.1 = g.1 ∧ f.2.disjoint g.2 = .ok false

/-- A trace leads from two types through the first fields that do not fit, taken from a struct and
from the only one of its name among the declared members, to types without a common value. Where
it ends, there is no such struct or all fields fit. -/
inductive Leads : Ty → Ty → Trace → Prop
  | here {assigned declared : Ty} (apart : assigned.disjoint declared = .ok true)
      (last : ∀ name fields fields', assigned = .struct name fields →
        structsNamed name declared = [⟨name, fields'⟩] → Forall₂ Fitting fields fields') :
      Leads assigned declared (.general assigned declared)
  | field {name field : String} {before after before' after' : List (String × Ty)}
      {a d declared : Ty} {inner : Trace}
      (apart : (Ty.struct name (before ++ (field, a) :: after)).disjoint declared = .ok true)
      (only : structsNamed name declared = [⟨name, before' ++ (field, d) :: after'⟩])
      (fitting : Forall₂ Fitting before before') (leads : Leads a d inner) :
      Leads (.struct name (before ++ (field, a) :: after)) declared (.field name field inner)

/-- The only struct of a name. -/
theorem onlyStruct?_eq_some_iff {name : String} {t : Ty} {r : Record} :
    onlyStruct? name t = some r ↔ structsNamed name t = [r] := by
  unfold onlyStruct? structsNamed
  split
  · next found => rw [found, Option.some.injEq, List.cons.injEq, and_iff_left rfl]
  · next other =>
    constructor
    · intro found
      cases found
    · intro found
      exact absurd found (other r)

/-- The only struct of a name is a member with that name. -/
theorem toTy_mem_of_structsNamed {name : String} {t : Ty} {r : Record}
    (only : structsNamed name t = [r]) : r.toTy ∈ t.members ∧ r.name = name := by
  have mem : r ∈ structsNamed name t := only ▸ mem_singleton_self r
  obtain ⟨found, named⟩ := mem_filter.mp mem
  obtain ⟨m, memM, same⟩ := mem_filterMap.mp found
  cases m with
  | struct name' fields =>
    cases same
    exact ⟨memM, of_decide_eq_true named⟩
  | _ => cases same

section Shaped

variable {shape : String → List String} {a d : Ty} {name : String}
  {fields fields' : List (String × Ty)}

/-- A trace is found if and only if the types count as disjoint, and then it leads to a mismatch. -/
def Traced (a d : Ty) (found : Option Trace) : Prop :=
  a.disjoint d = .ok found.isSome ∧ ∀ way, found = some way → Leads a d way

/-- Types other than structs are compared as a whole. -/
theorem traced_whole (shapedA : Shaped shape a) (shapedD : Shaped shape d)
    (other : ∀ name fields, a ≠ .struct name fields) :
    Yields (do if ← a.disjoint d then return some (Trace.general a d) else return none)
      (Traced a d) := by
  obtain ⟨apart, decided, -⟩ := disjoint_shaped shapedA shapedD
  rw [decided]
  cases apart with
  | false => exact Yields.pure ⟨decided, fun way found => nomatch found⟩
  | true =>
    refine Yields.pure ⟨decided, fun way found => ?_⟩
    cases found
    exact .here decided fun name fields _ same => absurd same (other name fields)

/-- What a search through the fields of two structs finds: nothing if all of them fit, otherwise a
way through the first ones that do not. -/
structure TracedFields (name : String) (fields fields' : List (String × Ty))
    (found : Option Trace) : Prop where
  none : found = none → Forall₂ Fitting fields fields'
  some : ∀ way, found = some way → ∃ before before' after after' field a d inner,
    fields = before ++ (field, a) :: after ∧ fields' = before' ++ (field, d) :: after' ∧
    Forall₂ Fitting before before' ∧ Leads a d inner ∧ way = .field name field inner

/-- A field that fits leaves the trace to later ones. -/
theorem TracedFields.cons {f g : String × Ty} {found : Option Trace} (fits : Fitting f g)
    (later : TracedFields name fields fields' found) :
    TracedFields name (f :: fields) (g :: fields') found where
  none missing := .cons fits (later.none missing)
  some way has := by
    obtain ⟨before, before', after, after', field, a, d, inner, rfl, rfl, fitting, leads, rfl⟩ :=
      later.some way has
    exact ⟨f :: before, g :: before', after, after', field, a, d, inner, rfl, rfl,
      .cons fits fitting, leads, rfl⟩

/-- The trace of a struct goes on in the only declared struct of its name. -/
theorem trace_struct {r : Record} (apart : (Ty.struct name fields).disjoint d = .ok true)
    (only : structsNamed name d = [r]) :
    trace (.struct name fields) d = (traceFields name fields r.fields).map fun found =>
      some (found.getD (.general (.struct name fields) d)) := by
  have only' : onlyStruct? name d = some r := onlyStruct?_eq_some_iff.mpr only
  rw [trace, apart, only']
  rfl

/-- The trace of a struct is that of its fields, or ends there. -/
theorem traced_struct {r : Record} {found : Option Trace}
    (apart : (Ty.struct name fields).disjoint d = .ok true) (only : structsNamed name d = [r])
    (traced : TracedFields name fields r.fields found) :
    Traced (.struct name fields) d
      (some (found.getD (.general (.struct name fields) d))) := by
  refine ⟨apart, fun way same => ?_⟩
  obtain ⟨name', fields'⟩ := r
  obtain rfl : name' = name := (toTy_mem_of_structsNamed only).2
  obtain rfl := Option.some.inj same
  cases found with
  | none =>
    refine .here apart fun name₁ fields₁ fields₂ same only' => ?_
    cases same
    rw [only] at only'
    cases only'
    exact traced.none rfl
  | some way =>
    obtain ⟨before, before', after, after', field, a, d, inner, rfl, rfl, fitting, leads, rfl⟩ :=
      traced.some way rfl
    exact .field apart only fitting leads

mutual
/-- A trace leads to a mismatch. -/
theorem trace_leads : ∀ {a d : Ty}, Shaped shape a → Shaped shape d →
    Yields (trace a d) (Traced a d)
  | .never, d, _, _ => by
    refine Yields.pure ⟨disjoint_never d, fun way found => ?_⟩
    cases found
    exact .here (disjoint_never d) fun _ _ _ same => nomatch same
  | .struct name fields, d, shapedA, shapedD => by
    obtain ⟨apart, decided, -⟩ := disjoint_shaped shapedA shapedD
    cases apart with
    | false =>
      rw [trace, decided]
      exact Yields.pure ⟨decided, fun way found => nomatch found⟩
    | true =>
      cases only : onlyStruct? name d with
      | none =>
        rw [trace, decided, only]
        refine Yields.pure ⟨decided, fun way found => ?_⟩
        cases found
        refine .here decided fun name' fields' fields'' same only' => ?_
        cases same
        rw [← onlyStruct?_eq_some_iff, only] at only'
        cases only'
      | some r =>
        have only' := onlyStruct?_eq_some_iff.mp only
        obtain ⟨member, rfl⟩ := toTy_mem_of_structsNamed only'
        obtain ⟨names, shaped⟩ := shaped_struct.mp shapedA
        obtain ⟨names', shaped'⟩ := shaped_struct.mp (shapedD.of_mem_members member)
        obtain ⟨found, ran, traced⟩ :=
          traceFields_leads r.name (names.trans names'.symm) shaped shaped'
        refine ⟨_, ?_, traced_struct decided only' traced⟩
        rw [trace_struct decided only', ran]
        rfl
  | .any, _, shapedA, shapedD => traced_whole shapedA shapedD fun _ _ same => nomatch same
  | .number _, _, shapedA, shapedD => traced_whole shapedA shapedD fun _ _ same => nomatch same
  | .string _, _, shapedA, shapedD => traced_whole shapedA shapedD fun _ _ same => nomatch same
  | .union _, _, shapedA, shapedD => traced_whole shapedA shapedD fun _ _ same => nomatch same

/-- The trace of fields leads to the first that does not fit. -/
theorem traceFields_leads (name : String) : ∀ {fields fields' : List (String × Ty)},
    fields.map (·.1) = fields'.map (·.1) → (∀ f ∈ fields, Shaped shape f.2) →
    (∀ f ∈ fields', Shaped shape f.2) →
    Yields (traceFields name fields fields') (TracedFields name fields fields')
  | [], [], _, _, _ => Yields.pure ⟨fun _ => .nil, fun way found => nomatch found⟩
  | (field, a) :: fields, (field', d) :: fields', names, shaped, shaped' => by
    obtain rfl : field = field' := (List.cons.inj names).1
    have names : fields.map (·.1) = fields'.map (·.1) := (List.cons.inj names).2
    obtain ⟨shapedA, shaped⟩ := forall_mem_cons.mp shaped
    obtain ⟨shapedD, shaped'⟩ := forall_mem_cons.mp shaped'
    obtain ⟨inner, ran, decided, leads⟩ := trace_leads shapedA shapedD
    rw [traceFields, decided]
    cases inner with
    | none =>
      obtain ⟨found, ran', traced⟩ := traceFields_leads name names shaped shaped'
      exact ⟨found, ran', traced.cons ⟨rfl, decided⟩⟩
    | some inner =>
      refine ⟨some (.field name field inner), ?_, (fun missing => nomatch missing), ?_⟩
      · rw [ran]
        rfl
      · intro way found
        cases found
        exact ⟨[], [], fields, fields', field, a, d, inner, rfl, rfl, .nil, leads inner rfl, rfl⟩
end

/-- Comparing the other fields never clashes. -/
theorem othersFit_yields (shaped : ∀ f ∈ fields, Shaped shape f.2)
    (shaped' : ∀ f ∈ fields', Shaped shape f.2) :
    Yields (othersFit fields fields') fun _ => True := by
  induction fields generalizing fields' with
  | nil => exact Yields.pure trivial
  | cons f rest ih =>
    cases fields' with
    | nil => exact Yields.pure trivial
    | cons g rest' =>
      obtain ⟨shapedF, shaped⟩ := forall_mem_cons.mp shaped
      obtain ⟨shapedG, shaped'⟩ := forall_mem_cons.mp shaped'
      have later := ih shaped shaped'
      rw [othersFit]
      split
      · exact later
      · refine (disjoint_shaped shapedF shapedG).bind fun apart _ => ?_
        cases apart with
        | true => exact Yields.pure trivial
        | false => exact later

/-- Looking for channels never clashes. -/
theorem channels_yields (shapedA : Shaped shape a) (shapedD : Shaped shape d) :
    Yields (channels a d) fun _ => True := by
  unfold channels
  split
  · next name fields name' fields' =>
    obtain ⟨-, shaped⟩ := shaped_struct.mp shapedA
    obtain ⟨-, shaped'⟩ := shaped_struct.mp shapedD
    split
    · exact Yields.pure trivial
    · split
      · next got expected found found' =>
        refine (disjoint_shaped (shaped _ (mem_of_valueAt? found))
          (shaped' _ (mem_of_valueAt? found'))).bind fun apart _ => ?_
        cases apart with
        | false => exact Yields.pure trivial
        | true =>
          refine (othersFit_yields shaped shaped').bind fun others _ => ?_
          cases others <;> exact Yields.pure trivial
      · exact Yields.pure trivial
  · exact Yields.pure trivial

/-- A simple sentence is said only about types that count as disjoint. -/
theorem simple_yields (shapedA : Shaped shape a) (shapedD : Shaped shape d) :
    Yields (simple a d) fun message => message.isSome = true → a.disjoint d = .ok true := by
  unfold simple
  split
  · next never =>
    obtain rfl := isNever_iff.mp never
    exact Yields.pure fun _ => disjoint_never d
  · obtain ⟨apart, decided, -⟩ := disjoint_shaped shapedA shapedD
    rw [decided]
    cases apart with
    | false => exact Yields.pure fun said => nomatch said
    | true =>
      change Yields (channels a d >>= _) _
      refine (channels_yields shapedA shapedD).bind fun message _ => ?_
      cases message with
      | some message => exact ⟨_, rfl, fun _ => rfl⟩
      | none =>
        dsimp only
        split
        all_goals exact ⟨_, rfl, fun _ => rfl⟩

/-- There is an explanation if and only if the types count as disjoint. -/
theorem explain_yields (shapedA : Shaped shape a) (shapedD : Shaped shape d) :
    Yields (explain a d) fun message => a.disjoint d = .ok message.isSome := by
  unfold explain
  refine (simple_yields shapedA shapedD).bind fun message said => ?_
  cases message with
  | some message => exact Yields.pure (said rfl)
  | none =>
    refine (trace_leads shapedA shapedD).bind fun found traced => Yields.pure ?_
    rw [Option.isSome_map, traced.1]

end Shaped

section Sound

variable {shape : String → List String} {name : String} {fields fields' : List (String × Ty)}

/-- Types that do not count as disjoint have a common value. -/
theorem exists_common {a b : Ty} (soundA : Sound shape a) (soundB : Sound shape b)
    (fits : a.disjoint b = .ok false) : ∃ v, v ∈ a ∧ v ∈ b := by
  have keepsA : (Invariant.sound shape).Keeps a := ⟨soundA, trivial⟩
  have keepsB : (Invariant.sound shape).Keeps b := ⟨soundB, trivial⟩
  obtain ⟨apart, decided, none⟩ := Invariant.disjoint_decides keepsA keepsB
  obtain rfl : apart = false := Except.ok.inj (decided.symm.trans fits)
  by_contra missing
  have all : ∀ v, ¬ (v ∈ a ∧ v ∈ b) := fun v both => missing ⟨v, both⟩
  cases none.mpr all

/-- Fields that fit one by one have a common record. -/
theorem exists_common_fields (sound : ∀ f ∈ fields, Sound shape f.2)
    (sound' : ∀ f ∈ fields', Sound shape f.2) (fitting : Forall₂ Fitting fields fields') :
    ∃ values, hasFields fields values = true ∧ hasFields fields' values = true := by
  induction fitting with
  | nil => exact ⟨[], by simp⟩
  | @cons f g rest rest' fits later ih =>
    obtain ⟨soundF, sound⟩ := forall_mem_cons.mp sound
    obtain ⟨soundG, sound'⟩ := forall_mem_cons.mp sound'
    obtain ⟨values, has, has'⟩ := ih sound sound'
    obtain ⟨v, inF, inG⟩ := exists_common soundF soundG fits.2
    refine ⟨(f.1, v) :: values, ?_, ?_⟩
    · exact hasFields_cons_cons.mpr ⟨rfl, inF, has⟩
    · exact hasFields_cons_cons.mpr ⟨fits.1, inG, has'⟩

/-- Not all fields of disjoint structs fit. -/
theorem not_fitting {d : Ty} (soundA : Sound shape (.struct name fields)) (soundD : Sound shape d)
    (apart : (Ty.struct name fields).disjoint d = .ok true)
    (only : structsNamed name d = [⟨name, fields'⟩]) : ¬ Forall₂ Fitting fields fields' := by
  intro fitting
  have member : Ty.struct name fields' ∈ d.members := (toTy_mem_of_structsNamed only).1
  have sound := (sound_struct.mp soundA).2
  have sound' := (sound_struct.mp (soundD.of_mem_members member)).2
  obtain ⟨values, has, has'⟩ := exists_common_fields (fun f mem => (sound f mem).2)
    (fun f mem => (sound' f mem).2) fitting
  have keepsA : (Invariant.sound shape).Keeps (.struct name fields) := ⟨soundA, trivial⟩
  have keepsD : (Invariant.sound shape).Keeps d := ⟨soundD, trivial⟩
  obtain ⟨_, decided, none⟩ := Invariant.disjoint_decides keepsA keepsD
  obtain rfl := Except.ok.inj (decided.symm.trans apart)
  have common : Value.record name values ∈ d :=
    (mem_iff_members d _).mpr ⟨_, member, record_mem_iff.mpr ⟨rfl, has'⟩⟩
  exact none.mp rfl (.record name values) ⟨record_mem_iff.mpr ⟨rfl, has⟩, common⟩

/-- With small numbers a trace goes on as long as there is one declared struct to go on in. -/
theorem Leads.leaf {a d : Ty} {way : Trace} (leads : Leads a d way) (soundA : Sound shape a)
    (soundD : Sound shape d) (name : String) (fields : List (String × Ty)) (r : Record)
    (struct : way.leaf.1 = .struct name fields) : structsNamed name way.leaf.2 ≠ [r] := by
  induction leads with
  | here apart last =>
    intro only
    obtain ⟨name', fields'⟩ := r
    obtain rfl : name' = name := (toTy_mem_of_structsNamed only).2
    obtain rfl := struct
    exact not_fitting soundA soundD apart only (last _ _ _ rfl only)
  | field apart only fitting leads ih =>
    have member := (toTy_mem_of_structsNamed only).1
    have sound := (sound_struct.mp soundA).2
    have sound' := (sound_struct.mp (soundD.of_mem_members member)).2
    exact ih (sound _ mem_append_cons_self).2 (sound' _ mem_append_cons_self).2 struct

end Sound

/-- Explanations are exact. Types that go together always have an answer: there is an explanation
and there is a trace if and only if the types count as disjoint, and the trace leads to a mismatch.
Where the types are well-formed with small numbers, it leads on as long as the assigned type is a
struct and the declared one has one struct of its name. -/
theorem explain_exact {assigned declared : Ty} (consistent : Ty.Consistent [assigned, declared]) :
    (∃ message, explain assigned declared = .ok message ∧
      assigned.disjoint declared = .ok message.isSome) ∧
    ∃ found, trace assigned declared = .ok found ∧
      assigned.disjoint declared = .ok found.isSome ∧
      ∀ way, found = some way → Leads assigned declared way ∧
        ((∀ t ∈ [assigned, declared], t.WellFormed ∧ t.Small) →
          (∀ name fields r, assigned = .struct name fields → structsNamed name declared = [r] →
            ∃ field inner, way = .field name field inner) ∧
          ∀ name fields r, way.leaf.1 = .struct name fields →
            structsNamed name way.leaf.2 ≠ [r]) := by
  obtain ⟨shape, shaped⟩ := Ty.exists_shaped consistent
  have shapedA := shaped assigned (by simp)
  have shapedD := shaped declared (by simp)
  obtain ⟨found, ran, exact, leads⟩ := trace_leads shapedA shapedD
  refine ⟨explain_yields shapedA shapedD, found, ran, exact, fun way same => ⟨leads way same, ?_⟩⟩
  intro formed
  obtain ⟨shape', sound⟩ := exists_sound (fun t mem => (formed t mem).1)
    (fun t mem => (formed t mem).2) consistent
  have soundA := sound assigned (by simp)
  have soundD := sound declared (by simp)
  have goesOn := (leads way same).leaf soundA soundD
  refine ⟨fun name fields r struct only => ?_, goesOn⟩
  cases leads way same with
  | here _ _ => exact absurd only (goesOn name fields r struct)
  | @field name' field _ _ _ _ _ _ _ inner _ _ _ _ =>
    cases struct
    exact ⟨field, inner, rfl⟩

namespace Sample

/-- A frame of some size around a content. -/
def frame (size content : Ty) : Ty :=
  .struct "Frame" [("size", size), ("content", .struct "Content" [("value", content)])]

/-- A frame around a text. -/
def framedText : Ty := frame (.literal 1) (.string (.literal "a"))

/-- A text, or a frame around a number. -/
def framedNumber : Ty := .union [.string .all, frame (.number .all) (.number .all)]

end Sample

open Sample

/-- The content of the frame does not fit, its size does. -/
theorem explain_exact_framed : ∃ message way, Ty.Consistent [framedText, framedNumber] ∧
    (∀ t ∈ [framedText, framedNumber], t.WellFormed ∧ t.Small) ∧
    explain framedText framedNumber = .ok (some message) ∧
    trace framedText framedNumber = .ok (some way) ∧ Leads framedText framedNumber way ∧
    ∃ field inner, way = .field "Frame" field inner := by
  have consistent : Ty.Consistent [framedText, framedNumber] := by decide +kernel
  have formed : ∀ t ∈ [framedText, framedNumber], t.WellFormed ∧ t.Small := by decide +kernel
  have apart : framedText.disjoint framedNumber = .ok true :=
    eq_ok_of_toOption (by decide +kernel)
  obtain ⟨⟨message, explained, said⟩, found, traced, exact, ways⟩ := explain_exact consistent
  obtain ⟨message, rfl⟩ := Option.isSome_iff_exists.mp (Except.ok.inj (said.symm.trans apart))
  obtain ⟨way, rfl⟩ := Option.isSome_iff_exists.mp (Except.ok.inj (exact.symm.trans apart))
  obtain ⟨leads, goesOn⟩ := ways way rfl
  have only : structsNamed "Frame" framedNumber = [⟨"Frame",
      [("size", .number .all), ("content", .struct "Content" [("value", .number .all)])]⟩] := rfl
  exact ⟨message, way, consistent, formed, explained, traced, leads,
    (goesOn formed).1 _ _ _ rfl only⟩

namespace Sample

/-- A number so large that a step of one does not lead to another number. -/
def far (k : Int) : Num := .fin (2 ^ 53 + 2 * k)

/-- One far number. -/
def farLiteral (k : Int) : Ty := .number (.literal (far k))

/-- Far whole numbers in a row. -/
def farInts (first last : Int) : Ty := .number (.ints (far first) (far last))

/-- All numbers between two far ones. -/
def farReals (first last : Int) : Ty := .number (.reals (far first) (far last))

/-- Three far numbers, one by one. -/
def farNumbers : Ty := .union [farLiteral 1, farLiteral 2, farLiteral 3]

/-- A far number, and those from another one on. -/
def farGap (last : Int) : Ty := .union [farLiteral 0, farReals 1 last]

/-- A point with a weight. -/
def farPoint (x y z weight : Ty) : Ty :=
  .struct "Point" [("x", x), ("y", y), ("z", z), ("weight", weight)]

/-- A point, with its coordinates in turn. -/
def farTurns (x y z weight : Ty) : List Ty :=
  [farPoint x y z weight, farPoint z x y weight, farPoint y z x weight]

/-- Points that have one of three far numbers as a first coordinate, the other two coordinates as a
list of numbers and as a range, and a weight. -/
def farItems : List Ty :=
  farTurns (farLiteral 3) farNumbers (farInts 1 3) (farInts 0 4) ++
    farTurns (farLiteral 3) farNumbers (farInts 1 3) (farReals 1 4) ++
    farTurns (farInts 1 2) farNumbers (farInts 1 3) (farGap 2) ++
    farTurns (farInts 1 2) farNumbers (farInts 1 3) (farReals 2 4)

/-- The union of these points. All weights are the same, but half of them have a number that the
next union leaves out. Only then are the parts of a first coordinate put together, and each of the
three points that come about is a part of the next one. -/
def farPoints : Ty :=
  let weight : Ty := .union [farLiteral 0, farLiteral 4, farReals 1 4]
  .union [farPoint (farLiteral 3) farNumbers (farInts 1 3) weight,
    farPoint (farInts 1 2) farNumbers (farInts 1 3) (farGap 4),
    farPoint (farInts 1 3) (farLiteral 3) farNumbers weight,
    farPoint (farInts 1 3) (farInts 1 2) farNumbers (farGap 4),
    farPoint farNumbers (farInts 1 3) (farLiteral 3) weight,
    farPoint farNumbers (farInts 1 3) (farInts 1 2) (farGap 4)]

/-- A box with such points. -/
def farBox : Ty := .struct "Box" [("points", farPoints)]

/-- A holder of a box. -/
def holder (box : Ty) : Ty := .struct "Holder" [("box", box)]

/-- A text, or a holder of anything. -/
def holders : Ty := .union [.string .all, holder .any]

/-- The unions that all of this is made of. -/
def farUnions : List (List Ty × Ty) :=
  [([farLiteral 1, farLiteral 2, farLiteral 3], farNumbers),
    ([farLiteral 0, farReals 1 2], farGap 2), (farItems, farPoints),
    ([.string .all, holder .any], holders)]

end Sample

/-- A trace can end at a struct all of whose fields fit, for types that are made by unions: beyond
small numbers two of them can count as disjoint that have a common value. -/
theorem trace_ends_at_fitting_fields :
    (∀ made ∈ farUnions, Ty.unionOf made.1 = .ok made.2) ∧
    (∀ t ∈ [holder farBox, holders], t.WellFormed) ∧ Ty.Consistent [holder farBox, holders] ∧
    structsNamed "Holder" holders = [⟨"Holder", [("box", .any)]⟩] ∧
    farBox.disjoint .any = .ok false ∧ (∃ v, v ∈ holder farBox ∧ v ∈ holders) ∧
    (holder farBox).disjoint holders = .ok true ∧
    trace (holder farBox) holders = .ok (some (.general (holder farBox) holders)) := by
  have made : ∀ made ∈ farUnions, (Ty.unionOf made.1).toOption = some made.2 := by decide +kernel
  have apart : (holder farBox).disjoint holders = .ok true :=
    eq_ok_of_toOption (by decide +kernel)
  have fits : farBox.disjoint .any = .ok false := eq_ok_of_toOption (by decide +kernel)
  have common : ∃ v, v ∈ holder farBox ∧ v ∈ holders := by
    refine ⟨.record "Holder" [("box", .record "Box" [("points", .record "Point"
      [("x", .number (far 3)), ("y", .number (far 1)), ("z", .number (far 1)),
        ("weight", .number (far 0))])])], ?_⟩
    decide +kernel
  have only : structsNamed "Holder" holders = [⟨"Holder", [("box", .any)]⟩] := rfl
  refine ⟨fun entry mem => eq_ok_of_toOption (made entry mem), by decide +kernel,
    by decide +kernel, only, fits, common, apart, ?_⟩
  rw [holder, trace_struct apart only, traceFields, fits]
  rfl

end Mismatch

end TypeFlow
