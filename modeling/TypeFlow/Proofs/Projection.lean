import TypeFlow.Proofs.Eval.Surroundings
import TypeFlow.Proofs.Exactness

/-!
# Fields of types

Taking a field of a type is a projection: of the records of the type it has exactly the values of
the field. A value of one field belongs to some record since the other fields of a well-formed
struct are not empty, and uniting the types that the field has in the members neither loses nor
gains a value.
-/

namespace TypeFlow

open List

namespace Ty

/-- A struct has no field name twice. -/
def DistinctHere : Ty → Prop
  | struct _ fields => (fields.map (·.1)).Nodup
  | _ => True

instance : DecidablePred DistinctHere := fun t => by
  rcases t <;> dsimp only [DistinctHere] <;> infer_instance

/-- No struct in a type has a field name twice. -/
def Distinct (t : Ty) : Prop := t.Everywhere DistinctHere
deriving Decidable

variable {name field : String} {fields : List (String × Ty)} {t : Ty} {w : Value}

/-- A value of a record belongs to a field. -/
theorem exists_field_of_hasFields {values : List (String × Value)}
    (has : hasFields fields values = true) (mem : (field, w) ∈ values) :
    ∃ t, (field, t) ∈ fields ∧ w ∈ t := by
  induction fields generalizing values with
  | nil =>
    rw [hasFields_nil.mp has] at mem
    cases mem
  | cons f rest ih =>
    cases values with
    | nil => cases mem
    | cons entry values =>
      obtain ⟨sameName, head, tail⟩ := hasFields_cons_cons.mp has
      rcases mem_cons.mp mem with rfl | mem
      · obtain rfl : field = f.1 := sameName
        exact ⟨f.2, mem_cons_self, head⟩
      · obtain ⟨t, inRest, member⟩ := ih tail mem
        exact ⟨t, mem_cons_of_mem f inRest, member⟩

/-- A value of one field belongs to a record if the other fields have values too. -/
theorem exists_hasFields_of_mem (inhabited : ∀ f ∈ fields, ∃ v, v ∈ f.2)
    (found : (field, t) ∈ fields) (member : w ∈ t) :
    ∃ values, hasFields fields values = true ∧ (field, w) ∈ values := by
  induction fields with
  | nil => cases found
  | cons f rest ih =>
    obtain ⟨⟨v, head⟩, others⟩ := forall_mem_cons.mp inhabited
    rcases mem_cons.mp found with rfl | found
    · obtain ⟨values, tail⟩ := exists_hasFields others
      exact ⟨(field, w) :: values, hasFields_cons_cons.mpr ⟨rfl, member, tail⟩, mem_cons_self⟩
    · obtain ⟨values, tail, mem⟩ := ih others found
      exact ⟨(f.1, v) :: values, hasFields_cons_cons.mpr ⟨rfl, head, tail⟩,
        mem_cons_of_mem _ mem⟩

/-- A field has exactly the values in records. -/
theorem mem_field_iff (wellFormed : (struct name fields).WellFormed)
    (distinct : (fields.map (·.1)).Nodup) (found : valueAt? field fields = some t) :
    w ∈ t ↔ ∃ values, Value.record name values ∈ struct name fields ∧ (field, w) ∈ values := by
  obtain ⟨proper, each⟩ := everywhere_struct.mp wellFormed
  constructor
  · intro member
    have inhabited : ∀ f ∈ fields, ∃ v, v ∈ f.2 := fun f mem =>
      exists_mem f.2 (each f mem) (proper f mem)
    obtain ⟨values, has, mem⟩ := exists_hasFields_of_mem inhabited (mem_of_valueAt? found) member
    exact ⟨values, record_mem_iff.mpr ⟨rfl, has⟩, mem⟩
  · rintro ⟨values, record, mem⟩
    obtain ⟨t', inFields, member⟩ := exists_field_of_hasFields (record_mem_iff.mp record).2 mem
    obtain rfl : t = t' := Option.some.inj (found.symm.trans (valueAt?_of_mem distinct inFields))
    exact member

/-- A field can be taken of structs that have it. -/
theorem accessMember_eq_ok_iff {m : Ty} : accessMember field m = .ok t ↔
    ∃ name fields, m = struct name fields ∧ valueAt? field fields = some t := by
  cases m with
  | struct name fields =>
    rw [accessMember]
    cases found : valueAt? field fields <;> simp [found]
  | _ => simp [accessMember]

/-- A field of a type is united from its members. -/
theorem access_eq (proper : t ≠ any) : t.access field = (do
    Run.ofChecked (unionOf (← Run.ofExcept (t.members.mapM (accessMember field))))) := by
  cases t with
  | any => exact absurd rfl proper
  | _ => rfl

/-- A type is accessed if all members are structs with that field. -/
theorem exists_members_iff : (∃ types, t.members.mapM (accessMember field) = .ok types) ↔
    ∀ m ∈ t.members, ∃ name fields, m = struct name fields ∧ field ∈ fields.map (·.1) := by
  rw [exists_mapM_iff]
  refine forall₂_congr fun m _ => ?_
  simp only [accessMember_eq_ok_iff]
  constructor
  · rintro ⟨t, name, fields, same, found⟩
    exact ⟨name, fields, same, mem_map_of_mem (f := (·.1)) (mem_of_valueAt? found)⟩
  · rintro ⟨name, fields, same, mem⟩
    obtain ⟨t, found⟩ := exists_valueAt? mem
    exact ⟨t, name, fields, same, found⟩

/-- The types that a field has in the members have the values of the records. -/
theorem exists_mem_members_iff (wellFormed : t.WellFormed) (distinct : t.Distinct)
    {types : List Ty} (accessed : t.members.mapM (accessMember field) = .ok types) :
    (∃ u ∈ types, w ∈ u) ↔
      ∃ name values, Value.record name values ∈ t ∧ (field, w) ∈ values := by
  have each := mapM_eq_ok accessed
  constructor
  · rintro ⟨u, mem, member⟩
    obtain ⟨m, inT, ran⟩ := exists_left_of_forall₂ each mem
    obtain ⟨name, fields, rfl, found⟩ := accessMember_eq_ok_iff.mp ran
    have names := (everywhere_struct.mp (distinct.of_mem_members inT)).1
    obtain ⟨values, record, has⟩ :=
      (mem_field_iff (wellFormed.of_mem_members inT) names found).mp member
    exact ⟨name, values, (mem_iff_members t _).mpr ⟨_, inT, record⟩, has⟩
  · rintro ⟨name, values, record, has⟩
    obtain ⟨m, inT, record⟩ := (mem_iff_members t _).mp record
    obtain ⟨u, mem, ran⟩ := exists_right_of_forall₂ each inT
    obtain ⟨name', fields, rfl, found⟩ := accessMember_eq_ok_iff.mp ran
    obtain rfl : name = name' := (record_mem_iff.mp record).1
    have names := (everywhere_struct.mp (distinct.of_mem_members inT)).1
    exact ⟨u, mem, (mem_field_iff (wellFormed.of_mem_members inT) names found).mpr
      ⟨values, record, has⟩⟩

/-- The types of a field are sound. -/
theorem sound_of_members {shape : String → List String} (sound : Sound shape t) {types : List Ty}
    (accessed : t.members.mapM (accessMember field) = .ok types) :
    ∀ u ∈ types, Sound shape u := by
  intro u mem
  obtain ⟨m, inT, ran⟩ := exists_left_of_forall₂ (mapM_eq_ok accessed) mem
  obtain ⟨name, fields, rfl, found⟩ := accessMember_eq_ok_iff.mp ran
  exact ((sound_struct.mp (sound.of_mem_members inT)).2 _ (mem_of_valueAt? found)).2

/-- A field can be taken of a type if and only if all members are structs that have it. Its values
are those that the records of the type have in that field. -/
theorem access_exact (wellFormed : t.WellFormed) (proper : t ≠ any) (consistent : Consistent [t])
    (distinct : t.Distinct) (small : t.Small) (field : String) :
    ((∃ u, t.access field = .ok u) ↔
      ∀ m ∈ t.members, ∃ name fields, m = struct name fields ∧ field ∈ fields.map (·.1)) ∧
    ∀ u, t.access field = .ok u →
      ∀ w, w ∈ u ↔ ∃ name values, Value.record name values ∈ t ∧ (field, w) ∈ values := by
  obtain ⟨shape, sound⟩ := exists_sound (forall_mem_singleton.mpr wellFormed)
    (forall_mem_singleton.mpr small) consistent
  have united {types : List Ty} (accessed : t.members.mapM (accessMember field) = .ok types) :
      Yields (unionOf types) fun u => ∀ v, v ∈ u ↔ ∃ t ∈ types, v ∈ t := by
    have keeps : ∀ u ∈ types, (Invariant.sound shape).Keeps u := fun u mem =>
      ⟨sound_of_members (sound t (mem_singleton_self t)) accessed u mem, trivial⟩
    exact (Invariant.unionOf_yields keeps).mono fun u => And.right
  rw [access_eq proper, ← exists_members_iff]
  simp only [bind_eq_ok_iff, Run.ofExcept_eq_ok_iff]
  refine ⟨⟨?_, ?_⟩, ?_⟩
  · rintro ⟨u, types, accessed, -⟩
    exact ⟨types, accessed⟩
  · rintro ⟨types, accessed⟩
    obtain ⟨u, same, -⟩ := united accessed
    exact ⟨u, types, accessed, by rw [same]; rfl⟩
  · rintro u ⟨types, accessed, result⟩ w
    obtain ⟨u', same, values⟩ := united accessed
    rw [same] at result
    obtain rfl := Except.ok.inj result
    rw [values, exists_mem_members_iff wellFormed distinct accessed]

namespace Sided

open Sample

/-- Structs of two names, of which one has no right side. -/
def sided : Ty :=
  union [struct "edge" [("left", union [digits, pair digits any])],
    pair (number (.reals (.fin 3) (.fin 20))) (string .all), pair digitsOrWord digits]

end Sided

open Sided in
/-- The left side is a projection of all three members; there is no right side. -/
theorem access_exact_sided : sided.WellFormed ∧ sided ≠ any ∧ Consistent [sided] ∧
    sided.Distinct ∧ sided.Small ∧
    (∃ u, sided.access "left" = .ok u ∧
      ∀ w, w ∈ u ↔ ∃ name values, Value.record name values ∈ sided ∧ ("left", w) ∈ values) ∧
    ¬ ∃ u, sided.access "right" = .ok u := by
  have wellFormed : sided.WellFormed := by decide
  have proper : sided ≠ any := by decide
  have consistent : Consistent [sided] := by decide
  have distinct : sided.Distinct := by decide
  have small : sided.Small := by decide
  have left := access_exact wellFormed proper consistent distinct small "left"
  have right := access_exact wellFormed proper consistent distinct small "right"
  have everywhere : ∀ m ∈ sided.members, ∃ name fields,
      m = struct name fields ∧ "left" ∈ fields.map (·.1) := by
    simp [sided, members, Sample.pair]
  have edge : struct "edge" [("left", union [Sample.digits, Sample.pair Sample.digits any])] ∈
      sided.members := mem_cons_self
  obtain ⟨u, accessed⟩ := left.1.mpr everywhere
  refine ⟨wellFormed, proper, consistent, distinct, small, ⟨u, accessed, left.2 u accessed⟩,
    fun accessed => ?_⟩
  obtain ⟨name, fields, same, mem⟩ := right.1.mp accessed _ edge
  obtain ⟨rfl, rfl⟩ := struct.inj same
  simp at mem

end Ty

end TypeFlow
