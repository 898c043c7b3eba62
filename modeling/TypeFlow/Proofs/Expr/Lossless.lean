import TypeFlow.Expr.Codec
import TypeFlow.Proofs.Expr.Valid
import TypeFlow.Proofs.Json.Encoded

/-!
# Expressions as JSON, without loss

All that is decoded is a valid expression, whatever spelling of it the decoder accepts, and a
valid expression is decoded from its own encoding.
-/

namespace TypeFlow

open List
open Decoder (Gives)
open Fields (finds_of_mem finds_of_absent)

theorem Written.gives_decoder : Written.decoder.Gives fun w => w.value.IsDouble := by
  let Double : Written ⊕ String → Prop := fun s => ∀ w, s = .inl w → w.value.IsDouble
  have forms : ∀ form ∈ [Decoder.number.map Sum.inl, Decoder.string.map Sum.inr],
      form.Gives Double := by
    simp only [forall_mem_cons]
    refine ⟨Decoder.gives_number.map fun w finite v same => ?_,
      (Decoder.gives_true _).map fun _ _ _ same => ?_, fun _ none => by cases none⟩
    · obtain rfl := Sum.inl.inj same
      exact finite.2
    · cases same
  refine (Gives.firstOf forms).refine fun s double w read => ?_
  cases s with
  | inl v =>
    obtain rfl := Except.ok.inj read
    exact double v rfl
  | inr text =>
    -- the numbers that have no other spelling
    simp only [ofText] at read
    split at read
    · obtain rfl := Except.ok.inj read
      trivial
    · split at read
      · obtain rfl := Except.ok.inj read
        trivial
      · split at read
        · obtain rfl := Except.ok.inj read
          trivial
        · cases read

namespace Expr

/-- A valid expression, if there is one. -/
def ValidResult (result : Except Issue Expr) : Prop := ∀ e, result = .ok e → e.Valid

theorem validResult_ok {e : Expr} (valid : e.Valid) : ValidResult (.ok e) :=
  fun _ same => Except.ok.inj same ▸ valid

theorem valid_of_children {e : Expr} (here : e.ValidHere)
    (each : ∀ child ∈ e.children, child.Valid) : e.Valid := valid_iff.mpr ⟨here, each⟩

theorem validResult_number {n : NumberTy} (valid : n.Valid) (doubles : n.Doubles) :
    ValidResult (.ok (number n)) :=
  validResult_ok (valid_of_children ⟨valid, doubles⟩ fun _ none => by cases none)

/-- Two bounds that are read make a valid range where they are accepted. -/
theorem gives_bounds {range : Written → Written → Except InvalidBounds NumberTy}
    (accepted : ∀ min max n, min.value.IsDouble → max.value.IsDouble → range min max = .ok n →
      n.Valid ∧ n.Doubles) :
    ((fun min max => ofBounds (range min max)) <$> Fields.required "min" Written.decoder <*>
      Fields.required "max" Written.decoder).Gives ValidResult := by
  refine .seq (.map (.required Written.gives_decoder) ?_) (.required Written.gives_decoder)
  intro min doubleMin max doubleMax e bounded
  obtain ⟨n, found, rfl⟩ := map_eq_ok_iff.mp (mapError_eq_ok_iff.mp bounded)
  obtain ⟨valid, doubles⟩ := accepted min max n doubleMin doubleMax found
  exact validResult_number valid doubles _ rfl

theorem gives_armDecoder {part : Decoder Expr} (gives : part.Gives Valid) :
    (armDecoder part).Gives fun arm => arm.pattern.Valid ∧ arm.body.Valid := by
  refine Fields.Gives.decoder (.seq (.seq (.map (.required gives) ?_)
    (.field (Decoder.gives_true _) fun _ _ => trivial)) (.required gives))
  exact fun pattern validPattern binding _ body validBody => ⟨validPattern, validBody⟩

theorem gives_forms {part : Decoder Expr} (gives : part.Gives Valid) :
    ∀ variant ∈ forms part, variant.content.Gives ValidResult := by
  have plain : ∀ e : Expr, e.ValidHere → e.children = [] → ValidResult (.ok e) :=
    fun e here none => validResult_ok (valid_of_children here (by simp [none]))
  have number := Written.gives_decoder
  have text := Decoder.gives_true Decoder.string
  simp only [forms, forall_mem_cons, form, plainForm]
  refine ⟨plain _ trivial rfl, plain _ trivial rfl, plain _ ⟨trivial, trivial⟩ rfl, ?literal,
    ?interval, ?intInterval, plain _ trivial rfl, ?text, ?named, ?union, ?intersection, ?access,
    ?call, ?choose, fun _ none => by cases none⟩
  case literal =>
    exact Fields.Gives.map (.required number) fun w double => validResult_number trivial double
  case interval =>
    refine gives_bounds fun min max n doubleMin doubleMax accepted => ?_
    obtain ⟨rfl, valid⟩ := NumberTy.interval_eq_ok.mp accepted
    exact ⟨valid, doubleMin, doubleMax⟩
  case intInterval =>
    refine gives_bounds fun min max n doubleMin doubleMax accepted => ?_
    obtain ⟨rfl, valid⟩ := NumberTy.intInterval_eq_ok.mp accepted
    exact ⟨valid, doubleMin, doubleMax⟩
  case text =>
    exact Fields.Gives.map (.required text) fun s _ => plain _ trivial rfl
  case named =>
    refine Fields.Gives.seq (.map (.required text) ?_) (.withDefault gives.entries (by simp))
    intro name _ fields distinct
    exact validResult_ok (valid_of_children distinct.2 (forall_mem_map.mpr distinct.1))
  case union =>
    refine Fields.Gives.map (.required gives.list) fun items valid => ?_
    exact validResult_ok (valid_of_children trivial valid)
  case intersection =>
    refine Fields.Gives.map (.required gives.list) fun items valid => ?_
    exact validResult_ok (valid_of_children trivial valid)
  case access =>
    refine Fields.Gives.seq (.map (.required gives) ?_) (.required text)
    intro of valid field _
    exact validResult_ok (valid_of_children trivial (forall_mem_singleton.mpr valid))
  case call =>
    refine Fields.Gives.seq (.map (.required text) ?_) (.withDefault gives.list (by simp))
    intro name _ args valid
    exact validResult_ok (valid_of_children trivial valid)
  case choose =>
    refine Fields.Gives.seq (.map (.required gives) ?_) (.required (gives_armDecoder gives).list)
    intro of valid arms validArms
    refine validResult_ok (valid_of_children trivial (forall_mem_cons.mpr ⟨valid, ?_⟩))
    intro child mem
    obtain ⟨arm, inArms, part⟩ := mem_flatMap.mp mem
    obtain ⟨validPattern, validBody⟩ := validArms arm inArms
    rcases mem_pair.mp part with rfl | rfl
    · exact validPattern
    · exact validBody

theorem gives_decoderAt (levels : Nat) : (decoderAt levels).Gives Valid := by
  induction levels with
  | zero =>
    intro v _ e decoded
    cases decoded
  | succ levels ih =>
    exact (Decoder.gives_tagged (gives_forms ih)).refine fun _ valid e same => valid e same

theorem decoder_encode_num (place : Place) (x : Num) :
    Written.decoder (.value place (Written.num x).encode) = .ok (.num x) := by
  cases x <;> rfl

theorem encodeItems_eq (items : List Expr) : encodeItems items = items.map encode := by
  induction items with
  | nil => rfl
  | cons e rest ih => rw [encodeItems, ih, map_cons]

theorem encodeFields_eq (fields : List (String × Expr)) :
    encodeFields fields = fields.map fun f => (f.1, encode f.2) := by
  induction fields with
  | nil => rfl
  | cons f rest ih => rw [encodeFields, ih, map_cons]

/-- The encoding of an arm. -/
def encodeArm (arm : Arm Expr) : Json :=
  .object (("pattern", encode arm.pattern)
    :: (arm.binding.map fun name => ("binding", .string name)).toList
    ++ [("body", encode arm.body)])

theorem encodeArms_eq (arms : List (Arm Expr)) : encodeArms arms = arms.map encodeArm := by
  induction arms with
  | nil => rfl
  | cons arm rest ih => rw [encodeArms, ih, map_cons, encodeArm]

theorem ofBounds_ok {range : Except InvalidBounds NumberTy} {n : NumberTy}
    (accepted : range = .ok n) : ofBounds range = .ok (number n) := by
  rw [accepted]
  rfl

section Reading

variable {part : Decoder Expr} {place : Place}

theorem decoderOver_plain {name : String} {e : Expr}
    (named : (forms part).find? (fun v => v.name = name) = some (plainForm name e)) :
    decoderOver part (.value place (encodeAs name [])) = .ok e := by
  exact bind_eq_ok_iff.mpr ⟨.ok e, Decoder.tagged_nothing named, rfl⟩

theorem decoderOver_form {name title : String} {fields : Fields (Except Issue Expr)} {e : Expr}
    {es : List (String × Json)}
    (named : (forms part).find? (fun v => v.name = name) = some (form name title fields))
    (distinct : ("type" :: es.map (·.1)).Nodup)
    (finds : fields.Finds (Input.entriesOf .aside es) (.ok e)) :
    decoderOver part (.value place (encodeAs name es)) = .ok e := by
  exact bind_eq_ok_iff.mpr ⟨.ok e, Decoder.tagged_fields named distinct finds, rfl⟩

theorem armDecoder_encodeArm {arm : Arm Expr}
    (pattern : part (.value place arm.pattern.encode) = .ok arm.pattern)
    (body : part (.value place arm.body.encode) = .ok arm.body) :
    armDecoder part (.value place (encodeArm arm)) = .ok arm := by
  refine Fields.decoder_encoded _ ?_
  obtain ⟨pattern', binding, body'⟩ := arm
  cases binding with
  | none =>
    exact .seq (.map₂ (finds_of_mem (by simp) (by simp) pattern) (finds_of_absent (by simp)))
      (finds_of_mem (by simp) (by simp) body)
  | some name =>
    have named : Decoder.string.nullable (.value place (.string name)) = .ok (some name) := rfl
    exact .seq (.map₂ (finds_of_mem (by simp) (by simp) pattern)
      (finds_of_mem (by simp) (by simp) named)) (finds_of_mem (by simp) (by simp) body)

theorem decoderOver_encodeNumber {n : NumberTy} (valid : n.Valid) :
    decoderOver part (.value place (encodeNumber n)) = .ok (number n) := by
  have bound := decoder_encode_num .aside
  cases n with
  | literal v =>
    refine decoderOver_form rfl (by simp) ?_
    exact .map (finds_of_mem (by simp) (by simp) (bound v))
  | ints min max =>
    have accepted : NumberTy.intInterval (.num min) (.num max) = .ok (.ints min max) :=
      NumberTy.intInterval_eq_ok.mpr ⟨rfl, valid⟩
    refine decoderOver_form rfl (by simp) (ofBounds_ok accepted ▸ ?_)
    exact .map₂ (finds_of_mem (by simp) (by simp) (bound min))
      (finds_of_mem (by simp) (by simp) (bound max))
  | reals min max =>
    have accepted : NumberTy.interval (.num min) (.num max) = .ok (.reals min max) :=
      NumberTy.interval_eq_ok.mpr ⟨rfl, valid⟩
    refine decoderOver_form rfl (by simp) (ofBounds_ok accepted ▸ ?_)
    exact .map₂ (finds_of_mem (by simp) (by simp) (bound min))
      (finds_of_mem (by simp) (by simp) (bound max))
  | all => exact decoderOver_plain rfl

theorem decoderOver_encode {e : Expr} (valid : e.ValidHere)
    (reads : ∀ child ∈ e.children, part (.value .aside child.encode) = .ok child) :
    decoderOver part (.value place e.encode) = .ok e := by
  have text : ∀ s, Decoder.string (.value .aside (.string s)) = .ok s := fun _ => rfl
  cases e with
  | never => exact decoderOver_plain rfl
  | any => exact decoderOver_plain rfl
  | number n => exact decoderOver_encodeNumber valid.1
  | string s =>
    cases s with
    | literal s =>
      refine decoderOver_form rfl (by simp) ?_
      exact .map (finds_of_mem (by simp) (by simp) (text _))
    | all => exact decoderOver_plain rfl
  | named name fields =>
    cases fields with
    | nil =>
      refine decoderOver_form rfl (by simp) ?_
      exact .map₂ (finds_of_mem (by simp) (by simp) (text _)) (finds_of_absent (by simp))
    | cons f rest =>
      rw [encode, encodeFields_eq]
      refine decoderOver_form rfl (by simp) ?_
      have read := Decoder.entries_encoded (forall_mem_map.mp reads) valid
      exact .map₂ (finds_of_mem (by simp) (by simp) (text _))
        (finds_of_mem (by simp) (by simp) read)
  | union items =>
    rw [encode, encodeItems_eq]
    refine decoderOver_form rfl (by simp) ?_
    exact .map (finds_of_mem (by simp) (by simp) (Decoder.list_encoded reads))
  | intersection items =>
    rw [encode, encodeItems_eq]
    refine decoderOver_form rfl (by simp) ?_
    exact .map (finds_of_mem (by simp) (by simp) (Decoder.list_encoded reads))
  | access of field =>
    rw [encode]
    refine decoderOver_form rfl (by simp) ?_
    have read := reads of mem_cons_self
    exact .map₂ (finds_of_mem (by simp) (by simp) read)
      (finds_of_mem (by simp) (by simp) (text _))
  | call name args =>
    rw [encode, encodeItems_eq]
    refine decoderOver_form rfl (by simp) ?_
    exact .map₂ (finds_of_mem (by simp) (by simp) (text _))
      (finds_of_mem (by simp) (by simp) (Decoder.list_encoded reads))
  | choose of arms =>
    rw [encode, encodeArms_eq]
    refine decoderOver_form rfl (by simp) ?_
    obtain ⟨read, readArms⟩ := forall_mem_cons.mp reads
    have each : ∀ arm ∈ arms, armDecoder part (.value .aside (encodeArm arm)) = .ok arm := by
      intro arm mem
      refine armDecoder_encodeArm (readArms _ ?_) (readArms _ ?_) <;>
        exact mem_flatMap.mpr ⟨arm, mem, by simp⟩
    exact .map₂ (finds_of_mem (by simp) (by simp) read)
      (finds_of_mem (by simp) (by simp) (Decoder.list_encoded each))

end Reading

theorem storable_encode_num {x : Num} (double : x.IsDouble) :
    (Written.num x).encode.Storable := by
  cases x with
  | fin q => exact Json.storable_scalar rfl ⟨rfl, double⟩
  | _ => exact Json.storable_string _

theorem storable_encodeNumber {n : NumberTy} (doubles : n.Doubles) :
    (encodeNumber n).Storable := by
  cases n with
  | literal v =>
    simpa [encodeNumber, encodeAs, Json.storable_object] using storable_encode_num doubles
  | ints min max =>
    simpa [encodeNumber, encodeAs, Json.storable_object] using
      ⟨storable_encode_num doubles.1, storable_encode_num doubles.2⟩
  | reals min max =>
    simpa [encodeNumber, encodeAs, Json.storable_object] using
      ⟨storable_encode_num doubles.1, storable_encode_num doubles.2⟩
  | all => simp [encodeNumber, encodeAs, Json.storable_object]

theorem storable_encodeArm {arm : Arm Expr} (pattern : arm.pattern.encode.Storable)
    (body : arm.body.encode.Storable) : (encodeArm arm).Storable := by
  obtain ⟨p, binding, b⟩ := arm
  cases binding <;> simpa [encodeArm, Json.storable_object] using ⟨pattern, body⟩

theorem storable_encode_of_children {e : Expr} (valid : e.ValidHere)
    (inner : ∀ child ∈ e.children, child.encode.Storable) : e.encode.Storable := by
  have items : ∀ items : List Expr, (∀ e ∈ items, e.encode.Storable) →
      (Json.array (encodeItems items)).Storable := by
    intro items each
    rw [encodeItems_eq, Json.storable_array]
    exact forall_mem_map.mpr each
  cases e with
  | never | any => simp [encode, encodeAs, Json.storable_object]
  | number n => exact storable_encodeNumber valid.2
  | string s => cases s <;> simp [encode, encodeString, encodeAs, Json.storable_object]
  | named name fields =>
    cases fields with
    | nil => simp [encode, encodeAs, Json.storable_object]
    | cons f rest =>
      have fields : (Json.object (encodeFields (f :: rest))).Storable := by
        rw [encodeFields_eq, Json.storable_object]
        constructor
        · rw [map_map]
          exact valid
        · exact forall_mem_map.mpr fun f mem =>
            inner f.2 (mem_map_of_mem (f := (·.2)) mem)
      simpa [encode, encodeAs, Json.storable_object] using fields
  | union args | intersection args | call _ args =>
    simpa [encode, encodeAs, Json.storable_object] using items args inner
  | access of field =>
    have read := inner of mem_cons_self
    simpa [encode, encodeAs, Json.storable_object] using read
  | choose of arms =>
    obtain ⟨first, rest⟩ := forall_mem_cons.mp inner
    have each : ∀ arm ∈ arms, (encodeArm arm).Storable := by
      intro arm mem
      refine storable_encodeArm (rest _ ?_) (rest _ ?_) <;>
        exact mem_flatMap.mpr ⟨arm, mem, by simp⟩
    have read : (Json.array (encodeArms arms)).Storable := by
      rw [encodeArms_eq, Json.storable_array]
      exact forall_mem_map.mpr each
    simpa [encode, encodeAs, Json.storable_object] using ⟨first, read⟩

theorem storable_encode {e : Expr} (valid : e.Valid) : e.encode.Storable := by
  induction e using children_induction with
  | step e ih =>
    obtain ⟨here, each⟩ := valid_iff.mp valid
    exact storable_encode_of_children here fun child mem => ih child mem (each child mem)

theorem depth_lt_encodeAs {tag : String} {j : Json} {es : List (String × Json)}
    (mem : j ∈ es.map (·.2)) : j.depth < (encodeAs tag es).depth :=
  Json.depth_lt_of_mem_children (mem_cons_of_mem _ mem)

theorem depth_lt_array {α : Type} {encode : α → Json} {items : List α} {a : α} (mem : a ∈ items) :
    (encode a).depth < (Json.array (items.map encode)).depth :=
  Json.depth_lt_of_mem_children (mem_map_of_mem mem)

theorem depth_encode_lt {e child : Expr} (mem : child ∈ e.children) :
    child.encode.depth < e.encode.depth := by
  cases e with
  | never | any | number | string => cases mem
  | named name fields =>
    obtain ⟨f, inFields, rfl⟩ := mem_map.mp mem
    cases fields with
    | nil => cases inFields
    | cons g rest =>
      have inner : f.2.encode.depth < (Json.object (encodeFields (g :: rest))).depth := by
        refine Json.depth_lt_of_mem_children ?_
        rw [encodeFields_eq]
        exact mem_map.mpr ⟨(f.1, f.2.encode), mem_map.mpr ⟨f, inFields, rfl⟩, rfl⟩
      exact inner.trans (depth_lt_encodeAs (by simp))
  | union items | intersection items | call _ items =>
    have mem : child ∈ items := mem
    rw [encode, encodeItems_eq]
    exact (depth_lt_array mem).trans (depth_lt_encodeAs (by simp))
  | access of field =>
    rw [mem_singleton.mp mem, encode]
    exact depth_lt_encodeAs (by simp)
  | choose of arms =>
    rw [encode, encodeArms_eq]
    rcases mem_cons.mp mem with rfl | inArms
    · exact depth_lt_encodeAs (by simp)
    · obtain ⟨arm, inArms, part⟩ := mem_flatMap.mp inArms
      have inner : child.encode.depth < (encodeArm arm).depth := by
        refine Json.depth_lt_of_mem_children ?_
        rcases mem_pair.mp part with rfl | rfl <;> simp [encodeArm, Json.children]
      exact (inner.trans (depth_lt_array inArms)).trans (depth_lt_encodeAs (by simp))

theorem decoderAt_encode {levels : Nat} {e : Expr} (place : Place) (valid : e.Valid)
    (deep : e.encode.depth < levels) :
    decoderAt levels (.value place e.encode) = .ok e := by
  induction levels generalizing e place with
  | zero => exact absurd deep (Nat.not_lt_zero _)
  | succ levels ih =>
    obtain ⟨here, each⟩ := valid_iff.mp valid
    refine decoderOver_encode here fun child mem => ih .aside (each child mem) ?_
    have inside := depth_encode_lt mem
    omega

/-- Expressions are written as JSON without loss. What is decoded from values in memory are the
valid expressions and no others, and each of them is decoded from its own encoding. -/
theorem decoder_lossless (e : Expr) :
    ((∃ j : Json, j.Storable ∧ decoder.ofTree j = .ok e) ↔ e.Valid) ∧
    (e.Valid → e.encode.Storable ∧ decoder.ofTree e.encode = .ok e) := by
  have roundTrip : e.Valid → e.encode.Storable ∧ decoder.ofTree e.encode = .ok e := by
    intro valid
    have read := decoderAt_encode .tree valid (Nat.lt_succ_self _)
    exact ⟨storable_encode valid, mapError_eq_ok_iff.mpr read⟩
  refine ⟨⟨?_, fun valid => ⟨e.encode, roundTrip valid⟩⟩, roundTrip⟩
  rintro ⟨j, storable, decoded⟩
  exact gives_decoderAt _ (.value .tree j) storable.exact e (mapError_eq_ok_iff.mp decoded)

namespace Sample

/-- A choice between numbers, with an unlimited range, a struct of two fields and a binding. -/
def choice : Expr :=
  .choose (.access (.named "P" [("y", .number (.literal .nan)), ("x", .any)]) "y")
    [⟨.number (.ints (.fin (-3)) .posInf), some "n", .call "number::add" [.named "n" [], .never]⟩]

end Sample

theorem decoder_lossless_choice : Sample.choice.Valid ∧
    decoder.ofTree Sample.choice.encode = .ok Sample.choice := by
  have valid : Sample.choice.Valid := by decide +kernel
  exact ⟨valid, ((decoder_lossless Sample.choice).2 valid).2⟩

end Expr
end TypeFlow
