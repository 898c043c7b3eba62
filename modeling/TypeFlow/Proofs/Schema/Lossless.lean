import TypeFlow.Proofs.Expr.Lossless
import TypeFlow.Schema.Codec

/-!
# Schemas as JSON, without loss

A schema is valid when its expressions are, the numbers of its inputs and outputs have 32 bits and
the numbers among its values are finite doubles. All that is decoded is valid, whatever spelling of
it the decoder accepts and whichever of its fields are absent, and a valid schema is decoded from
its own encoding.
-/

namespace TypeFlow

open List
open Decoder (Gives Lossless gives_true gives_id gives_tagged lossless_string lossless_bool
  tagged_fields firstOf_here firstOf_later)

namespace Fields

variable {α β ρ : Type} {entries own own' : ρ → List (String × Json)} {Valid : ρ → Prop}
  {part : ρ → α} {P : α → Prop} {Q : β → Prop}

/-- Fields of structures are written without loss. Only proper values are found, what is found in
the entries of a valid structure is that part of it, and the part's own entries can be in memory. -/
structure Written (fields : Fields α) (entries own : ρ → List (String × Json)) (Valid : ρ → Prop)
    (part : ρ → α) (P : α → Prop) : Prop where
  gives : fields.Gives P
  finds : ∀ r, Valid r → ((entries r).map (·.1)).Nodup → ∀ place,
    fields.Finds (Input.entriesOf place (entries r)) (part r)
  storable : ∀ r, Valid r → ∀ entry ∈ own r, entry.2.Storable

namespace Written

theorem map {f : α → β} {x : Fields α} (argument : x.Written entries own Valid part P)
    (keeps : ∀ a, P a → Q (f a)) :
    (f <$> x).Written entries own Valid (fun r => f (part r)) Q where
  gives := .map argument.gives keeps
  finds r valid distinct place := .map (argument.finds r valid distinct place)
  storable := argument.storable

theorem seq {f : Fields (α → β)} {x : Fields α} {g : ρ → α → β}
    (function : f.Written entries own Valid g fun g => ∀ a, P a → Q (g a))
    (argument : x.Written entries own' Valid part P) :
    (f <*> x).Written entries (fun r => own r ++ own' r) Valid (fun r => g r (part r)) Q where
  gives := .seq function.gives argument.gives
  finds r valid distinct place :=
    .seq (function.finds r valid distinct place) (argument.finds r valid distinct place)
  storable r valid :=
    forall_mem_append.mpr ⟨function.storable r valid, argument.storable r valid⟩

section

variable {name : String} {decoder : Decoder α} {encode : α → Json}

theorem required (part : ρ → α) (lossless : decoder.Lossless encode P)
    (mem : ∀ r, (name, encode (part r)) ∈ entries r)
    (proper : ∀ r, Valid r → P (part r)) : (Fields.required name decoder).Written entries
      (fun r => [(name, encode (part r))]) Valid part P where
  gives := .required lossless.gives
  finds r valid distinct _ := lossless.finds distinct (mem r) (proper r valid)
  storable r valid := forall_mem_singleton.mpr (lossless.storable _ (proper r valid))

theorem withDefault (part : ρ → α) (lossless : decoder.Lossless encode P) {default : α}
    (own : P default)
    (mem : ∀ r, (name, encode (part r)) ∈ entries r) (proper : ∀ r, Valid r → P (part r)) :
    (Fields.withDefault name default decoder).Written entries
      (fun r => [(name, encode (part r))]) Valid part P where
  gives := .withDefault lossless.gives own
  finds r valid distinct _ := lossless.finds distinct (mem r) (proper r valid)
  storable := (required part lossless mem proper).storable

/-- What is not there is left out, and then there is nothing under its name. -/
theorem optional (part : ρ → Option α) (lossless : decoder.Lossless encode P)
    (refused : ∀ place, (decoder (.value place .null)).toOption = none)
    (there : ∀ r, entryOf name encode (part r) ⊆ entries r)
    (absent : ∀ r, part r = none → name ∉ (entries r).map (·.1))
    (proper : ∀ r, Valid r → ∀ a ∈ part r, P a) :
    (Fields.optional name decoder).Written entries (fun r => entryOf name encode (part r)) Valid
      part fun found => ∀ a ∈ found, P a where
  gives := .optional lossless.gives
  finds r valid distinct place := by
    have there := there r
    have absent := absent r
    have proper := proper r valid
    cases found : part r with
    | none => exact finds_of_absent (absent found)
    | some a =>
      rw [found] at there proper
      have read := lossless.reads a (proper a rfl) place
      have stated : encode a ≠ .null := by
        intro null
        rw [null] at read
        have refused := refused place
        rw [read] at refused
        cases refused
      exact finds_of_mem distinct (there mem_cons_self) (Decoder.nullable_encoded stated read)
  storable r valid entry mem := by
    have proper := proper r valid
    cases found : part r with
    | none =>
      rw [found] at mem
      cases mem
    | some a =>
      rw [found] at mem proper
      rw [mem_singleton.mp mem]
      exact lossless.storable a (proper a rfl)

end

end Written

/-- A structure is written without loss when its fields are, and has no entries besides theirs. -/
theorem Written.lossless {title : String} {fields : Fields ρ}
    (written : fields.Written entries own Valid (fun r => r) Valid)
    (distinct : ∀ r, ((entries r).map (·.1)).Nodup) (all : ∀ r, own r = entries r) :
    (fields.decoder title).Lossless (fun r => .object (entries r)) Valid where
  gives := written.gives.decoder
  reads r valid place := decoder_encoded title (written.finds r valid (distinct r) place)
  storable r valid := Json.storable_object.mpr ⟨distinct r, all r ▸ written.storable r valid⟩

end Fields

theorem lossless_id : Decoder.id.Lossless encodeId (· < 2 ^ 32) where
  gives := gives_id
  reads _ small _ := Decoder.id_encoded small
  storable _ small := Json.storable_natCast small

theorem Expr.lossless : Expr.decoder.Lossless Expr.encode Expr.Valid where
  gives v := gives_decoderAt (v.depth + 1) v
  reads _ valid place := decoderAt_encode place valid (Nat.lt_succ_self _)
  storable _ valid := storable_encode valid

/-- Numbers are finite doubles. -/
def Literal.Valid : Literal → Prop
  | number w => w.value.isFinite = true ∧ w.value.IsDouble
  | string _ => True

theorem Literal.lossless : Literal.decoder.Lossless Literal.encode Literal.Valid where
  gives := by
    refine Gives.firstOf ?_
    simp only [forall_mem_cons]
    exact ⟨Decoder.gives_number.map fun _ finite => finite,
      (gives_true _).map fun _ _ => trivial, forall_mem_nil _⟩
  reads := by
    intro value _ place
    cases value with
    | number w => exact firstOf_here rfl
    | string s => exact (firstOf_later rfl).trans (firstOf_here rfl)
  storable := by
    intro value valid
    cases value with
    | number w => exact Json.storable_scalar rfl valid
    | string s => exact Json.storable_string s

namespace Decoder

variable {α : Type} {P : α → Prop} {words : List (String × α)}

theorem wordOf_mem {name : String} {a : α} (found : wordOf words name = .ok a) :
    (name, a) ∈ words := by
  unfold wordOf at found
  split at found
  · next here =>
    obtain rfl := Except.ok.inj found
    exact mem_of_valueAt? here
  · cases found

theorem gives_word (each : ∀ named ∈ words, P named.2) : (word words).Gives P := by
  intro v _ a decoded
  unfold word at decoded
  split at decoded
  · exact each _ (wordOf_mem decoded)
  · obtain ⟨b, found, decoded⟩ := bind_eq_ok_iff.mp decoded
    obtain ⟨-, -, decoded⟩ := bind_eq_ok_iff.mp decoded
    obtain rfl := Except.ok.inj decoded
    obtain ⟨name, -, found⟩ := bind_eq_ok_iff.mp found
    obtain ⟨c, named, found⟩ := bind_eq_ok_iff.mp found
    obtain ⟨-, -, found⟩ := bind_eq_ok_iff.mp found
    obtain rfl := Except.ok.inj found
    exact each _ (wordOf_mem named)
  · -- two entries or more are refused, in a text after the first one has been read
    cases v with
    | text size levels cs =>
      obtain ⟨-, -, decoded⟩ := bind_eq_ok_iff.mp decoded
      cases decoded
    | value place j => cases decoded
  · cases decoded

end Decoder

theorem NodeKind.lossless : NodeKind.decoder.Lossless NodeKind.encode fun _ => True where
  gives := gives_true _
  reads kind _ _ := by cases kind <;> rfl
  storable kind _ := by cases kind <;> exact Json.storable_string _

namespace DropdownOption

/-- The value and the type are valid. -/
def Valid (o : DropdownOption) : Prop := o.value.Valid ∧ ∀ e ∈ o.type, e.Valid

theorem lossless : decoder.Lossless encode Valid := by
  refine Fields.Written.lossless (.seq (.seq (.map
    (.required value Literal.lossless (by simp) fun _ valid => valid.1) ?valid)
    (.optional label lossless_string (fun _ => rfl) ?label ?noLabel fun _ _ _ _ => trivial))
    (.optional type Expr.lossless (fun _ => rfl) ?type ?noType fun _ valid => valid.2))
    ?distinct fun _ => rfl
  case valid => exact fun value validValue label _ type validType => ⟨validValue, validType⟩
  case label =>
    exact fun o => subset_append_of_subset_left _ (subset_cons_self _ _)
  case noLabel =>
    intro o none
    cases o.type <;> simp [entryOf, none]
  case type => exact fun o => subset_append_right _ _
  case noType =>
    intro o none
    cases o.label <;> simp [entryOf, none]
  case distinct =>
    intro o
    cases o.label <;> cases o.type <;> simp [entryOf]

end DropdownOption

namespace InputKind

/-- The choices are valid. -/
def Valid : InputKind → Prop
  | dropdown options => ∀ o ∈ options, o.Valid
  | _ => True

theorem lossless : decoder.Lossless encode Valid where
  gives := by
    refine gives_tagged ?_
    simp only [forall_mem_cons]
    refine ⟨trivial, trivial, trivial, ?_, forall_mem_nil _⟩
    exact Fields.Gives.map (.required DropdownOption.lossless.gives.list) fun _ valid => valid
  reads := by
    intro kind valid place
    cases kind with
    | generic | number | text => exact Decoder.tagged_nothing rfl
    | dropdown options =>
      refine tagged_fields rfl (by simp) ?_
      exact .map (DropdownOption.lossless.list.finds (by simp) (by simp) valid)
  storable := by
    intro kind valid
    cases kind with
    | generic | number | text => simp [encode, Expr.encodeAs, Json.storable_object]
    | dropdown options =>
      simpa [encode, Expr.encodeAs, Json.storable_object] using
        DropdownOption.lossless.list.storable options valid

end InputKind

namespace InputSchema

/-- The numbers have 32 bits, and the type and the choices are valid. -/
def Valid (i : InputSchema) : Prop :=
  i.id < 2 ^ 32 ∧ i.type.Valid ∧ i.kind.Valid ∧ ∀ output ∈ i.fusedOutput, output < 2 ^ 32

theorem lossless : decoder.Lossless encode Valid := by
  refine Fields.Written.lossless (.seq (.seq (.seq (.seq (.seq (.seq (.seq (.map
    (.required id lossless_id (by simp) fun _ valid => valid.1) ?valid)
    (.required label lossless_string (by simp) fun _ _ => trivial))
    (.required type Expr.lossless (by simp) fun _ valid => valid.2.1))
    (.withDefault kind InputKind.lossless (by trivial) (by simp) fun _ valid => valid.2.2.1))
    (.withDefault optional lossless_bool trivial (by simp) fun _ _ => trivial))
    (.withDefault hasHandle lossless_bool trivial (by simp) fun _ _ => trivial))
    (.withDefault nullable lossless_bool trivial (by simp) fun _ _ => trivial))
    (.optional fusedOutput lossless_id (fun _ => rfl) (fun _ => subset_append_right _ _)
      (fun _ none => by simp [entryOf, none]) fun _ valid => valid.2.2.2)) ?distinct fun _ => rfl
  case valid =>
    exact fun id small label _ type validType kind validKind _ _ _ _ _ _ fused smallFused =>
      ⟨small, validType, validKind, smallFused⟩
  case distinct =>
    intro i
    cases i.fusedOutput <;> simp [entryOf]

end InputSchema

namespace PassthroughSource

/-- The number of an input has 32 bits. -/
def Valid : PassthroughSource → Prop
  | input id => id < 2 ^ 32
  | _ => True

theorem lossless : decoder.Lossless encode Valid where
  gives := by
    refine Gives.firstOf ?_
    simp only [forall_mem_cons]
    exact ⟨gives_id.map fun _ small => small, Decoder.gives_word (by simp [Valid]),
      forall_mem_nil _⟩
  reads := by
    intro source valid place
    cases source with
    | input id =>
      exact firstOf_here (map_eq_ok_iff.mpr ⟨id, Decoder.id_encoded valid, rfl⟩)
    | auto | none => exact (firstOf_later rfl).trans (firstOf_here rfl)
  storable := by
    intro source valid
    cases source with
    | input id => exact Json.storable_natCast valid
    | auto | none => exact Json.storable_string _

end PassthroughSource

namespace OutputSchema

/-- The numbers have 32 bits, and the type is valid. -/
def Valid (o : OutputSchema) : Prop :=
  o.id < 2 ^ 32 ∧ o.type.Valid ∧ ∀ source ∈ o.passthrough, source.Valid

theorem lossless : decoder.Lossless encode Valid := by
  refine Fields.Written.lossless (.seq (.seq (.seq (.seq (.map
    (.required id lossless_id (by simp) fun _ valid => valid.1) ?valid)
    (.required label lossless_string (by simp) fun _ _ => trivial))
    (.required type Expr.lossless (by simp) fun _ valid => valid.2.1))
    (.withDefault hasHandle lossless_bool trivial (by simp) fun _ _ => trivial))
    (.optional passthrough PassthroughSource.lossless (fun _ => rfl)
      (fun _ => subset_append_right _ _) (fun _ none => by simp [entryOf, none])
      fun _ valid => valid.2.2)) ?distinct fun _ => rfl
  case valid =>
    exact fun id small label _ type validType _ _ source validSource =>
      ⟨small, validType, validSource⟩
  case distinct =>
    intro o
    cases o.passthrough <;> simp [entryOf]

end OutputSchema

namespace Condition

mutual
/-- The numbers of inputs have 32 bits, and values and expressions are valid. -/
def Valid : Condition → Prop
  | .and items | .or items => ValidItems items
  | .not condition => Valid condition
  | .oneOf input values => input < 2 ^ 32 ∧ ∀ value ∈ values, value.Valid
  | .hasType input condition _ => input < 2 ^ 32 ∧ condition.Valid
/-- All items are valid. -/
def ValidItems : List Condition → Prop
  | [] => True
  | c :: rest => Valid c ∧ ValidItems rest
end

theorem validItems_iff {items : List Condition} : ValidItems items ↔ ∀ c ∈ items, c.Valid := by
  induction items with
  | nil => simp [ValidItems]
  | cons c rest ih => simp [ValidItems, ih]

theorem encodeItems_eq (items : List Condition) : encodeItems items = items.map encode := by
  induction items with
  | nil => rfl
  | cons c rest ih => rw [encodeItems, ih, map_cons]

theorem gives_decoderAt (levels : Nat) : (decoderAt levels).Gives Valid := by
  induction levels with
  | zero =>
    intro v _ c decoded
    cases decoded
  | succ levels ih =>
    refine gives_tagged ?_
    simp only [forall_mem_cons]
    refine ⟨?and, ?or, ?not, ?oneOf, ?hasType, forall_mem_nil _⟩
    case and =>
      exact Fields.Gives.map (.required ih.list) fun items valid => validItems_iff.mpr valid
    case or =>
      exact Fields.Gives.map (.required ih.list) fun items valid => validItems_iff.mpr valid
    case not => exact Fields.Gives.map (.required ih) fun c valid => valid
    case oneOf =>
      refine Fields.Gives.seq (.map (.required gives_id) ?_)
        (.required Literal.lossless.gives.list)
      exact fun input small values valid => ⟨small, valid⟩
    case hasType =>
      refine Fields.Gives.seq (.seq (.map (.required gives_id) ?_)
        (.required Expr.lossless.gives)) (.withDefault (gives_true _) trivial)
      exact fun input small condition valid _ _ => ⟨small, valid⟩

/-- The conditions right inside a condition. -/
def children : Condition → List Condition
  | .and items | .or items => items
  | .not condition => [condition]
  | _ => []

theorem Valid.child {c child : Condition} (valid : c.Valid) (mem : child ∈ c.children) :
    child.Valid := by
  cases c with
  | and items => exact validItems_iff.mp valid child mem
  | or items => exact validItems_iff.mp valid child mem
  | not condition =>
    rw [mem_singleton.mp mem]
    exact valid
  | _ => cases mem

theorem decoderOver_encode {part : Decoder Condition} {place : Place} {c : Condition}
    (valid : c.Valid)
    (reads : ∀ child ∈ c.children, part (.value .aside child.encode) = .ok child) :
    decoderOver part (.value place c.encode) = .ok c := by
  cases c with
  | and items =>
    rw [encode, encodeItems_eq]
    refine tagged_fields rfl (by simp) (.map ?_)
    exact Fields.finds_of_mem (by simp) (by simp) (Decoder.list_encoded reads)
  | or items =>
    rw [encode, encodeItems_eq]
    refine tagged_fields rfl (by simp) (.map ?_)
    exact Fields.finds_of_mem (by simp) (by simp) (Decoder.list_encoded reads)
  | not condition =>
    rw [encode]
    refine tagged_fields rfl (by simp) (.map ?_)
    exact Fields.finds_of_mem (by simp) (by simp) (reads condition mem_cons_self)
  | oneOf input values =>
    rw [encode]
    refine tagged_fields rfl (by simp) (.map₂ ?_ ?_)
    · exact lossless_id.finds (by simp) (by simp) valid.1
    · exact Literal.lossless.list.finds (by simp) (by simp) valid.2
  | hasType input condition ifNotConnected =>
    rw [encode]
    refine tagged_fields rfl (by simp) (.seq (.map₂ ?_ ?_) ?_)
    · exact lossless_id.finds (by simp) (by simp) valid.1
    · exact Expr.lossless.finds (by simp) (by simp) valid.2
    · exact lossless_bool.finds (by simp) (by simp) trivial

theorem depth_encode_lt {c child : Condition} (mem : child ∈ c.children) :
    child.encode.depth < c.encode.depth := by
  cases c with
  | and items | or items =>
    have mem : child ∈ items := mem
    rw [encode, encodeItems_eq]
    exact (Expr.depth_lt_array mem).trans (Expr.depth_lt_encodeAs (by simp))
  | not condition =>
    rw [mem_singleton.mp mem, encode]
    exact Expr.depth_lt_encodeAs (by simp)
  | _ => cases mem

theorem decoderAt_encode {levels : Nat} {c : Condition} (place : Place) (valid : c.Valid)
    (deep : c.encode.depth < levels) : decoderAt levels (.value place c.encode) = .ok c := by
  induction levels generalizing c place with
  | zero => exact absurd deep (Nat.not_lt_zero _)
  | succ levels ih =>
    refine decoderOver_encode valid fun child mem => ih .aside (valid.child mem) ?_
    have inside := depth_encode_lt mem
    omega

theorem storable_encode {c : Condition} (valid : c.Valid) : c.encode.Storable := by
  induction size : c.encode.depth using Nat.strongRecOn generalizing c with
  | ind depth ih =>
    have inner : ∀ child ∈ c.children, child.encode.Storable := fun child mem =>
      ih _ (size ▸ depth_encode_lt mem) (valid.child mem) rfl
    cases c with
    | and items | or items =>
      have list : (Json.array (encodeItems items)).Storable := by
        rw [encodeItems_eq, Json.storable_array]
        exact forall_mem_map.mpr inner
      simpa [encode, Expr.encodeAs, Json.storable_object] using list
    | not condition =>
      simpa [encode, Expr.encodeAs, Json.storable_object] using inner condition mem_cons_self
    | oneOf input values =>
      simpa [encode, Expr.encodeAs, Json.storable_object] using
        ⟨lossless_id.storable input valid.1, Literal.lossless.list.storable values valid.2⟩
    | hasType input condition ifNotConnected =>
      simpa [encode, Expr.encodeAs, Json.storable_object] using
        ⟨lossless_id.storable input valid.1, Expr.storable_encode valid.2⟩

theorem lossless : decoder.Lossless encode Valid where
  gives v := gives_decoderAt (v.depth + 1) v
  reads _ valid place := decoderAt_encode place valid (Nat.lt_succ_self _)
  storable _ valid := storable_encode valid

end Condition

namespace GroupKind

/-- The condition is valid. -/
def Valid : GroupKind → Prop
  | ordinary => True
  | conditional condition | required condition => condition.Valid

theorem lossless : decoder.Lossless (fun kind => .object kind.entries) Valid where
  gives := by
    refine gives_tagged ?_
    simp only [forall_mem_cons]
    exact ⟨trivial, .map (.required Condition.lossless.gives) fun _ valid => valid,
      .map (.required Condition.lossless.gives) fun _ valid => valid, forall_mem_nil _⟩
  reads := by
    intro kind valid place
    cases kind with
    | ordinary => exact Decoder.tagged_nothing rfl
    | conditional condition | required condition =>
      refine tagged_fields rfl (by simp) (.map ?_)
      exact Condition.lossless.finds (by simp) (by simp) valid
  storable := by
    intro kind valid
    cases kind with
    | ordinary => simp [entries, Json.storable_object]
    | conditional condition | required condition =>
      simpa [entries, Json.storable_object] using Condition.lossless.storable condition valid

end GroupKind

namespace LayoutItem

mutual
/-- The numbers of inputs have 32 bits, and the kinds of groups are valid. -/
def Valid : LayoutItem → Prop
  | .input id => id < 2 ^ 32
  | .group kind items => kind.Valid ∧ ValidItems items
/-- All items are valid. -/
def ValidItems : List LayoutItem → Prop
  | [] => True
  | item :: rest => Valid item ∧ ValidItems rest
end

theorem validItems_iff {items : List LayoutItem} :
    ValidItems items ↔ ∀ item ∈ items, item.Valid := by
  induction items with
  | nil => simp [ValidItems]
  | cons item rest ih => simp [ValidItems, ih]

theorem encodeItems_eq (items : List LayoutItem) : encodeItems items = items.map encode := by
  induction items with
  | nil => rfl
  | cons item rest ih => rw [encodeItems, ih, map_cons]

end LayoutItem

namespace Group

/-- The group is valid as an item. -/
def Valid (g : Group) : Prop := (LayoutItem.group g.kind g.items).Valid

theorem encode_eq (g : Group) :
    g.encode = .object (g.kind.entries ++ [("items", .array (g.items.map LayoutItem.encode))]) := by
  rw [encode, LayoutItem.encode, LayoutItem.encodeItems_eq]

variable {item : Decoder LayoutItem} {g : Group}

theorem gives_decoderOver (gives : item.Gives LayoutItem.Valid) :
    (decoderOver item).Gives Valid := by
  intro v exact g decoded
  have layered := Input.layer_exact exact
  unfold decoderOver at decoded
  split at decoded
  · next parts flaw layer =>
    rw [layer] at layered
    obtain ⟨⟨items, rest⟩, found, decoded⟩ := bind_eq_ok_iff.mp decoded
    obtain ⟨kind, ofRest, decoded⟩ := bind_eq_ok_iff.mp decoded
    obtain rfl := Except.ok.inj decoded
    obtain ⟨kept, named⟩ := Fields.ofObject_eq_ok.mp found
    have exactRest := Json.exact_object.mpr (Fields.others_exact layered kept)
    have fields : (Fields.withDefault "items" [] (Decoder.list item)).Gives fun items =>
        ∀ item ∈ items, item.Valid := .withDefault gives.list (forall_mem_nil _)
    exact ⟨GroupKind.lossless.gives (.value .aside (.object rest)) exactRest kind
      (Decoder.aside_eq_ok.mp ofRest),
      LayoutItem.validItems_iff.mpr (fields.ofEntries parts layered 0 items named)⟩
  · cases decoded

/-- The keys of a group, of which the last one is that of its items. -/
theorem distinct_keys (kind : GroupKind) (items : Json) :
    ((kind.entries ++ [("items", items)]).map (·.1)).Nodup := by
  cases kind <;> simp [GroupKind.entries]

/-- Items are found under their name, and all the rest belongs to the kind. -/
theorem decoderOver_encode {place : Place} (valid : g.Valid)
    (reads : ∀ part ∈ g.items, item (.value place part.encode) = .ok part) :
    decoderOver item (.value place g.encode) = .ok g := by
  rw [encode_eq]
  have whole : ∀ j, Input.whole (.value place j) = .ok j := fun _ => rfl
  have kept := Fields.others_encoded whole ["items"]
    (g.kind.entries ++ [("items", .array (g.items.map LayoutItem.encode))]) 0
  have rest : (g.kind.entries ++ [("items", Json.array (g.items.map LayoutItem.encode))]).filter
      (·.1 ∉ ["items"]) = g.kind.entries := by
    cases g.kind <;> simp [GroupKind.entries]
  rw [rest, map_id'] at kept
  have items : (Fields.withDefault "items" [] (Decoder.list item)).Finds (Input.entriesOf place
      (g.kind.entries ++ [("items", .array (g.items.map LayoutItem.encode))])) g.items :=
    Fields.finds_of_mem (distinct_keys _ _) (by simp) (Decoder.list_encoded reads)
  have found := Fields.ofObject_eq_ok.mpr ⟨kept, items 0⟩
  have kind := Decoder.aside_eq_ok.mpr (GroupKind.lossless.reads g.kind valid.1 .aside)
  simp only [decoderOver, Input.layer_object, found]
  exact bind_eq_ok_iff.mpr ⟨_, rfl, bind_eq_ok_iff.mpr ⟨g.kind, kind, rfl⟩⟩

theorem storable_encode (valid : g.Valid)
    (inner : ∀ item ∈ g.items, item.encode.Storable) : g.encode.Storable := by
  rw [encode_eq, Json.storable_object]
  have kind := (Json.storable_object.mp (GroupKind.lossless.storable g.kind valid.1)).2
  refine ⟨distinct_keys _ _, forall_mem_append.mpr ⟨kind, forall_mem_singleton.mpr ?_⟩⟩
  exact Json.storable_array.mpr (forall_mem_map.mpr inner)

theorem depth_encode_lt {item : LayoutItem} (mem : item ∈ g.items) :
    item.encode.depth < g.encode.depth := by
  have outer : (Json.array (g.items.map LayoutItem.encode)).depth < g.encode.depth := by
    rw [encode_eq]
    exact Json.depth_lt_of_mem_children (by simp [Json.children])
  exact (Expr.depth_lt_array mem).trans outer

end Group

namespace LayoutItem

theorem gives_decoderAt (levels : Nat) : (decoderAt levels).Gives Valid := by
  induction levels with
  | zero =>
    intro v _ item decoded
    cases decoded
  | succ levels ih =>
    refine Gives.firstOf ?_
    simp only [forall_mem_cons]
    exact ⟨gives_id.map fun _ small => small,
      (Group.gives_decoderOver ih).map fun _ valid => valid, forall_mem_nil _⟩

theorem decoderAt_encode {levels : Nat} {item : LayoutItem} (place : Place) (valid : item.Valid)
    (deep : item.encode.depth < levels) :
    decoderAt levels (.value place item.encode) = .ok item := by
  induction levels generalizing item place with
  | zero => exact absurd deep (Nat.not_lt_zero _)
  | succ levels ih =>
    cases item with
    | input id =>
      exact firstOf_here (map_eq_ok_iff.mpr ⟨id, Decoder.id_encoded valid, rfl⟩)
    | group kind items =>
      have each := validItems_iff.mp valid.2
      have read : Group.decoderOver (decoderAt levels)
          (.value .aside (Group.mk kind items).encode) = .ok ⟨kind, items⟩ := by
        refine Group.decoderOver_encode valid fun part mem => ih .aside (each part mem) ?_
        have inside : part.encode.depth < (Group.mk kind items).encode.depth :=
          Group.depth_encode_lt mem
        exact inside.trans_le (Nat.le_of_lt_succ deep)
      refine (firstOf_later rfl).trans (firstOf_here ?_)
      exact map_eq_ok_iff.mpr ⟨_, read, rfl⟩

theorem storable_encode {item : LayoutItem} (valid : item.Valid) : item.encode.Storable := by
  induction size : item.encode.depth using Nat.strongRecOn generalizing item with
  | ind depth ih =>
    cases item with
    | input id => exact Json.storable_natCast valid
    | group kind items =>
      have each := validItems_iff.mp valid.2
      refine Group.storable_encode (g := ⟨kind, items⟩) valid fun part mem => ?_
      exact ih _ (size ▸ Group.depth_encode_lt (g := ⟨kind, items⟩) mem) (each part mem) rfl

end LayoutItem

theorem Group.lossless : Group.decoder.Lossless Group.encode Group.Valid where
  gives v := Group.gives_decoderOver (LayoutItem.gives_decoderAt (v.depth + 1)) v
  reads g valid place := by
    have each := LayoutItem.validItems_iff.mp valid.2
    refine Group.decoderOver_encode valid fun part mem => ?_
    refine LayoutItem.decoderAt_encode place (each part mem) ?_
    exact (Group.depth_encode_lt mem).trans (Nat.lt_succ_self _)
  storable g valid := LayoutItem.storable_encode valid

namespace NodeSchema

/-- Inputs, outputs and groups are valid. -/
def Valid (s : NodeSchema) : Prop :=
  (∀ i ∈ s.inputs, i.Valid) ∧ (∀ o ∈ s.outputs, o.Valid) ∧ ∀ g ∈ s.groups, g.Valid

theorem lossless : decoder.Lossless encode Valid := by
  have absent {α : Type} {P : α → Prop} := forall_mem_nil P
  refine Fields.Written.lossless (.seq (.seq (.seq (.seq (.seq (.seq (.map
    (.required id lossless_string (by simp) fun _ _ => trivial) ?valid)
    (.required name lossless_string (by simp) fun _ _ => trivial))
    (.withDefault inputs InputSchema.lossless.list absent (by simp) fun _ valid => valid.1))
    (.withDefault outputs OutputSchema.lossless.list absent (by simp) fun _ valid => valid.2.1))
    (.withDefault sideEffects lossless_bool trivial (by simp) fun _ _ => trivial))
    (.withDefault kind NodeKind.lossless trivial (by simp) fun _ _ => trivial))
    (.withDefault groups Group.lossless.list absent (by simp) fun _ valid => valid.2.2))
    (fun _ => by simp) fun _ => rfl
  exact fun id _ name _ inputs validInputs outputs validOutputs _ _ _ _ groups validGroups =>
    ⟨validInputs, validOutputs, validGroups⟩

end NodeSchema

end TypeFlow
