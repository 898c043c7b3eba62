import TypeFlow.Json.Decode
import TypeFlow.Proofs.Entries
import TypeFlow.Proofs.Json.Reading

/-!
# What decoders give

A decoder gives only values with some property when its parts do, whatever spelling of a value it
accepts: an object or a list, an absent field, a tag by name or by number. There is one rule for
each way to build a decoder. All of them are about texts and about values in memory whose numbers
have 64 bits.
-/

namespace TypeFlow

open List

/-- A text, or a value in memory whose numbers have 64 bits. -/
def Input.Exact : Input → Prop
  | text _ _ _ => True
  | value _ j => j.Exact

/-- The numbers in the value of an entry have 64 bits. -/
def Entry.Exact (entry : Entry) : Prop := ∀ v, entry.value = .ok v → v.Exact

/-- The numbers in the parts of a layer have 64 bits. -/
def Layer.Exact : Layer → Prop
  | scalar j => j.Exact
  | items parts _ => ∀ v ∈ parts, v.Exact
  | entries parts _ => ∀ entry ∈ parts, entry.Exact
  | flawed _ => True

namespace Input

/-- The entries of an object in memory. -/
def entriesOf (place : Place) (es : List (String × Json)) : List Entry :=
  es.map fun entry => ⟨.known entry.1, .ok (.value place entry.2)⟩

theorem layer_object (place : Place) (es : List (String × Json)) :
    (value place (.object es)).layer = .entries (entriesOf place es) none := rfl

theorem layerOfText_exact (size levels : Nat) (cs : List Char) :
    (layerOfText size levels cs).Exact := by
  unfold layerOfText
  split
  · trivial
  · trivial
  · intro v mem
    obtain ⟨front, -, rfl⟩ := mem_map.mp mem
    trivial
  · intro entry mem v value
    obtain ⟨front, -, rfl⟩ := mem_map.mp mem
    obtain ⟨name, -, value⟩ := bind_eq_ok_iff.mp value
    obtain ⟨rest, -, value⟩ := bind_eq_ok_iff.mp value
    obtain rfl := Except.ok.inj value
    trivial
  · split
    · next read => exact Json.Reader.scalar_exact read
    · trivial

theorem layer_exact {v : Input} (exact : v.Exact) : v.layer.Exact := by
  cases v with
  | text size levels cs => exact layerOfText_exact size levels cs
  | value place j =>
    cases j with
    | array items =>
      intro v mem
      obtain ⟨j, inItems, rfl⟩ := mem_map.mp mem
      exact Json.exact_array.mp exact j inItems
    | object es =>
      rw [layer_object]
      intro entry mem v value
      obtain ⟨e, inEntries, rfl⟩ := mem_map.mp mem
      obtain rfl := Except.ok.inj value
      exact Json.exact_object.mp exact e inEntries
    | _ => exact exact

theorem whole_exact {v : Input} (exact : v.Exact) {j : Json} (whole : v.whole = .ok j) :
    j.Exact := by
  cases v with
  | text size levels cs =>
    obtain ⟨found, read, rfl⟩ := map_eq_ok_iff.mp whole
    exact Json.Reader.value_exact read
  | value place i =>
    obtain rfl := Except.ok.inj whole
    exact exact

end Input

namespace Decoder

variable {α β : Type} {P : α → Prop} {Q : β → Prop} {decoder : Decoder α}

theorem below_eq_ok {step : Step} {x : Except DecodeError α} {a : α} :
    below step x = .ok a ↔ x = .ok a := mapError_eq_ok_iff

theorem sound_eq_ok {x : Except Flaw α} {a : α} : sound x = .ok a ↔ x = .ok a := mapError_eq_ok_iff

theorem aside_eq_ok {j : Json} {a : α} :
    aside decoder j = .ok a ↔ decoder (.value .aside j) = .ok a := mapError_eq_ok_iff

theorem valueOf_eq_ok {name : String} {entry : Entry} {a : α} :
    valueOf decoder name entry = .ok a ↔ ∃ v, entry.value = .ok v ∧ decoder v = .ok a := by
  simp only [valueOf, bind_eq_ok_iff, sound_eq_ok, below_eq_ok]

/-- All that is decoded has a property. -/
def Gives (decoder : Decoder α) (P : α → Prop) : Prop :=
  ∀ v, v.Exact → ∀ a, decoder v = .ok a → P a

theorem gives_true (decoder : Decoder α) : decoder.Gives fun _ => True := fun _ _ _ _ => trivial

theorem Gives.map {f : α → β} (gives : decoder.Gives P)
    (keeps : ∀ a, P a → Q (f a)) : (decoder.map f).Gives Q := by
  intro v exact b decoded
  obtain ⟨a, found, rfl⟩ := map_eq_ok_iff.mp decoded
  exact keeps a (gives v exact a found)

theorem Gives.refine {f : α → Except Issue β} (gives : decoder.Gives P)
    (keeps : ∀ a, P a → ∀ b, f a = .ok b → Q b) : (decoder.refine f).Gives Q := by
  intro v exact b decoded
  obtain ⟨a, found, refined⟩ := bind_eq_ok_iff.mp decoded
  exact keeps a (gives v exact a found) b (mapError_eq_ok_iff.mp refined)

theorem gives_number :
    number.Gives fun w => w.value.isFinite = true ∧ w.value.IsDouble := by
  intro v exact w decoded
  have layered := Input.layer_exact exact
  unfold number at decoded
  split at decoded
  · next layer =>
    obtain rfl := Except.ok.inj decoded
    rw [layer] at layered
    obtain ⟨low, high⟩ := (Json.everywhere_iff.mp layered).1
    exact ⟨Num.isFinite_ofRat_intCast low high, Num.isDouble_ofRat _⟩
  · next layer =>
    obtain rfl := Except.ok.inj decoded
    rw [layer] at layered
    exact (Json.everywhere_iff.mp layered).1
  · cases decoded

theorem idOf_lt {n : Int} {id : Nat} (accepted : idOf n = .ok id) : id < 2 ^ 32 := by
  unfold idOf at accepted
  split at accepted
  · obtain rfl := Except.ok.inj accepted
    omega
  · cases accepted

theorem gives_id : id.Gives (· < 2 ^ 32) := by
  intro v _ n decoded
  unfold id at decoded
  split at decoded
  · exact idOf_lt (mapError_eq_ok_iff.mp decoded)
  · cases decoded

theorem Gives.nullable (gives : decoder.Gives P) :
    (nullable decoder).Gives fun found => ∀ a ∈ found, P a := by
  intro v exact found decoded
  unfold Decoder.nullable at decoded
  split at decoded
  · obtain rfl := Except.ok.inj decoded
    exact fun _ none => by cases none
  · obtain ⟨a, here, rfl⟩ := map_eq_ok_iff.mp decoded
    exact fun b same => Option.some.inj same ▸ gives v exact a here

theorem Gives.items (gives : decoder.Gives P) {position : Nat}
    {vs : List Input} (exact : ∀ v ∈ vs, v.Exact) {as : List α}
    (decoded : items decoder position vs = .ok as) : ∀ a ∈ as, P a := by
  induction vs generalizing position as with
  | nil =>
    obtain rfl := Except.ok.inj decoded
    exact fun _ mem => by cases mem
  | cons v rest ih =>
    obtain ⟨here, later⟩ := forall_mem_cons.mp exact
    rw [Decoder.items, bind_eq_ok_iff] at decoded
    obtain ⟨a, first, decoded⟩ := decoded
    obtain ⟨others, found, decoded⟩ := bind_eq_ok_iff.mp decoded
    obtain rfl := Except.ok.inj decoded
    exact forall_mem_cons.mpr ⟨gives v here a (below_eq_ok.mp first), ih later found⟩

theorem Gives.list (gives : decoder.Gives P) :
    (list decoder).Gives fun as => ∀ a ∈ as, P a := by
  intro v exact as decoded
  have layered := Input.layer_exact exact
  unfold Decoder.list at decoded
  split at decoded
  · next parts flaw layer =>
    rw [layer] at layered
    obtain ⟨bs, found, decoded⟩ := bind_eq_ok_iff.mp decoded
    obtain ⟨-, -, decoded⟩ := bind_eq_ok_iff.mp decoded
    obtain rfl := Except.ok.inj decoded
    exact gives.items layered found
  · cases decoded

/-- Keys are distinct from one another and from those seen before. -/
theorem Gives.distinctEntries (gives : decoder.Gives P)
    {seen : List String} {parts : List Entry} (exact : ∀ entry ∈ parts, entry.Exact)
    {as : List (String × α)} (decoded : distinctEntries decoder seen parts = .ok as) :
    (∀ a ∈ as, P a.2) ∧ (as.map (·.1)).Nodup ∧ ∀ name ∈ seen, name ∉ as.map (·.1) := by
  induction parts generalizing seen as with
  | nil =>
    obtain rfl := Except.ok.inj decoded
    simp
  | cons entry rest ih =>
    obtain ⟨here, later⟩ := forall_mem_cons.mp exact
    rw [Decoder.distinctEntries, bind_eq_ok_iff] at decoded
    obtain ⟨name, -, decoded⟩ := decoded
    obtain ⟨a, found, decoded⟩ := bind_eq_ok_iff.mp decoded
    obtain ⟨v, value, first⟩ := valueOf_eq_ok.mp found
    split at decoded
    · cases decoded
    · next fresh =>
      obtain ⟨others, found, decoded⟩ := bind_eq_ok_iff.mp decoded
      obtain rfl := Except.ok.inj decoded
      obtain ⟨each, nodup, apart⟩ := ih later found
      obtain ⟨apartName, apartSeen⟩ := forall_mem_cons.mp apart
      refine ⟨forall_mem_cons.mpr ⟨gives v (here v value) a first, each⟩,
        nodup_cons.mpr ⟨apartName, nodup⟩, fun n mem again => ?_⟩
      rcases mem_cons.mp again with same | other
      · have same : n = name := same
        exact fresh (same ▸ mem)
      · exact apartSeen n mem other

theorem Gives.entries (gives : decoder.Gives P) :
    (entries decoder).Gives fun as => (∀ a ∈ as, P a.2) ∧ (as.map (·.1)).Nodup := by
  intro v exact as decoded
  have layered := Input.layer_exact exact
  unfold Decoder.entries at decoded
  split at decoded
  · next parts flaw layer =>
    rw [layer] at layered
    obtain ⟨bs, found, decoded⟩ := bind_eq_ok_iff.mp decoded
    obtain ⟨-, -, decoded⟩ := bind_eq_ok_iff.mp decoded
    obtain rfl := Except.ok.inj decoded
    obtain ⟨each, nodup, -⟩ := gives.distinctEntries layered found
    exact ⟨each, nodup⟩
  · cases decoded

/-- A repeated key replaces its value, so that the keys stay distinct. -/
theorem Gives.keyedEntries {κ : Type} [DecidableEq κ] {key : Key → Except DecodeError κ}
    {K : κ → Prop} (keys : ∀ name k, key name = .ok k → K k) {keyText : κ → String}
    (gives : decoder.Gives P) {seen : List (κ × α)}
    (before : (∀ a ∈ seen, K a.1 ∧ P a.2) ∧ (seen.map (·.1)).Nodup) {parts : List Entry}
    (exact : ∀ entry ∈ parts, entry.Exact) {as : List (κ × α)}
    (decoded : keyedEntries key keyText decoder seen parts = .ok as) :
    (∀ a ∈ as, K a.1 ∧ P a.2) ∧ (as.map (·.1)).Nodup := by
  induction parts generalizing seen with
  | nil =>
    obtain rfl := Except.ok.inj decoded
    exact before
  | cons entry rest ih =>
    obtain ⟨here, later⟩ := forall_mem_cons.mp exact
    obtain ⟨k, named, decoded⟩ := bind_eq_ok_iff.mp decoded
    obtain ⟨a, found, decoded⟩ := bind_eq_ok_iff.mp decoded
    obtain ⟨v, value, first⟩ := valueOf_eq_ok.mp found
    refine ih ⟨fun b mem => ?_, nodup_keys_setEntry before.2⟩ later decoded
    rcases eq_or_mem_of_mem_setEntry mem with rfl | old
    · exact ⟨keys _ k named, gives v (here v value) a first⟩
    · exact before.1 b old

theorem Gives.mapOf {κ : Type} [DecidableEq κ] {key : Key → Except DecodeError κ}
    {K : κ → Prop} (keys : ∀ name k, key name = .ok k → K k) {keyText : κ → String}
    (gives : decoder.Gives P) :
    (mapOf key keyText decoder).Gives fun as =>
      (∀ a ∈ as, K a.1 ∧ P a.2) ∧ (as.map (·.1)).Nodup := by
  intro v exact as decoded
  have layered := Input.layer_exact exact
  unfold Decoder.mapOf at decoded
  split at decoded
  · next parts flaw layer =>
    rw [layer] at layered
    obtain ⟨bs, found, decoded⟩ := bind_eq_ok_iff.mp decoded
    obtain ⟨-, -, decoded⟩ := bind_eq_ok_iff.mp decoded
    obtain rfl := Except.ok.inj decoded
    exact Gives.keyedEntries keys gives ⟨by simp, by simp⟩ layered found
  · cases decoded

theorem idKey_lt {key : Key} {k : Nat} (named : idKey key = .ok k) : k < 2 ^ 32 := by
  unfold idKey at named
  simp only at named
  split at named
  · obtain ⟨⟨j, rest⟩, -, named⟩ := bind_eq_ok_iff.mp named
    split at named
    · obtain ⟨n, accepted, named⟩ := bind_eq_ok_iff.mp named
      obtain ⟨-, -, named⟩ := bind_eq_ok_iff.mp named
      obtain rfl := Except.ok.inj named
      exact idOf_lt (mapError_eq_ok_iff.mp (below_eq_ok.mp accepted))
    · cases named
  · cases named

theorem Gives.numbered (gives : decoder.Gives P) :
    (numbered decoder).Gives fun as =>
      (∀ a ∈ as, a.1 < 2 ^ 32 ∧ P a.2) ∧ (as.map (·.1)).Nodup :=
  Gives.mapOf (fun _ _ => idKey_lt) gives

theorem Gives.firstOf {title : String} {forms : List (Decoder α)}
    (gives : ∀ form ∈ forms, form.Gives P) : (firstOf title forms).Gives P := by
  intro v exact a decoded
  obtain ⟨j, whole, decoded⟩ := bind_eq_ok_iff.mp decoded
  have exactWhole : (Input.value .aside j).Exact := Input.whole_exact exact (sound_eq_ok.mp whole)
  split at decoded
  · next found =>
    obtain rfl := Except.ok.inj decoded
    obtain ⟨form, mem, fits⟩ := exists_of_findSome?_eq_some found
    exact gives form mem _ exactWhole _ (eq_ok_of_toOption fits)
  · cases decoded

end Decoder

namespace Fields

variable {α β : Type} {P : α → Prop} {Q : β → Prop}

/-- All that is found has a property, by name or by position. -/
structure Gives (fields : Fields α) (P : α → Prop) : Prop where
  ofEntries : ∀ parts, (∀ entry ∈ parts, Entry.Exact entry) → ∀ first a,
    fields.ofEntries parts first = .ok a → P a
  ofItems : ∀ parts, (∀ v ∈ parts, Input.Exact v) → ∀ first a,
    fields.ofItems parts first = .ok a → P a

theorem both_eq_ok {f : Except Fault (α → β)} {x : Except Fault α} {b : β} :
    both f x = .ok b ↔ ∃ g a, f = .ok g ∧ x = .ok a ∧ g a = b := by
  cases f <;> cases x <;> simp [both]

variable {x fields : Fields α} {position : Nat} {flaw : Option Flaw}

theorem Gives.seq {f : Fields (α → β)} (gives : f.Gives fun g => ∀ a, P a → Q (g a))
    (argument : x.Gives P) : (f <*> x).Gives Q where
  ofEntries := by
    intro parts exact first b found
    obtain ⟨g, a, function, value, rfl⟩ := both_eq_ok.mp found
    exact gives.ofEntries parts exact _ g function a (argument.ofEntries parts exact _ a value)
  ofItems := by
    intro parts exact first b found
    obtain ⟨g, a, function, value, rfl⟩ := both_eq_ok.mp found
    exact gives.ofItems parts exact _ g function a (argument.ofItems parts exact _ a value)

theorem Gives.map {f : α → β} (argument : x.Gives P)
    (keeps : ∀ a, P a → Q (f a)) : (f <$> x).Gives Q := by
  have function : (pure f : Fields (α → β)).Gives fun g => ∀ a, P a → Q (g a) := by
    constructor <;>
    · intro _ _ _ g found
      obtain rfl := Except.ok.inj found
      exact keeps
  exact function.seq argument

variable {name : String} {parts : List Entry}

theorem mem_of_locate {entry : Entry}
    (mem : (position, entry) ∈ locate name parts) : entry ∈ parts := by
  obtain ⟨⟨e, i⟩, inParts, located⟩ := mem_filterMap.mp mem
  simp only [Option.ite_none_right_eq_some, Option.some.injEq, Prod.mk.injEq] at located
  obtain ⟨-, -, rfl⟩ := located
  exact fst_mem_of_mem_zipIdx inParts

theorem Gives.field {default : Option α} {decoder : Decoder α} (gives : decoder.Gives P)
    (absent : ∀ a ∈ default, P a) :
    (field name default decoder).Gives P where
  ofEntries := by
    intro parts exact first a found
    simp only [Fields.field] at found
    split at found
    · cases default with
      | none => cases found
      | some b =>
        obtain rfl := Except.ok.inj found
        exact absent b rfl
    · next located =>
      split at found
      · cases found
      · next value =>
        obtain rfl := Except.ok.inj found
        obtain ⟨v, inEntry, decoded⟩ := Decoder.valueOf_eq_ok.mp value
        have mem := mem_of_locate (located ▸ mem_cons_self)
        exact gives v (exact _ mem v inEntry) _ decoded
      · cases found
  ofItems := by
    intro parts exact first a found
    simp only [Fields.field] at found
    split at found
    · cases default with
      | none => cases found
      | some b =>
        obtain rfl := Except.ok.inj found
        exact absent b rfl
    · next v item =>
      have decoded := Decoder.below_eq_ok.mp (mapError_eq_ok_iff.mp found)
      exact gives v (exact v (mem_of_getElem? item)) a decoded

theorem Gives.required {decoder : Decoder α} (gives : decoder.Gives P) :
    (required name decoder).Gives P :=
  .field gives fun _ none => by cases none

theorem Gives.withDefault {default : α} {decoder : Decoder α} (gives : decoder.Gives P)
    (absent : P default) : (withDefault name default decoder).Gives P :=
  .field gives fun _ some => Option.some.inj some ▸ absent

theorem Gives.optional {decoder : Decoder α} (gives : decoder.Gives P) :
    (optional name decoder).Gives fun found => ∀ a ∈ found, P a :=
  .withDefault gives.nullable fun _ none => by cases none

theorem ofObject_eq_ok {keep : Input → Except Flaw β} {a : α} {kept : List (String × β)} :
    fields.ofObject keep parts flaw = .ok (a, kept) ↔
      others keep fields.names flaw 0 parts = .ok kept ∧ fields.ofEntries parts 0 = .ok a := by
  unfold ofObject
  rw [mapError_eq_ok_iff, both_eq_ok]
  cases others keep fields.names flaw 0 parts <;> simp [Except.map, and_comm]

theorem Gives.decoder {title : String} (gives : fields.Gives P) :
    (fields.decoder title).Gives P := by
  intro v exact a decoded
  have layered := Input.layer_exact exact
  unfold Fields.decoder at decoded
  split at decoded
  · next parts flaw layer =>
    rw [layer] at layered
    obtain ⟨result, found, rfl⟩ := map_eq_ok_iff.mp decoded
    exact gives.ofEntries parts layered 0 _ (ofObject_eq_ok.mp found).2
  · next parts flaw layer =>
    rw [layer] at layered
    obtain ⟨b, found, decoded⟩ := bind_eq_ok_iff.mp decoded
    split at decoded
    · cases decoded
    · obtain ⟨-, -, decoded⟩ := bind_eq_ok_iff.mp decoded
      obtain rfl := Except.ok.inj decoded
      exact gives.ofItems parts layered 0 _ (mapError_eq_ok_iff.mp found)
  · cases decoded

/-- The numbers in what is set aside of an object have 64 bits. -/
theorem others_exact {names : List String} (exact : ∀ entry ∈ parts, entry.Exact)
    {kept : List (String × Json)}
    (found : others Input.whole names flaw position parts = .ok kept) :
    ∀ entry ∈ kept, entry.2.Exact := by
  induction parts generalizing position kept with
  | nil =>
    obtain ⟨-, -, rfl⟩ := map_eq_ok_iff.mp (mapError_eq_ok_iff.mp found)
    exact fun _ mem => by cases mem
  | cons entry rest ih =>
    obtain ⟨here, later⟩ := forall_mem_cons.mp exact
    rw [others, bind_eq_ok_iff] at found
    obtain ⟨name, -, found⟩ := found
    split at found
    · exact ih later found
    · obtain ⟨j, value, found⟩ := bind_eq_ok_iff.mp found
      obtain ⟨v, inEntry, whole⟩ := Decoder.valueOf_eq_ok.mp (mapError_eq_ok_iff.mp value)
      obtain ⟨rest, ended, found⟩ := bind_eq_ok_iff.mp found
      obtain rfl := Except.ok.inj found
      have first := Input.whole_exact (here v inEntry) (Decoder.sound_eq_ok.mp whole)
      exact forall_mem_cons.mpr ⟨first, ih later ended⟩

end Fields

/-- All that a content stands for has a property. -/
def Content.Gives {α : Type} (P : α → Prop) : Content α → Prop
  | .nothing a => P a
  | .fields _ parts => parts.Gives P

namespace Decoder

variable {α : Type} {P : α → Prop}

theorem gives_content {content : Content α} (gives : content.Gives P) :
    (Decoder.content content).Gives P := by
  cases content with
  | fields title fields => exact Fields.Gives.decoder gives
  | nothing a =>
    intro v _ b decoded
    simp only [Decoder.content] at decoded
    split at decoded
    · cases decoded
    · obtain rfl := Except.ok.inj decoded
      exact gives

variable {variants : List (Variant α)} {variant : Variant α}

theorem mem_of_variantOf {name : String}
    (found : variantOf variants name = .ok variant) : variant ∈ variants := by
  unfold variantOf at found
  split at found
  · next first =>
    obtain rfl := Except.ok.inj found
    exact mem_of_find?_eq_some first
  · cases found

theorem mem_of_variantAt {n : Int}
    (found : variantAt variants n = .ok variant) : variant ∈ variants := by
  unfold variantAt at found
  split at found
  · cases found
  · split at found
    · next there =>
      obtain rfl := Except.ok.inj found
      exact mem_of_getElem? there
    · cases found

theorem gives_tag (variants : List (Variant α)) : (tag variants).Gives (· ∈ variants) := by
  intro v _ variant decoded
  unfold tag at decoded
  split at decoded
  · exact mem_of_variantAt decoded
  · split at decoded
    · exact mem_of_variantOf decoded
    · cases decoded

theorem gives_whole : Gives (fun v => sound v.whole) Json.Exact :=
  fun _ exact _ decoded => Input.whole_exact exact (sound_eq_ok.mp decoded)

theorem gives_tagged {key title : String} (gives : ∀ variant ∈ variants, variant.content.Gives P) :
    (tagged key title variants).Gives P := by
  intro v exact a decoded
  have layered := Input.layer_exact exact
  -- the content is decoded from what is set aside, whatever that is
  have finish : ∀ variant ∈ variants, ∀ j : Json, j.Exact →
      aside (content variant.content) j = .ok a → P a := by
    intro variant mem j exactRest rest
    exact gives_content (gives variant mem) (.value .aside j) exactRest a (aside_eq_ok.mp rest)
  unfold tagged at decoded
  split at decoded
  · next parts flaw layer =>
    rw [layer] at layered
    obtain ⟨⟨variant, rest⟩, found, decoded⟩ := bind_eq_ok_iff.mp decoded
    obtain ⟨kept, named⟩ := Fields.ofObject_eq_ok.mp found
    have mem := (Fields.Gives.required (gives_tag variants)).ofEntries parts layered 0 _ named
    exact finish variant mem _ (Json.exact_object.mpr (Fields.others_exact layered kept)) decoded
  · obtain ⟨-, -, decoded⟩ := bind_eq_ok_iff.mp decoded
    cases decoded
  · next first parts flaw layer =>
    rw [layer] at layered
    obtain ⟨exactFirst, exactRest⟩ := forall_mem_cons.mp layered
    obtain ⟨variant, named, decoded⟩ := bind_eq_ok_iff.mp decoded
    obtain ⟨rest, kept, decoded⟩ := bind_eq_ok_iff.mp decoded
    obtain ⟨-, -, decoded⟩ := bind_eq_ok_iff.mp decoded
    have mem := gives_tag variants first exactFirst variant (below_eq_ok.mp named)
    have each := gives_whole.items exactRest kept
    exact finish variant mem _ (Json.exact_array.mpr each) decoded
  · cases decoded

end Decoder
end TypeFlow
