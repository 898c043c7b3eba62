import TypeFlow.Proofs.Json.Decoding

/-!
# Reading what was written

What decoders make of the values that encoders write: lists of encoded items, and objects in which
each field is there under its own name or left out where it has a default. A tag comes first.
Together with what decoders give, this says when values are written without loss (`Lossless`).
-/

namespace TypeFlow

open List

variable {α β : Type} {place : Place}

namespace Decoder

variable {n : Nat} {j : Json} {title : String}

theorem idOf_natCast (small : n < 2 ^ 32) : idOf n = .ok n := by
  rw [idOf, if_pos (by omega), Int.toNat_natCast]

theorem id_encoded (small : n < 2 ^ 32) : id (.value place (.int n)) = .ok n := by
  have read : id (.value place (.int n)) = (idOf n).mapError .here := rfl
  rw [read, idOf_natCast small]
  rfl

variable {decoder form : Decoder α} {forms : List (Decoder α)} {encode : α → Json} {as : List α}

theorem nullable_encoded {a : α} (proper : j ≠ .null) (reads : decoder (.value place j) = .ok a) :
    nullable decoder (.value place j) = .ok (some a) := by
  cases j with
  | null => exact absurd rfl proper
  | _ => exact map_eq_ok_iff.mpr ⟨a, reads, rfl⟩

theorem firstOf_here {a : α} (reads : form (.value .aside j) = .ok a) :
    firstOf title (form :: forms) (.value place j) = .ok a := by
  refine bind_eq_ok_iff.mpr ⟨j, rfl, ?_⟩
  rw [findSome?_cons, reads]
  rfl

theorem firstOf_later (refused : (form (.value .aside j)).toOption = none) :
    firstOf title (form :: forms) (.value place j) = firstOf title forms (.value place j) := by
  have same : (form :: forms).findSome? (fun form => (form (.value .aside j)).toOption) =
      forms.findSome? fun form => (form (.value .aside j)).toOption := by
    rw [findSome?_cons, refused]
  simp only [firstOf, Input.whole, sound, Except.mapError, bind, Except.bind, same]

theorem items_encoded (reads : ∀ a ∈ as, decoder (.value place (encode a)) = .ok a)
    (position : Nat) : items decoder position ((as.map encode).map (.value place)) = .ok as := by
  induction as generalizing position with
  | nil => rfl
  | cons a rest ih =>
    obtain ⟨here, later⟩ := forall_mem_cons.mp reads
    simp only [map_cons, items, here, ih later]
    rfl

theorem list_encoded (reads : ∀ a ∈ as, decoder (.value place (encode a)) = .ok a) :
    list decoder (.value place (.array (as.map encode))) = .ok as := by
  simp only [list, Input.layer, items_encoded reads]
  rfl

theorem distinctEntries_encoded {as : List (String × α)}
    (reads : ∀ a ∈ as, decoder (.value place (encode a.2)) = .ok a.2)
    (distinct : (as.map (·.1)).Nodup) {seen : List String}
    (fresh : ∀ name ∈ as.map (·.1), name ∉ seen) :
    distinctEntries decoder seen
      (Input.entriesOf place (as.map fun a => (a.1, encode a.2))) = .ok as := by
  induction as generalizing seen with
  | nil => rfl
  | cons a rest ih =>
    obtain ⟨here, later⟩ := forall_mem_cons.mp reads
    obtain ⟨apart, distinct⟩ := nodup_cons.mp distinct
    obtain ⟨unseen, fresh⟩ := forall_mem_cons.mp fresh
    have tail : ∀ name ∈ rest.map (·.1), name ∉ a.1 :: seen := by
      intro name mem again
      rcases mem_cons.mp again with rfl | old
      · exact apart mem
      · exact fresh name mem old
    have value : valueOf decoder a.1 ⟨.known a.1, .ok (.value place (encode a.2))⟩ = .ok a.2 :=
      valueOf_eq_ok.mpr ⟨_, rfl, here⟩
    refine bind_eq_ok_iff.mpr ⟨a.1, rfl, bind_eq_ok_iff.mpr ⟨a.2, value, ?_⟩⟩
    rw [if_neg unseen]
    exact bind_eq_ok_iff.mpr ⟨rest, ih later distinct tail, rfl⟩

theorem entries_encoded {as : List (String × α)}
    (reads : ∀ a ∈ as, decoder (.value place (encode a.2)) = .ok a.2)
    (distinct : (as.map (·.1)).Nodup) :
    entries decoder (.value place (.object (as.map fun a => (a.1, encode a.2)))) = .ok as := by
  have found := distinctEntries_encoded reads distinct fun _ _ => not_mem_nil
  simp only [entries, Input.layer_object, found]
  rfl

theorem idKey_repr (small : n < 2 ^ 32) : idKey (.known n.repr) = .ok n := by
  have digits : keyChars (.known n.repr) = Nat.toDigits 10 n := Nat.toList_repr
  have read : Json.Reader.number (Nat.toDigits 10 n) = .ok (.int n, []) :=
    Json.Reader.number_toDigits (small.le.trans (by decide))
  have starts : ((Nat.toDigits 10 n).head?.any fun c => c.isDigit || c = '-') = true := by
    cases written : Nat.toDigits 10 n with
    | nil => exact absurd written Nat.toDigits_ne_nil
    | cons c cs =>
      have mem : c ∈ Nat.toDigits 10 n := written ▸ mem_cons_self
      simp [Nat.isDigit_of_mem_toDigits (by omega) (by omega) mem]
  simp only [idKey, digits, if_pos starts, read]
  refine bind_eq_ok_iff.mpr ⟨_, rfl, bind_eq_ok_iff.mpr ⟨n, ?_, rfl⟩⟩
  exact below_eq_ok.mpr (mapError_eq_ok_iff.mpr (idOf_natCast small))

theorem repr_inj {m n : Nat} (smallM : m < 2 ^ 32) (smallN : n < 2 ^ 32)
    (same : m.repr = n.repr) : m = n := by
  have read := idKey_repr smallM
  rw [same, idKey_repr smallN] at read
  exact (Except.ok.inj read).symm

theorem keyedEntries_encoded {κ : Type} [DecidableEq κ] {key : Key → Except DecodeError κ}
    {keyText : κ → String} {as : List (κ × α)}
    (keys : ∀ a ∈ as, key (.known (keyText a.1)) = .ok a.1)
    (reads : ∀ a ∈ as, decoder (.value place (encode a.2)) = .ok a.2) {seen : List (κ × α)}
    (distinct : ((seen ++ as).map (·.1)).Nodup) :
    keyedEntries key keyText decoder seen
      (Input.entriesOf place (as.map fun a => (keyText a.1, encode a.2))) = .ok (seen ++ as) := by
  induction as generalizing seen with
  | nil => rw [append_nil]; rfl
  | cons a rest ih =>
    obtain ⟨named, keys⟩ := forall_mem_cons.mp keys
    obtain ⟨here, later⟩ := forall_mem_cons.mp reads
    have fresh : a.1 ∉ seen.map (·.1) := by
      intro mem
      rw [map_append] at distinct
      exact disjoint_of_nodup_append distinct mem mem_cons_self
    refine bind_eq_ok_iff.mpr ⟨a.1, named, bind_eq_ok_iff.mpr ⟨a.2, ?_, ?_⟩⟩
    · exact valueOf_eq_ok.mpr ⟨_, rfl, here⟩
    · rw [setEntry_of_not_mem fresh]
      have tail : ((seen ++ [(a.1, a.2)] ++ rest).map (·.1)).Nodup := by simpa using distinct
      exact (ih keys later tail).trans (by rw [append_assoc]; rfl)

theorem numbered_encoded {as : List (Nat × α)} (small : ∀ a ∈ as, a.1 < 2 ^ 32)
    (reads : ∀ a ∈ as, decoder (.value place (encode a.2)) = .ok a.2)
    (distinct : (as.map (·.1)).Nodup) :
    numbered decoder (.value place (.object (as.map fun a => (a.1.repr, encode a.2)))) =
      .ok as := by
  have found : keyedEntries idKey Nat.repr decoder []
      (Input.entriesOf place (as.map fun a => (a.1.repr, encode a.2))) = .ok ([] ++ as) :=
    keyedEntries_encoded (fun a mem => idKey_repr (small a mem)) reads distinct
  simp only [numbered, mapOf, Input.layer_object, found]
  rfl

end Decoder

namespace Fields

open Input (entriesOf)

/-- The entries of a name with their positions, which are counted from a start on. -/
def locateFrom (start : Nat) (name : String) (entries : List Entry) : List (Nat × Entry) :=
  (entries.zipIdx start).filterMap fun pair =>
    if pair.1.key.name.toOption = some name then some (pair.2, pair.1) else none

theorem locate_eq (name : String) (entries : List Entry) :
    locate name entries = locateFrom 0 name entries := rfl

theorem locateFrom_cons (start : Nat) (name : String) (place : Place) (entry : String × Json)
    (rest : List (String × Json)) :
    locateFrom start name (entriesOf place (entry :: rest)) =
      if entry.1 = name then
        (start, ⟨.known entry.1, .ok (.value place entry.2)⟩) ::
          locateFrom (start + 1) name (entriesOf place rest)
      else locateFrom (start + 1) name (entriesOf place rest) := by
  by_cases same : entry.1 = name <;>
    simp [locateFrom, entriesOf, Key.name, Except.toOption, same]

variable {name : String} {es : List (String × Json)} {parts : List Entry}

theorem locateFrom_absent (absent : name ∉ es.map (·.1)) (start : Nat) (place : Place) :
    locateFrom start name (entriesOf place es) = [] := by
  induction es generalizing start with
  | nil => rfl
  | cons entry rest ih =>
    obtain ⟨other, absent⟩ := not_or.mp fun mem => absent (mem_cons.mpr mem)
    rw [locateFrom_cons, if_neg (Ne.symm other), ih absent]

theorem locateFrom_mem {j : Json} (distinct : (es.map (·.1)).Nodup) (mem : (name, j) ∈ es)
    (start : Nat) (place : Place) :
    ∃ position, locateFrom start name (entriesOf place es) =
      [(position, ⟨.known name, .ok (.value place j)⟩)] := by
  induction es generalizing start with
  | nil => cases mem
  | cons entry rest ih =>
    obtain ⟨apart, distinct⟩ := nodup_cons.mp distinct
    rw [locateFrom_cons]
    rcases mem_cons.mp mem with rfl | later
    · exact ⟨start, by rw [if_pos rfl, locateFrom_absent apart]⟩
    · have other : entry.1 ≠ name := by
        rintro rfl
        exact apart (mem_map_of_mem (f := (·.1)) later)
      rw [if_neg other]
      exact ih distinct later (start + 1)

/-- The fields are found in an object. -/
def Finds (fields : Fields α) (parts : List Entry) (a : α) : Prop :=
  ∀ first, fields.ofEntries parts first = .ok a

variable {x : Fields α} {a : α} {decoder : Decoder α}

theorem Finds.seq {f : Fields (α → β)} {g : α → β} (function : f.Finds parts g)
    (argument : x.Finds parts a) : (f <*> x).Finds parts (g a) :=
  fun _ => both_eq_ok.mpr ⟨g, a, function _, argument _, rfl⟩

theorem Finds.map {f : α → β} (argument : x.Finds parts a) : (f <$> x).Finds parts (f a) :=
  fun _ => both_eq_ok.mpr ⟨f, a, rfl, argument _, rfl⟩

theorem Finds.map₂ {γ : Type} {f : α → β → γ} {y : Fields β} {b : β} (first : x.Finds parts a)
    (second : y.Finds parts b) : (f <$> x <*> y).Finds parts (f a b) := first.map.seq second

theorem finds_of_mem {default : Option α} {j : Json} (distinct : (es.map (·.1)).Nodup)
    (mem : (name, j) ∈ es) (reads : decoder (.value place j) = .ok a) :
    (field name default decoder).Finds (entriesOf place es) a := by
  intro first
  obtain ⟨position, located⟩ := locateFrom_mem distinct mem 0 place
  have value : Decoder.valueOf decoder name ⟨.known name, .ok (.value place j)⟩ = .ok a :=
    Decoder.valueOf_eq_ok.mpr ⟨_, rfl, reads⟩
  simp only [field, locate_eq, located, value]

theorem finds_of_absent {default : α} (absent : name ∉ es.map (·.1)) :
    (field name (some default) decoder).Finds (entriesOf place es) default := by
  intro first
  simp only [field, locate_eq, locateFrom_absent absent]
  rfl

/-- Entries that are no fields are kept. -/
theorem others_encoded {keep : Input → Except Flaw β} {kept : Json → β}
    (keeps : ∀ j, keep (.value place j) = .ok (kept j)) (names : List String)
    (es : List (String × Json)) (position : Nat) :
    others keep names none position (entriesOf place es) =
      .ok ((es.filter (·.1 ∉ names)).map fun entry => (entry.1, kept entry.2)) := by
  induction es generalizing position with
  | nil => rfl
  | cons entry rest ih =>
    have value : Decoder.valueOf (fun v => Decoder.sound (keep v)) entry.1
        ⟨.known entry.1, .ok (.value place entry.2)⟩ = .ok (kept entry.2) :=
      Decoder.valueOf_eq_ok.mpr ⟨_, rfl, Decoder.sound_eq_ok.mpr (keeps _)⟩
    refine bind_eq_ok_iff.mpr ⟨entry.1, rfl, ?_⟩
    by_cases field : entry.1 ∈ names
    · rw [if_pos field]
      rw [filter_cons_of_neg (by simpa using field)]
      exact ih (position + 1)
    · rw [if_neg field]
      refine bind_eq_ok_iff.mpr ⟨kept entry.2, mapError_eq_ok_iff.mpr value, ?_⟩
      refine bind_eq_ok_iff.mpr ⟨_, ih (position + 1), ?_⟩
      rw [filter_cons_of_pos (by simpa using field)]
      rfl

theorem decoder_encoded (title : String) {fields : Fields α} {es : List (String × Json)}
    (finds : fields.Finds (entriesOf place es) a) :
    fields.decoder title (.value place (.object es)) = .ok a := by
  have passed : ∀ j, Input.passOver (.value place j) = .ok () := fun _ => rfl
  have found := ofObject_eq_ok.mpr ⟨others_encoded passed fields.names es 0, finds 0⟩
  simp only [decoder, Input.layer_object, found]
  rfl

end Fields

namespace Decoder

variable {variants : List (Variant α)} {name key title : String} {variant : Variant α}
  {es : List (String × Json)}

theorem tag_string (named : variants.find? (fun v => v.name = name) = some variant) :
    tag variants (.value place (.string name)) = .ok variant := by
  have found : variantOf variants name = .ok variant := by rw [variantOf, named]
  cases place <;> exact found

/-- An object whose first entry is the tag is decoded as the content without it. -/
theorem tagged_encoded
    (named : variants.find? (fun v => v.name = name) = some variant)
    (distinct : (key :: es.map (·.1)).Nodup) :
    tagged key title variants (.value place (.object ((key, .string name) :: es))) =
      aside (content variant.content) (.object es) := by
  have whole : ∀ j, Input.whole (.value place j) = .ok j := fun _ => rfl
  have kept := Fields.others_encoded whole [key] ((key, .string name) :: es) 0
  have rest : ((key, Json.string name) :: es).filter (·.1 ∉ [key]) = es := by
    rw [filter_cons_of_neg (by simp), filter_eq_self]
    intro entry mem
    have other : entry.1 ≠ key := by
      rintro rfl
      exact (nodup_cons.mp distinct).1 (mem_map_of_mem (f := (·.1)) mem)
    simpa using other
  rw [rest, map_id'] at kept
  have tag : (Fields.required key (tag variants)).Finds
      (Input.entriesOf place ((key, .string name) :: es)) variant :=
    Fields.finds_of_mem distinct mem_cons_self (tag_string named)
  have found := Fields.ofObject_eq_ok.mpr ⟨kept, tag 0⟩
  simp only [tagged, Input.layer_object, found]
  rfl

theorem tagged_nothing {a : α}
    (named : variants.find? (fun v => v.name = name) = some ⟨name, .nothing a⟩) :
    tagged key title variants (.value place (.object [(key, .string name)])) = .ok a :=
  tagged_encoded named (by simp)

theorem tagged_fields {key title name inner : String} {fields : Fields α} {a : α}
    (named : variants.find? (fun v => v.name = name) = some ⟨name, .fields inner fields⟩)
    (distinct : (key :: es.map (·.1)).Nodup) (finds : fields.Finds (Input.entriesOf .aside es) a) :
    tagged key title variants (.value place (.object ((key, .string name) :: es))) = .ok a :=
  (tagged_encoded named distinct).trans
    (aside_eq_ok.mpr (Fields.decoder_encoded inner finds))

/-- Values are written without loss: only valid ones are decoded, and each of them is decoded from
its own encoding, which can be in memory. -/
structure Lossless (decoder : Decoder α) (encode : α → Json) (Valid : α → Prop) : Prop where
  gives : decoder.Gives Valid
  reads : ∀ a, Valid a → ∀ place, decoder (.value place (encode a)) = .ok a
  storable : ∀ a, Valid a → (encode a).Storable

namespace Lossless

variable {decoder : Decoder α} {encode : α → Json} {Valid : α → Prop}

theorem list (lossless : decoder.Lossless encode Valid) :
    (list decoder).Lossless (fun as => .array (as.map encode)) fun as => ∀ a ∈ as, Valid a where
  gives := lossless.gives.list
  reads _ valid place := list_encoded fun a mem => lossless.reads a (valid a mem) place
  storable _ valid := Json.storable_array.mpr
    (forall_mem_map.mpr fun a mem => lossless.storable a (valid a mem))

theorem numbered (lossless : decoder.Lossless encode Valid) :
    (numbered decoder).Lossless (fun as => .object (as.map fun a => (a.1.repr, encode a.2)))
      fun as => (∀ a ∈ as, a.1 < 2 ^ 32 ∧ Valid a.2) ∧ (as.map (·.1)).Nodup where
  gives := lossless.gives.numbered
  reads _ valid place := numbered_encoded (fun a mem => (valid.1 a mem).1)
    (fun a mem => lossless.reads a.2 (valid.1 a mem).2 place) valid.2
  storable as valid := by
    have apart : ((as.map (·.1)).map Nat.repr).Nodup := by
      refine valid.2.map_on fun m memM n memN same => ?_
      obtain ⟨a, mem, rfl⟩ := mem_map.mp memM
      obtain ⟨b, mem', rfl⟩ := mem_map.mp memN
      exact repr_inj (valid.1 a mem).1 (valid.1 b mem').1 same
    rw [map_map] at apart
    refine Json.storable_object.mpr ⟨?_, forall_mem_map.mpr fun a mem =>
      lossless.storable a.2 (valid.1 a mem).2⟩
    rw [map_map]
    exact apart

theorem finds (lossless : decoder.Lossless encode Valid) {name : String} {default : Option α}
    {es : List (String × Json)} (distinct : (es.map (·.1)).Nodup) {a : α}
    (mem : (name, encode a) ∈ es) (valid : Valid a) :
    (Fields.field name default decoder).Finds (Input.entriesOf place es) a :=
  Fields.finds_of_mem distinct mem (lossless.reads a valid place)

end Lossless

theorem lossless_string : string.Lossless .string fun _ => True where
  gives := gives_true _
  reads _ _ _ := rfl
  storable s _ := Json.storable_string s

theorem lossless_bool : bool.Lossless .bool fun _ => True where
  gives := gives_true _
  reads _ _ _ := rfl
  storable b _ := Json.storable_bool b

/-- A value is decoded from some value in memory or from some text. -/
def Accepts (decoder : Decoder α) (a : α) : Prop :=
  (∃ j : Json, j.Storable ∧ decoder.ofTree j = .ok a) ∨ ∃ text, decoder.parse text = .ok a

namespace Lossless

variable {decoder : Decoder α} {encode : α → Json} {Valid : α → Prop} {a : α}

theorem roundTrip (lossless : decoder.Lossless encode Valid) (valid : Valid a) :
    (encode a).Storable ∧ decoder.ofTree (encode a) = .ok a :=
  ⟨lossless.storable a valid, mapError_eq_ok_iff.mpr (lossless.reads a valid .tree)⟩

theorem accepts_iff (lossless : decoder.Lossless encode Valid) : decoder.Accepts a ↔ Valid a := by
  constructor
  · rintro (⟨j, storable, decoded⟩ | ⟨text, decoded⟩)
    · exact lossless.gives (.value .tree j) storable.exact a (mapError_eq_ok_iff.mp decoded)
    · exact lossless.gives (.ofText text) trivial a (mapError_eq_ok_iff.mp decoded)
  · exact fun valid => .inl ⟨encode a, lossless.roundTrip valid⟩

end Lossless

end Decoder
end TypeFlow
