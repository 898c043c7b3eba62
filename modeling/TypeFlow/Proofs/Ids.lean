import TypeFlow.Proofs.Algebra.Conservative
import TypeFlow.Proofs.Num.Numerals
import TypeFlow.Scope.Identifier

/-!
# Type ids identify types

The id of a type has no marks around unions, but every part of it shows where it ends: a member
of a union ends before a bar, a comma or a closing brace, and a whole type before the latter two.
So an id is readable from the front. Struct names have to be identifiers for this, and none of the
words that are ids of other types.
-/

namespace TypeFlow

open List Text

namespace Identifier

/-- Words are made of parts and colons. -/
theorem isPart_or_of_mem {cs : List Char} : spells cs = true →
    ∀ c ∈ cs, isPart c = true ∨ c = ':' := by
  refine spells.induct (fun cs => spells cs = true → ∀ c ∈ cs, isPart c = true ∨ c = ':')
    (fun cs => continues cs = true → ∀ c ∈ cs, isPart c = true ∨ c = ':') ?_ ?_ ?_ ?_ ?_ cs
  · simp
  · intro c cs tail spelled
    rw [spells, Bool.and_eq_true] at spelled
    exact forall_mem_cons.mpr ⟨.inl (by simp [isPart, spelled.1]), tail spelled.2⟩
  · simp
  · intro cs segment spelled
    simpa using segment (by simpa [continues] using spelled)
  · intro c cs single tail spelled
    rw [continues.eq_3 c cs single, Bool.and_eq_true] at spelled
    exact forall_mem_cons.mpr ⟨.inl spelled.1, tail spelled.2⟩

/-- No word starts with a digit. -/
theorem isStart_of_isDigit {c : Char} (digit : c.isDigit = true) : isStart c = false := by
  by_cases underscore : c = '_'
  · subst underscore
    cases digit
  · simp only [isStart, Char.isDigit] at digit ⊢
    delta Char.isAlpha Char.isUpper Char.isLower
    grind

end Identifier

/-- An identifier has only parts of words and colons. -/
theorem not_mem_of_isIdentifier {name : String} (identifier : isIdentifier name = true) {c : Char}
    (part : Identifier.isPart c = false) (colon : c ≠ ':') : c ∉ name.toList := by
  intro mem
  rcases Identifier.isPart_or_of_mem identifier c mem with isPart | isColon
  · rw [part] at isPart
    cases isPart
  · exact colon isColon

/-- An identifier has only plain characters. -/
theorem isPlain_of_isIdentifier {name : String} (identifier : isIdentifier name = true) :
    ∀ c ∈ name.toList, isPlain c = true := by
  intro c mem
  have differ {d : Char} (part : Identifier.isPart d = false) (colon : d ≠ ':') : c ≠ d := by
    rintro rfl
    exact not_mem_of_isIdentifier identifier part colon mem
  simp [isPlain, differ (d := ' ') rfl (by decide), differ (d := ',') rfl (by decide),
    differ (d := '"') rfl (by decide)]

/-- The words that are the ids of types other than structs. -/
def reservedNames : List String := ["never", "any", "number", "string", "inf", "NaN"]

/-- Few numbers are written as an identifier is. -/
theorem Num.Spells.word {a : List Char} {x : Num} (spelled : Num.Spells a x)
    (identifier : Identifier.spells a = true) : a = "inf".toList ∨ a = "NaN".toList := by
  cases spelled with
  | nan => exact .inr rfl
  | posInf => exact .inl rfl
  | positive n =>
    obtain ⟨c, cs, chars, digit⟩ := n.exists_chars_eq
    rw [chars, Identifier.spells, Identifier.isStart_of_isDigit digit] at identifier
    cases identifier
  | negInf | negative n => cases identifier

/-- Three number types are written as identifiers. -/
theorem NumberTy.word_of_isIdentifier {n : NumberTy} (held : n.Held)
    (identifier : isIdentifier n.text = true) : n.text ∈ ["number", "inf", "NaN"] := by
  cases n with
  | literal v =>
    rcases (Num.spells_text held.min).word identifier with word | word
    · have text : v.text = "inf" := String.toList_inj.mp word
      simp [NumberTy.text, text]
    · have text : v.text = "NaN" := String.toList_inj.mp word
      simp [NumberTy.text, text]
  | ints lo hi =>
    have mem : '(' ∈ (ints lo hi).text.toList := by simp [NumberTy.text]
    exact absurd mem (not_mem_of_isIdentifier identifier rfl (by decide))
  | reals lo hi =>
    have mem : '.' ∈ (reals lo hi).text.toList := by simp [NumberTy.text]
    exact absurd mem (not_mem_of_isIdentifier identifier rfl (by decide))
  | all => simp [NumberTy.text]

namespace Ty

/-- Names of structs and fields are identifiers, and names of structs are not reserved. -/
def NamedHere : Ty → Prop
  | struct name fields => isIdentifier name = true ∧ name ∉ reservedNames ∧
    ∀ f ∈ fields, isIdentifier f.1 = true
  | _ => True

instance (t : Ty) : Decidable t.NamedHere := by
  rcases t <;> dsimp only [NamedHere] <;> infer_instance

/-- All structs inside a type have proper names. -/
def Named (t : Ty) : Prop := t.Everywhere NamedHere
deriving Decidable

/-- A type whose id can be read. -/
structure Legible (t : Ty) : Prop where
  wellFormed : t.WellFormed
  held : t.Held
  named : t.Named

variable {fields : List (String × Ty)} {t x a : Ty}

variable {name : String} {f : String × Ty} {rest rest' : List Char} {p : Char → Bool}

/-- Fields of legible structs are legible. -/
theorem Legible.field (legible : Legible (struct name fields)) (mem : f ∈ fields) :
    Legible f.2 where
  wellFormed := (everywhere_struct.mp legible.wellFormed).2 f mem
  held := (everywhere_struct.mp legible.held).2 f mem
  named := (everywhere_struct.mp legible.named).2 f mem

/-- A legible struct has a proper name. -/
theorem Legible.names (legible : Legible (struct name fields)) : NamedHere (struct name fields) :=
  (everywhere_struct.mp legible.named).1

/-- The types between the bars of an id. -/
def alternatives : Ty → List Ty
  | union items => items
  | t => [t]

/-- The members of a legible type are legible. -/
theorem Legible.alternative (legible : Legible t) (mem : x ∈ t.alternatives) :
    Legible x ∧ x.Single := by
  cases t with
  | union items =>
    refine ⟨⟨(everywhere_union.mp legible.wellFormed).2 x mem,
      (everywhere_union.mp legible.held).2 x mem, (everywhere_union.mp legible.named).2 x mem⟩, ?_⟩
    rintro others rfl
    cases (everywhere_union.mp legible.wellFormed).1.2.1 _ mem
  | _ =>
    obtain rfl := mem_singleton.mp mem
    exact ⟨legible, nofun⟩

/-- A legible type is determined by its members. -/
theorem alternatives_inj {a b : Ty} (legibleA : Legible a) (legibleB : Legible b)
    (same : a.alternatives = b.alternatives) : a = b := by
  have several {items : List Ty} (legible : Legible (union items)) (x : Ty) : items ≠ [x] := by
    rintro rfl
    have := (everywhere_union.mp legible.wellFormed).1.1
    simp at this
  cases a with
  | union items =>
    cases b with
    | union others => rw [show items = others from same]
    | _ => exact absurd same (several legibleA _)
  | _ =>
    cases b with
    | union others => exact absurd same.symm (several legibleB _)
    | _ => exact (List.cons.inj same).1

/-- What follows a type, and with a bar what follows a member of a union. -/
inductive Follow (bar : Bool) : List Char → Prop
  | nil : Follow bar []
  | comma (rest : List Char) : Follow bar (',' :: rest)
  | brace (rest : List Char) : Follow bar (' ' :: '\x7d' :: rest)
  | bar (allowed : bar = true) (rest : List Char) : Follow bar (' ' :: '|' :: rest)

/-- What follows an id ends every run that stops at blanks and commas. -/
theorem Follow.ends {bar : Bool} (follow : Follow bar rest) (blank : p ' ' = false)
    (comma : p ',' = false) : Ends p rest := by
  cases follow with
  | nil => exact ends_nil
  | comma rest => exact ends_cons.mpr comma
  | _ => exact ends_cons.mpr blank

/-- What follows a type may follow a member. -/
theorem Follow.loose (follow : Follow false rest) : Follow true rest := by
  cases follow with
  | nil => exact .nil
  | comma rest => exact .comma rest
  | brace rest => exact .brace rest
  | bar allowed => cases allowed

/-- The id of a type can be read in front of what follows it. -/
def ReadableId (t : Ty) : Prop := Readable id Legible (Follow false) t

/-- The id of a member of a union can be read in front of what follows it. -/
def ReadableItem (t : Ty) : Prop :=
  Readable id (fun y => Legible y ∧ y.Single) (Follow true) t

/-- A type can be read when the types between its bars can. -/
theorem readableId_of_alternatives (legible : Legible a)
    (each : ∀ x ∈ a.alternatives, ReadableItem x) : ReadableId a := by
  have idItems_eq (items : List Ty) : idItems items = items.map id := by
    induction items with
    | nil => rfl
    | cons x xs ih => rw [idItems, ih, map_cons]
  have parts (t : Ty) : t.id = joined " | " (t.alternatives.map id) := by
    cases t with
    | union items => rw [id, idItems_eq, alternatives]
    | _ => rfl
  have some {t : Ty} (legible : Legible t) : t.alternatives ≠ [] := by
    cases t with
    | union items =>
      rintro rfl
      have := (everywhere_union.mp legible.wellFormed).1.1
      simp at this
    | _ => exact cons_ne_nil _ _
  have closed {rest : List Char} (follow : Follow false rest) : ¬ " | ".toList <+: rest := by
    cases follow with
    | bar allowed => cases allowed
    | _ => simp
  intro b rest rest' legibleB follow follow' same
  rw [parts, parts] at same
  obtain ⟨items, rests⟩ := joined_append_inj (fun tail => Follow.bar rfl _) follow.loose
    follow'.loose (closed follow) (closed follow') (some legible) (some legibleB) each
    (fun y mem => legibleB.alternative mem) same
  exact ⟨alternatives_inj legible legibleB items, rests⟩

def fieldText (f : String × Ty) : String := f.1 ++ ": " ++ f.2.id

/-- Fields are written one by one. -/
theorem idFields_eq (fields : List (String × Ty)) : idFields fields = fields.map fieldText := by
  induction fields with
  | nil => rfl
  | cons f fields ih => rw [idFields, ih, map_cons, fieldText]

/-- A field is readable if its type is. -/
theorem readable_fieldText (name : isIdentifier f.1 = true) (readable : ReadableId f.2) :
    Readable fieldText (fun g => isIdentifier g.1 = true ∧ Legible g.2) (Follow false) f := by
  intro g rest rest' legible follow follow' same
  have parts (h : String × Ty) (tail : List Char) : (fieldText h).toList ++ tail =
      (h.1.toList ++ [':']) ++ ' ' :: (h.2.id.toList ++ tail) := by simp [fieldText]
  have plain {h : String × Ty} (identifier : isIdentifier h.1 = true) :
      ∀ c ∈ h.1.toList ++ [':'], isPlain c = true :=
    forall_mem_append.mpr ⟨isPlain_of_isIdentifier identifier, by simp [isPlain]⟩
  rw [parts, parts] at same
  obtain ⟨names, types⟩ := append_inj_of_ends (plain name) (plain legible.1) (ends_cons.mpr rfl)
    (ends_cons.mpr rfl) same
  obtain ⟨type, rests⟩ := readable legible.2 follow follow' (List.cons.inj types).2
  exact ⟨Prod.ext (String.toList_inj.mp (append_cancel_right names)) type, rests⟩

/-- Lists of fields are readable if the types in them are. -/
theorem fieldList_append_inj {name name' : String} {fields fields' : List (String × Ty)}
    (legible : Legible (struct name fields)) (legible' : Legible (struct name' fields'))
    (readable : ∀ f ∈ fields, ReadableId f.2) (follow : Follow true rest)
    (follow' : Follow true rest') (same : (fieldList (idFields fields)).toList ++ rest =
      (fieldList (idFields fields')).toList ++ rest') : fields = fields' ∧ rest = rest' := by
  have opened {fields : List (String × Ty)} (some : fields ≠ []) (tail : List Char) :
      (fieldList (idFields fields)).toList ++ tail = ' ' :: '\x7b' :: ' ' ::
        ((joined ", " (fields.map fieldText)).toList ++ ' ' :: '\x7d' :: tail) := by
    rw [idFields_eq]
    cases fields with
    | nil => exact absurd rfl some
    | cons f fields => simp [fieldList]
  have unopened {tail more : List Char} (follow : Follow true tail) :
      tail ≠ ' ' :: '\x7b' :: more := by
    cases follow <;> simp
  have comma (tail : List Char) : ¬ ", ".toList <+: ' ' :: '\x7d' :: tail := by simp
  by_cases none : fields = [] <;> by_cases none' : fields' = []
  · rw [none, none'] at same ⊢
    exact ⟨rfl, same⟩
  · rw [none, opened none'] at same
    exact absurd same (unopened follow)
  · rw [none', opened none] at same
    exact absurd same.symm (unopened follow')
  · rw [opened none, opened none'] at same
    obtain ⟨same, rests⟩ := joined_append_inj (fun tail => Follow.comma _) (.brace rest)
      (.brace rest') (comma rest) (comma rest') none none'
      (fun f mem => readable_fieldText (legible.names.2.2 f mem) (readable f mem))
      (fun f mem => ⟨legible'.names.2.2 f mem, legible'.field mem⟩)
      (by simpa using same)
    exact ⟨same, by simpa using rests⟩

/-- The first word of an id. -/
def word : Ty → String
  | never => "never"
  | number n => n.text
  | string s => s.text
  | struct name _ => name
  | union _ => ""
  | any => "any"

/-- What comes after the first word. -/
def afterWord : Ty → String
  | struct _ fields => fieldList (idFields fields)
  | _ => ""

/-- The id of a member is its word and what comes after. -/
theorem id_eq_word (single : t.Single) : t.id = t.word ++ t.afterWord := by
  cases t with
  | union items => exact absurd rfl (single items)
  | struct name fields => rw [id, word, afterWord]
  | _ => simp [id, word, afterWord]

/-- A word ends before what comes after. -/
theorem ends_afterWord (t : Ty) (follow : Follow true rest) (blank : p ' ' = false)
    (comma : p ',' = false) : Ends p (t.afterWord.toList ++ rest) := by
  have rests := follow.ends blank comma
  cases t with
  | struct name fields =>
    rw [afterWord, idFields_eq]
    cases fields with
    | nil => exact rests
    | cons f fields => simpa [fieldList, ends_cons] using blank
  | _ => simpa [afterWord] using rests

/-- The types whose ids begin with a word: no unions and no quoted texts. -/
inductive Worded : Ty → Prop
  | fixed {t : Ty} (mem : t ∈ [never, any, string .all]) : Worded t
  | number {n : NumberTy} (held : n.Held) : Worded (number n)
  | struct {name : String} {fields : List (String × Ty)} (legible : Legible (struct name fields)) :
    Worded (struct name fields)

/-- Only texts are written without a word. -/
theorem worded_or_quoted (legible : Legible t) (single : t.Single) :
    Worded t ∨ ∃ s, t = string (.literal s) := by
  cases t with
  | number n => exact .inl (.number (held_number.mp legible.held))
  | string s =>
    cases s with
    | literal s => exact .inr ⟨s, rfl⟩
    | all => exact .inl (.fixed (by simp))
  | struct name fields => exact .inl (.struct legible)
  | union items => exact absurd rfl (single items)
  | never | any => exact .inl (.fixed (by simp))

/-- The words of the other types are reserved identifiers, and no number is written like them. -/
theorem fixed_word : ∀ t ∈ [never, any, string .all], isIdentifier t.word = true ∧
    t.word ∈ reservedNames ∧ t.word ∉ ["number", "inf", "NaN"] := by
  simp only [forall_mem_cons, not_mem_nil, false_imp_iff, implies_true, and_true]
  decide

/-- Words have only plain characters. -/
theorem isPlain_of_mem_word (worded : Worded t) : ∀ c ∈ t.word.toList, isPlain c = true := by
  cases worded with
  | fixed mem => exact isPlain_of_isIdentifier (fixed_word t mem).1
  | number held => exact NumberTy.isPlain_of_mem_text held
  | struct legible => exact isPlain_of_isIdentifier legible.names.1

/-- Types with the same word are the same, or both are structs. -/
theorem eq_or_struct_of_word_eq {x y : Ty} (wordedX : Worded x) (wordedY : Worded y)
    (same : x.word = y.word) :
    x = y ∨ ∃ name fields fields', x = struct name fields ∧ y = struct name fields' := by
  have numbers {n : NumberTy} (held : n.Held) {t : Ty} (mem : t ∈ [never, any, string .all]) :
      n.text ≠ t.word := fun same =>
    (fixed_word t mem).2.2 (same ▸ NumberTy.word_of_isIdentifier held (same ▸ (fixed_word t mem).1))
  have names {name : String} {fields : List (String × Ty)} (legible : Legible (struct name fields))
      {t : Ty} (mem : t ∈ [never, any, string .all]) : name ≠ t.word := fun same =>
    legible.names.2.1 (same ▸ (fixed_word t mem).2.1)
  have apart {n : NumberTy} (held : n.Held) {name : String} {fields : List (String × Ty)}
      (legible : Legible (struct name fields)) : n.text ≠ name := by
    rintro rfl
    have word := NumberTy.word_of_isIdentifier held legible.names.1
    refine legible.names.2.1 ?_
    simp only [reservedNames, mem_cons] at word ⊢
    tauto
  cases wordedX with
  | fixed mem =>
    cases wordedY with
    | fixed mem' =>
      simp only [mem_cons, not_mem_nil, or_false] at mem mem'
      rcases mem with rfl | rfl | rfl <;> rcases mem' with rfl | rfl | rfl <;>
        first | exact .inl rfl | simp [word, StringTy.text] at same
    | number held => exact absurd same.symm (numbers held mem)
    | struct legible => exact absurd same.symm (names legible mem)
  | number held =>
    cases wordedY with
    | fixed mem => exact absurd same (numbers held mem)
    | number held' =>
      exact .inl (congrArg number (NumberTy.readable_text held held' ends_nil ends_nil
        (congrArg (·.toList ++ []) same)).1)
    | struct legible => exact absurd same (apart held legible)
  | struct legible =>
    cases wordedY with
    | fixed mem => exact absurd same (names legible mem)
    | number held => exact absurd same.symm (apart held legible)
    | struct legible' => exact .inr ⟨_, _, _, rfl, congrArg (struct · _) same.symm⟩

/-- A quoted text is not the beginning of a word. -/
theorem quoted_ne_worded (worded : Worded t) (single : t.Single) {s : String}
    (follow : Follow true rest') : (quoted s).toList ++ rest ≠ t.id.toList ++ rest' := by
  rw [id_eq_word single, String.toList_append, append_assoc]
  obtain ⟨tail, start⟩ : ∃ tail, (quoted s).toList ++ rest = '"' :: tail := by simp [quoted]
  rw [start]
  intro same
  cases word : t.word.toList with
  | nil =>
    have ends := ends_afterWord t follow (p := (· == '"')) rfl rfl
    rw [word, nil_append] at same
    rw [← same] at ends
    cases ends_cons.mp ends
  | cons c cs =>
    have plain := isPlain_of_mem_word worded c (by simp [word])
    rw [word, cons_append] at same
    rw [← (List.cons.inj same).1] at plain
    cases plain

/-- A member of a union can be read when the types of its fields can. -/
theorem readableItem_of_fields (legible : Legible x) (single : x.Single)
    (readable : ∀ name fields, x = struct name fields → ∀ f ∈ fields, ReadableId f.2) :
    ReadableItem x := by
  intro y rest rest' legal follow follow' same
  obtain ⟨legibleY, singleY⟩ := legal
  rcases worded_or_quoted legible single with worded | ⟨s, rfl⟩
  · rcases worded_or_quoted legibleY singleY with worded' | ⟨s', rfl⟩
    · rw [id_eq_word single, id_eq_word singleY, String.toList_append, String.toList_append,
        append_assoc, append_assoc] at same
      obtain ⟨words, tails⟩ := append_inj_of_ends (isPlain_of_mem_word worded)
        (isPlain_of_mem_word worded') (ends_afterWord x follow rfl rfl)
        (ends_afterWord y follow' rfl rfl) same
      rcases eq_or_struct_of_word_eq worded worded' (String.toList_inj.mp words) with
        rfl | ⟨name, fields, fields', rfl, rfl⟩
      · exact ⟨rfl, append_cancel_left tails⟩
      · obtain ⟨fields, rests⟩ := fieldList_append_inj legible legibleY (readable name fields rfl)
          follow follow' tails
        exact ⟨by rw [fields], rests⟩
    · exact absurd same.symm (quoted_ne_worded worded single follow)
  · rcases worded_or_quoted legibleY singleY with worded' | ⟨s', rfl⟩
    · exact absurd same (quoted_ne_worded worded' singleY follow')
    · obtain ⟨rfl, rests⟩ := readable_quoted s trivial trivial trivial same
      exact ⟨rfl, rests⟩

/-- All members of a legible type are readable. -/
theorem readableItem_of_mem_alternatives (t : Ty) :
    Legible t → ∀ x ∈ t.alternatives, ReadableItem x := by
  -- A union is not read as one item, so the induction is about the items of a type.
  induction t using Ty.induction with
  | struct name fields ih =>
    intro legible x mem
    obtain rfl := mem_singleton.mp mem
    refine readableItem_of_fields legible nofun fun _ _ same f mem => ?_
    cases same
    exact readableId_of_alternatives (legible.field mem) (ih f mem (legible.field mem))
  | union items ih =>
    intro legible x mem
    obtain ⟨legibleX, single⟩ := legible.alternative mem
    refine ih x mem legibleX x ?_
    cases x with
    | union items => exact absurd rfl (single items)
    | _ => exact mem_singleton_self _
  | _ =>
    intro legible x mem
    obtain rfl := mem_singleton.mp mem
    exact readableItem_of_fields legible nofun nofun

/-- Type ids identify types: well-formed types of doubles whose structs and fields have proper
names are the same when their ids are. -/
theorem id_eq_iff {a b : Ty} (wellFormedA : a.WellFormed) (wellFormedB : b.WellFormed)
    (heldA : a.Held) (heldB : b.Held) (namedA : a.Named) (namedB : b.Named) :
    a.id = b.id ↔ a = b := by
  have legible : Legible a := ⟨wellFormedA, heldA, namedA⟩
  refine ⟨fun same => ?_, congrArg id⟩
  have readable := readableId_of_alternatives legible (readableItem_of_mem_alternatives a legible)
  exact (readable ⟨wellFormedB, heldB, namedB⟩ .nil .nil (congrArg (·.toList ++ []) same)).1

namespace Sample

/-- A union of a text and a struct. -/
def outside : Ty :=
  union [string (.literal "b | c"), struct "Point" [("x", number (.reals (.fin 0) .posInf))]]

/-- A struct with a union in its field. -/
def within : Ty :=
  struct "Point" [("x", union [number (.reals (.fin 0) .posInf), string (.literal "b | c")])]

end Sample

open Sample in
/-- A bar inside the braces and one outside of them make different ids. -/
theorem id_eq_iff_bars :
    (outside.WellFormed ∧ outside.Held ∧ outside.Named) ∧
    (within.WellFormed ∧ within.Held ∧ within.Named) ∧ outside.id ≠ within.id := by
  have first : outside.WellFormed ∧ outside.Held ∧ outside.Named := by decide +kernel
  have second : within.WellFormed ∧ within.Held ∧ within.Named := by decide +kernel
  refine ⟨first, second, fun same => ?_⟩
  cases (id_eq_iff first.1 second.1 first.2.1 second.2.1 first.2.2 second.2.2).mp same

end Ty
end TypeFlow
