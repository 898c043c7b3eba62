import Mathlib.Computability.Language
import TypeFlow.Scope.Identifier

/-!
# The grammar of identifiers

Identifiers are described in three ways: as segments that are joined by double colons, as the
language of a pattern, and by a recogniser that reads one character after the other. All three
satisfy one equation: a word is a segment, or a segment with a double colon and a word after it.
Since a segment is never empty, the equation determines the language. For the recogniser it comes
from what its two states do on one character.
-/

namespace TypeFlow.Identifier

open List
open scoped Computability

/-- A letter of the ASCII alphabet or the underscore. -/
def Opens (c : Char) : Prop := ('A' ≤ c ∧ c ≤ 'Z') ∨ ('a' ≤ c ∧ c ≤ 'z') ∨ c = '_'

/-- One of these or a digit. -/
def Extends (c : Char) : Prop := Opens c ∨ ('0' ≤ c ∧ c ≤ '9')

variable {c : Char} {cs : List Char}

theorem isStart_iff : isStart c = true ↔ Opens c := by
  rw [isStart]
  delta Char.isAlpha Char.isUpper Char.isLower
  simp [Opens, Char.le_def, or_assoc]

theorem isPart_iff : isPart c = true ↔ Extends c := by
  simp [isPart, isStart_iff, Char.isDigit, Extends, Char.le_def]

theorem not_extends_colon : ¬ Extends ':' := by
  rw [← isPart_iff]
  decide

/-- Single characters of a class. -/
def oneOf (p : Char → Prop) : Language Char := {cs | ∃ c, p c ∧ cs = [c]}

/-- Two colons. -/
def colons : Language Char := {[':', ':']}

/-- Segments. -/
def segment : Language Char := oneOf Opens * (oneOf Extends)∗

/-- A segment and then any number of segments, each after two colons. -/
def pattern : Language Char :=
  oneOf Opens * (oneOf Extends)∗ * (colons * oneOf Opens * (oneOf Extends)∗)∗

/-- One or more segments, joined by two colons. -/
def joined : Language Char :=
  {cs | ∃ segments : List (List Char), segments ≠ [] ∧ (∀ s ∈ segments, s ∈ segment) ∧
    cs = [':', ':'].intercalate segments}

/-- What the recogniser accepts. -/
def spelled : Language Char := {cs | spells cs = true}

/-- What it accepts inside a segment. -/
def continued : Language Char := {cs | continues cs = true}

variable {p : Char → Prop} {l : Language Char}

theorem nil_notMem_oneOf_mul : [] ∉ oneOf p * l := by
  rintro ⟨_, ⟨c, -, rfl⟩, rest, -, eq⟩
  cases eq

theorem cons_mem_oneOf_mul : c :: cs ∈ oneOf p * l ↔ p c ∧ cs ∈ l := by
  constructor
  · rintro ⟨_, ⟨d, holds, rfl⟩, rest, mem, eq⟩
    obtain ⟨rfl, rfl⟩ := List.cons.inj eq
    exact ⟨holds, mem⟩
  · rintro ⟨holds, mem⟩
    exact ⟨[c], ⟨c, holds, rfl⟩, cs, mem, rfl⟩

theorem mem_colons_mul : cs ∈ colons * l ↔ ∃ rest ∈ l, cs = ':' :: ':' :: rest := by
  constructor
  · rintro ⟨_, rfl, rest, mem, rfl⟩
    exact ⟨rest, mem, rfl⟩
  · rintro ⟨rest, mem, rfl⟩
    exact ⟨_, rfl, rest, mem, rfl⟩

/-- Repeated classes are words over the class. -/
theorem mem_kstar_oneOf : cs ∈ (oneOf p)∗ ↔ ∀ c ∈ cs, p c := by
  induction cs with
  | nil => exact iff_of_true (Language.nil_mem_kstar _) (by simp)
  | cons c cs ih =>
    rw [← Language.one_add_self_mul_kstar_eq_kstar, Language.mem_add, Language.mem_one,
      cons_mem_oneOf_mul, ih, forall_mem_cons]
    simp

theorem mem_segment_iff : cs ∈ segment ↔
    ∃ first rest, cs = first :: rest ∧ Opens first ∧ ∀ c ∈ rest, Extends c := by
  cases cs with
  | nil => exact iff_of_false nil_notMem_oneOf_mul (by simp)
  | cons c cs =>
    rw [segment, cons_mem_oneOf_mul, mem_kstar_oneOf]
    simp

/-- Words are segments, or segments before two colons and a word. -/
def Unfolds (l : Language Char) : Prop := l = segment * colons * l + segment

/-- Only one language has such words. -/
theorem Unfolds.eq {m : Language Char} (unfolds : Unfolds l) (unfolds' : Unfolds m) : l = m := by
  have nonempty : [] ∉ segment * colons := by
    rw [segment, mul_assoc]
    exact nil_notMem_oneOf_mul
  rw [(Language.self_eq_mul_add_iff nonempty).mp unfolds,
    (Language.self_eq_mul_add_iff nonempty).mp unfolds']

theorem unfolds_pattern : Unfolds pattern := by
  have shape : pattern = segment * (colons * segment)∗ := by
    rw [pattern, segment, mul_assoc colons]
  rw [Unfolds, shape, mul_assoc segment, ← mul_assoc colons, ← mul_add_one, add_comm,
    Language.one_add_self_mul_kstar_eq_kstar]

theorem unfolds_joined : Unfolds joined := by
  ext cs
  constructor
  · rintro ⟨segments, nonempty, each, rfl⟩
    cases segments with
    | nil => exact absurd rfl nonempty
    | cons s rest =>
      obtain ⟨here, later⟩ := forall_mem_cons.mp each
      by_cases more : rest = []
      · subst more
        rw [intercalate_singleton]
        exact .inr here
      · rw [intercalate_cons_of_ne_nil more]
        exact .inl ⟨_, ⟨s, here, _, rfl, rfl⟩, _, ⟨rest, more, later, rfl⟩, rfl⟩
  · rintro (⟨_, ⟨s, here, _, rfl, rfl⟩, _, ⟨rest, more, later, rfl⟩, rfl⟩ | here)
    · exact ⟨s :: rest, cons_ne_nil s rest, forall_mem_cons.mpr ⟨here, later⟩,
        (intercalate_cons_of_ne_nil more).symm⟩
    · exact ⟨[cs], cons_ne_nil cs [], forall_mem_singleton.mpr here,
        intercalate_singleton.symm⟩

/-- The recogniser enters a segment by its first character. -/
theorem spelled_eq : spelled = oneOf Opens * continued := by
  ext cs
  cases cs with
  | nil => exact iff_of_false Bool.false_ne_true nil_notMem_oneOf_mul
  | cons c cs =>
    rw [cons_mem_oneOf_mul, ← isStart_iff]
    exact Bool.and_eq_true_iff

/-- Inside a segment it goes on with it, or ends, or goes to the next one. -/
theorem continued_eq : continued = oneOf Extends * continued + (1 + colons * spelled) := by
  ext cs
  rw [Language.mem_add, Language.mem_add, Language.mem_one, mem_colons_mul]
  change continues cs = true ↔ _
  cases cs with
  | nil => exact iff_of_true rfl (.inr (.inl rfl))
  | cons c cs =>
    rw [cons_mem_oneOf_mul]
    by_cases next : ∃ rest, c = ':' ∧ cs = ':' :: rest
    · obtain ⟨rest, rfl, rfl⟩ := next
      rw [continues.eq_2]
      constructor
      · exact fun accepted => .inr (.inr ⟨rest, accepted, rfl⟩)
      · rintro (⟨part, -⟩ | empty | ⟨tail, accepted, eq⟩)
        · exact absurd part not_extends_colon
        · cases empty
        · obtain rfl : rest = tail := by simpa using eq
          exact accepted
    · have single : ∀ rest, c = ':' → cs = ':' :: rest → False :=
        fun rest colon again => next ⟨rest, colon, again⟩
      have no_colons : ¬ ∃ rest ∈ spelled, c :: cs = ':' :: ':' :: rest := by
        rintro ⟨rest, -, eq⟩
        obtain ⟨colon, again⟩ := List.cons.inj eq
        exact next ⟨rest, colon, again⟩
      rw [continues.eq_3 c cs single, Bool.and_eq_true, isPart_iff]
      exact ⟨.inl, fun either =>
        either.resolve_right (not_or.mpr ⟨cons_ne_nil c cs, no_colons⟩)⟩

theorem unfolds_spelled : Unfolds spelled := by
  have nonempty : [] ∉ oneOf Extends := by
    rintro ⟨c, -, eq⟩
    cases eq
  have inside : continued = (oneOf Extends)∗ * (1 + colons * spelled) :=
    (Language.self_eq_mul_add_iff nonempty).mp continued_eq
  calc spelled = oneOf Opens * continued := spelled_eq
    _ = segment * (1 + colons * spelled) := by rw [inside, segment, mul_assoc]
    _ = segment * colons * spelled + segment := by rw [mul_add, mul_one, mul_assoc, add_comm]

/-- A letter or an underscore, followed by letters, digits and underscores. -/
def IsSegment (s : String) : Prop :=
  ∃ first rest, s.toList = first :: rest ∧ Opens first ∧ ∀ c ∈ rest, Extends c

theorem toList_mem_joined {name : String} : name.toList ∈ joined ↔
    ∃ segments : List String, segments ≠ [] ∧ (∀ s ∈ segments, IsSegment s) ∧
      name = "::".intercalate segments := by
  constructor
  · rintro ⟨segments, nonempty, each, eq⟩
    refine ⟨segments.map String.ofList, by simpa using nonempty, fun s mem => ?_, ?_⟩
    · obtain ⟨cs, there, rfl⟩ := mem_map.mp mem
      rw [IsSegment, String.toList_ofList]
      exact mem_segment_iff.mp (each cs there)
    · rw [← String.toList_inj, eq, String.toList_intercalate, map_map]
      simp [Function.comp_def]
  · rintro ⟨segments, nonempty, each, rfl⟩
    refine ⟨segments.map String.toList, by simpa using nonempty, fun cs mem => ?_,
      String.toList_intercalate⟩
    obtain ⟨s, there, rfl⟩ := mem_map.mp mem
    exact mem_segment_iff.mpr (each s there)

/-- A name is an identifier if it is one or more segments joined by double colons, with nothing
around them. These are the words of the pattern. -/
theorem isIdentifier_exact (name : String) :
    (isIdentifier name = true ↔ ∃ segments : List String, segments ≠ [] ∧
      (∀ s ∈ segments, IsSegment s) ∧ name = "::".intercalate segments) ∧
    (isIdentifier name = true ↔ name.toList ∈ pattern) := by
  have recognised : isIdentifier name = true ↔ name.toList ∈ spelled := Iff.rfl
  refine ⟨?_, ?_⟩
  · rw [recognised, unfolds_spelled.eq unfolds_joined, toList_mem_joined]
  · rw [recognised, unfolds_spelled.eq unfolds_pattern]

example : ["Image", "number::add", "_a1", "a::_::b2"].all isIdentifier ∧
    ["", "1a", "a b", "a:b", "a::", "::a", "a:::b", "a::1", "a\n", "é"].all (!isIdentifier ·) := by
  decide +kernel

end TypeFlow.Identifier
