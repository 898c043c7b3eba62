import TypeFlow.Graph.Layout
import TypeFlow.Proofs.Results

/-!
# Meaning of a layout

Conditions and trees of groups are given a meaning of their own: what a condition asks of a node,
and below which groups an item stands. The computed layout hides and requires exactly the inputs
that this meaning names, and there is a layout if and only if the conditions of all groups that are
shown have an answer.
-/

namespace TypeFlow

open List

namespace NodeView

/-- The type of an input, once there is something to have a type, fits an expression. -/
def TypeMeets (v : NodeView) (input : InputId) (condition : Expr) (ifNotConnected : Bool) : Prop :=
  if v.isSupplied input = true then
    ∃ actual expected, v.inst.input? input = some actual ∧
      v.signature.scope.evaluate [] condition = .ok expected ∧ actual.subset expected = .ok true
  else ifNotConnected = true

mutual
/-- What a condition asks of a node. -/
def Meets (v : NodeView) : Condition → Prop
  | .and items => MeetsAll v items
  | .or items => MeetsSome v items
  | .not condition => ¬ Meets v condition
  | .oneOf input values => ∃ entered, v.node.value? input = some entered ∧
      ∃ value ∈ values, entered.same value = true
  | .hasType input condition ifNotConnected => TypeMeets v input condition ifNotConnected
/-- All of the conditions are met. -/
def MeetsAll (v : NodeView) : List Condition → Prop
  | [] => True
  | c :: rest => Meets v c ∧ MeetsAll v rest
/-- Some of the conditions are met. -/
def MeetsSome (v : NodeView) : List Condition → Prop
  | [] => False
  | c :: rest => Meets v c ∨ MeetsSome v rest
end

variable {v : NodeView}

/-- A type condition has the answer it means. -/
theorem typeHolds_iff {input : InputId} {condition : Expr} {ifNotConnected answer : Bool}
    (answered : v.typeHolds input condition ifNotConnected = .ok answer) :
    answer = true ↔ v.TypeMeets input condition ifNotConnected := by
  unfold typeHolds at answered
  unfold TypeMeets
  cases supplied : v.isSupplied input with
  | false =>
    simp only [supplied, Bool.not_false, if_true] at answered
    obtain rfl := Except.ok.inj answered
    simp
  | true =>
    simp only [supplied, Bool.not_true, Bool.false_eq_true, if_false] at answered
    simp only [if_true]
    cases has : v.inst.input? input with
    | none =>
      simp only [has] at answered
      obtain rfl := Except.ok.inj answered
      simp
    | some actual =>
      simp only [has] at answered
      cases evaluated : v.signature.scope.evaluate [] condition with
      | error halt =>
        cases halt with
        | error e =>
          simp only [evaluated, Run.attempt] at answered
          obtain rfl := Except.ok.inj answered
          simp
        | fatal f => simp [evaluated, Run.attempt, bind, Except.bind] at answered
      | ok expected =>
        simp only [evaluated, Run.attempt] at answered
        have compared : actual.subset expected = .ok answer := mapError_eq_ok_iff.mp answered
        simp [compared]

mutual
/-- The answer that is computed for a condition is whether the node meets it. -/
theorem holds_iff : ∀ {c : Condition} {answer : Bool}, v.holds c = .ok answer →
    (answer = true ↔ v.Meets c)
  | .and items, _, answered => by
    rw [holds] at answered
    rw [Meets]
    exact allHold_iff answered
  | .or items, _, answered => by
    rw [holds] at answered
    rw [Meets]
    exact someHolds_iff answered
  | .not c, _, answered => by
    rw [holds, bind_eq_ok_iff] at answered
    obtain ⟨inner, answered, same⟩ := answered
    obtain rfl := Except.ok.inj same
    rw [Meets, ← holds_iff answered]
    simp
  | .oneOf input values, _, answered => by
    rw [holds] at answered
    obtain rfl := Except.ok.inj answered
    rw [Meets]
    simp [Option.any_eq_true]
  | .hasType input condition ifNotConnected, _, answered => by
    rw [holds] at answered
    rw [Meets]
    exact typeHolds_iff answered

/-- All conditions of a list. -/
theorem allHold_iff : ∀ {items : List Condition} {answer : Bool}, v.allHold items = .ok answer →
    (answer = true ↔ v.MeetsAll items)
  | [], _, answered => by
    obtain rfl := Except.ok.inj answered
    simp [MeetsAll]
  | c :: rest, answer, answered => by
    rw [allHold, bind_eq_ok_iff] at answered
    obtain ⟨first, here, answered⟩ := answered
    rw [MeetsAll, ← holds_iff here]
    cases first with
    | true => simpa using allHold_iff answered
    | false =>
      obtain rfl := Except.ok.inj answered
      simp

/-- Some condition of a list. -/
theorem someHolds_iff : ∀ {items : List Condition} {answer : Bool},
    v.someHolds items = .ok answer → (answer = true ↔ v.MeetsSome items)
  | [], _, answered => by
    obtain rfl := Except.ok.inj answered
    simp [MeetsSome]
  | c :: rest, answer, answered => by
    rw [someHolds, bind_eq_ok_iff] at answered
    obtain ⟨first, here, answered⟩ := answered
    rw [MeetsSome, ← holds_iff here]
    cases first with
    | false => simpa using someHolds_iff answered
    | true =>
      obtain rfl := Except.ok.inj answered
      simp
end

end NodeView

/-- The condition of a group. -/
def GroupKind.condition? : GroupKind → Option Condition
  | .ordinary => none
  | .conditional c => some c
  | .required c => some c

namespace LayoutItem

/-- An item stands in a tree below groups of the given kinds, the outermost one first. -/
inductive Stands (item : LayoutItem) : List LayoutItem → List GroupKind → Prop
  | here {items : List LayoutItem} (mem : item ∈ items) : Stands item items []
  | inside {items inner : List LayoutItem} {kind : GroupKind} {above : List GroupKind}
      (mem : .group kind inner ∈ items) (below : Stands item inner above) :
      Stands item items (kind :: above)

variable {item : LayoutItem} {items inner : List LayoutItem} {kind : GroupKind}
  {above : List GroupKind}

/-- An item of the list itself. -/
@[simp] theorem stands_nil_right : Stands item items [] ↔ item ∈ items :=
  ⟨fun stands => by cases stands; assumption, .here⟩

/-- An item below a group of the list. -/
theorem stands_cons_right : Stands item items (kind :: above) ↔
    ∃ inner, .group kind inner ∈ items ∧ Stands item inner above :=
  ⟨fun | .inside mem below => ⟨_, mem, below⟩, fun ⟨_, mem, below⟩ => .inside mem below⟩

/-- Nothing stands in an empty list. -/
@[simp] theorem not_stands_nil : ¬ Stands item [] above := by
  rintro (⟨mem⟩ | ⟨mem, -⟩)
  · exact not_mem_nil mem
  · exact not_mem_nil mem

/-- What stands in a list of items stands in its rest, is its first item or stands inside it. -/
theorem stands_cons_input {id : InputId} {rest : List LayoutItem} :
    Stands item (.input id :: rest) above ↔
      (above = [] ∧ item = .input id) ∨ Stands item rest above := by
  cases above with
  | nil => simp
  | cons kind above => simp [stands_cons_right]

/-- An item is the group, below it or further on. -/
theorem stands_cons_group {rest : List LayoutItem} :
    Stands item (.group kind inner :: rest) above ↔
      (above = [] ∧ item = .group kind inner) ∨
      (∃ deeper, above = kind :: deeper ∧ Stands item inner deeper) ∨ Stands item rest above := by
  cases above with
  | nil => simp
  | cons outer deeper =>
    simp only [stands_cons_right, mem_cons, group.injEq]
    constructor
    · rintro ⟨_, ⟨rfl, rfl⟩ | mem, below⟩
      · exact .inr (.inl ⟨deeper, rfl, below⟩)
      · exact .inr (.inr ⟨_, mem, below⟩)
    · rintro (⟨none, -⟩ | ⟨_, same, below⟩ | ⟨_, mem, below⟩)
      · cases none
      · obtain ⟨rfl, rfl⟩ := List.cons.inj same
        exact ⟨inner, .inl ⟨rfl, rfl⟩, below⟩
      · exact ⟨_, .inr mem, below⟩

/-- The innermost group above an item of a group is that group or stands inside it. -/
theorem stands_group_append {last : GroupKind} {rest : List LayoutItem} :
    Stands item (.group kind inner :: rest) (above ++ [last]) ↔
      (above = [] ∧ kind = last ∧ item ∈ inner) ∨
      (∃ deeper, above = kind :: deeper ∧ Stands item inner (deeper ++ [last])) ∨
      Stands item rest (above ++ [last]) := by
  rw [stands_cons_group]
  cases above with
  | nil => simp [eq_comm]
  | cons outer deeper => simp

/-- Induction over lists of items, into their groups and along them. -/
theorem items_induction {motive : List LayoutItem → Prop} (nil : motive [])
    (input : ∀ id rest, motive rest → motive (.input id :: rest))
    (group : ∀ kind inner rest, motive inner → motive rest → motive (.group kind inner :: rest)) :
    ∀ items, motive items
  | [] => nil
  | .input id :: rest => input id rest (items_induction nil input group rest)
  | .group kind inner :: rest =>
    group kind inner rest (items_induction nil input group inner)
      (items_induction nil input group rest)

end LayoutItem

namespace NodeView

open LayoutItem

/-- The conditional groups among some kinds of groups all show their items. -/
def Shows (v : NodeView) (above : List GroupKind) : Prop :=
  ∀ c, .conditional c ∈ above → v.Meets c

/-- The groups of a node. -/
def groups (v : NodeView) : List LayoutItem :=
  v.signature.schema.groups.map fun g => .group g.kind g.items

/-- Some occurrence of an input is in or below a conditional group whose condition fails. -/
def Hides (v : NodeView) (id : InputId) : Prop :=
  ∃ above, Stands (.input id) v.groups above ∧ ∃ c, .conditional c ∈ above ∧ ¬ v.Meets c

/-- Some occurrence of an input is a direct item of a required group whose condition is met and
which is shown. -/
def Requires (v : NodeView) (id : InputId) : Prop :=
  ∃ above c, Stands (.input id) v.groups (above ++ [.required c]) ∧ v.Meets c ∧ v.Shows above

variable {v : NodeView} {kind : GroupKind} {above : List GroupKind}

/-- Outside of groups all is shown. -/
@[simp] theorem shows_nil : v.Shows [] := fun _ mem => nomatch mem

/-- One group shows what it has if its condition holds. -/
theorem shows_singleton : v.Shows [kind] ↔ ∀ c, kind = .conditional c → v.Meets c := by
  simp [Shows, eq_comm]

/-- Every group above an item has to show it. -/
theorem shows_cons : v.Shows (kind :: above) ↔ v.Shows [kind] ∧ v.Shows above := by
  simp [Shows, or_imp, forall_and]

/-- An item is hidden by a condition that fails. -/
theorem not_shows_iff : ¬ v.Shows above ↔ ∃ c, .conditional c ∈ above ∧ ¬ v.Meets c := by
  simp [Shows]

end NodeView

namespace Layout

open LayoutItem

variable {v : NodeView} {visible required : Bool} {layout : Layout}

variable {kind : GroupKind} {rest items : List LayoutItem}

/-- A group shows its items unless it is conditional and its condition fails, and requires them if
its condition asks for that. Nothing is shown or required below a group that is not shown. -/
theorem standing_eq_ok {shown demanded : Bool}
    (stood : standing v visible kind = .ok (shown, demanded)) :
    (shown = true ↔ visible = true ∧ v.Shows [kind]) ∧
    (demanded = true ↔ visible = true ∧ ∃ c, kind = .required c ∧ v.Meets c) := by
  cases kind with
  | ordinary =>
    obtain ⟨rfl, rfl⟩ := Prod.mk.inj (Except.ok.inj stood)
    simp [NodeView.shows_singleton]
  | conditional c =>
    cases visible with
    | false =>
      obtain ⟨rfl, rfl⟩ := Prod.mk.inj (Except.ok.inj stood)
      simp
    | true =>
      obtain ⟨answer, answered, same⟩ := bind_eq_ok_iff.mp stood
      obtain ⟨rfl, rfl⟩ := Prod.mk.inj (Except.ok.inj same)
      simp [NodeView.shows_singleton, NodeView.holds_iff answered]
  | required c =>
    cases visible with
    | false =>
      obtain ⟨rfl, rfl⟩ := Prod.mk.inj (Except.ok.inj stood)
      simp
    | true =>
      obtain ⟨answer, answered, same⟩ := bind_eq_ok_iff.mp stood
      obtain ⟨rfl, rfl⟩ := Prod.mk.inj (Except.ok.inj same)
      simp [NodeView.shows_singleton, NodeView.holds_iff answered]

/-- Only a group that is shown asks for the answer to its condition. -/
theorem exists_standing_iff : (∃ result, standing v visible kind = .ok result) ↔
      (visible = true → ∀ c, kind.condition? = some c → ∃ answer, v.holds c = .ok answer) := by
  cases kind with
  | ordinary => simp [standing, GroupKind.condition?, pure, Except.pure]
  | conditional c =>
    cases visible with
    | false => simp [standing, pure, Except.pure]
    | true => simp [standing, GroupKind.condition?, bind_eq_ok_iff, pure, Except.pure]
  | required c =>
    cases visible with
    | false => simp [standing, pure, Except.pure]
    | true => simp [standing, GroupKind.condition?, bind_eq_ok_iff, pure, Except.pure]

/-- An input adds itself to the layout. -/
theorem ofItems_input_eq_ok_iff {id : InputId} :
    ofItems v visible required (.input id :: rest) = .ok layout ↔
      ∃ later, ofItems v visible required rest = .ok later ∧
        join ⟨if visible then [] else [id], if required then [id] else []⟩ later = layout := by
  rw [ofItems, ofItem]
  simp [bind_eq_ok_iff, pure, Except.pure]

/-- A group adds what stands in it. -/
theorem ofItems_group_eq_ok_iff {inner rest : List LayoutItem} :
    ofItems v visible required (.group kind inner :: rest) = .ok layout ↔
      ∃ result first later, standing v visible kind = .ok result ∧
        ofItems v result.1 result.2 inner = .ok first ∧
        ofItems v visible required rest = .ok later ∧ join first later = layout := by
  rw [ofItems, ofItem]
  simp only [bind_eq_ok_iff, pure, Except.pure, Except.ok.injEq]
  constructor
  · rintro ⟨first, ⟨result, stood, computed⟩, later, after, rfl⟩
    exact ⟨result, first, later, stood, computed, after, rfl⟩
  · rintro ⟨result, first, later, stood, computed, after, rfl⟩
    exact ⟨first, ⟨result, stood, computed⟩, later, after, rfl⟩

/-- An input is hidden if it occurs where nothing is shown or below a conditional group that does
not show its items. -/
theorem mem_hidden_ofItems (id : InputId)
    (computed : ofItems v visible required items = .ok layout) :
    id ∈ layout.hidden ↔
      ∃ above, Stands (.input id) items above ∧ ¬ (visible = true ∧ v.Shows above) := by
  induction items using items_induction generalizing visible required layout with
  | nil =>
    rw [ofItems] at computed
    obtain rfl := Except.ok.inj computed
    simp
  | input other rest ih =>
    obtain ⟨later, after, rfl⟩ := ofItems_input_eq_ok_iff.mp computed
    rw [join, mem_append, ih after]
    simp only [stands_cons_input, input.injEq, or_and_right, exists_or, and_assoc, exists_eq_left]
    refine or_congr_left ?_
    cases visible <;> simp
  | group kind inner rest ihInner ihRest =>
    obtain ⟨⟨shown, demanded⟩, first, later, stood, within, after, rfl⟩ :=
      ofItems_group_eq_ok_iff.mp computed
    rw [join, mem_append, ihInner within, ihRest after, (standing_eq_ok stood).1]
    simp only [stands_cons_group, reduceCtorEq, and_false, false_or, or_and_right, exists_or]
    refine or_congr_left ?_
    constructor
    · rintro ⟨deeper, stands, hidden⟩
      refine ⟨_, ⟨deeper, rfl, stands⟩, ?_⟩
      rwa [NodeView.shows_cons, ← and_assoc]
    · rintro ⟨_, ⟨deeper, rfl, stands⟩, hidden⟩
      refine ⟨deeper, stands, ?_⟩
      rwa [NodeView.shows_cons, ← and_assoc] at hidden

/-- An input is required if it stands directly where inputs are required or in a shown group that
requires its items. -/
theorem mem_required_ofItems (id : InputId)
    (computed : ofItems v visible required items = .ok layout) :
    id ∈ layout.required ↔ (required = true ∧ .input id ∈ items) ∨
      ∃ above c, Stands (.input id) items (above ++ [.required c]) ∧ v.Meets c ∧
        visible = true ∧ v.Shows above := by
  induction items using items_induction generalizing visible required layout with
  | nil =>
    rw [ofItems] at computed
    obtain rfl := Except.ok.inj computed
    simp
  | input other rest ih =>
    obtain ⟨later, after, rfl⟩ := ofItems_input_eq_ok_iff.mp computed
    rw [join, mem_append, ih after]
    simp only [stands_cons_input, append_eq_nil_iff, cons_ne_self, and_false, false_and,
      false_or, mem_cons, input.injEq, and_or_left, ← or_assoc]
    refine or_congr_left (or_congr_left ?_)
    cases required <;> simp
  | group kind inner rest ihInner ihRest =>
    obtain ⟨⟨shown, demanded⟩, first, later, stood, within, after, rfl⟩ :=
      ofItems_group_eq_ok_iff.mp computed
    obtain ⟨shownIff, demandedIff⟩ := standing_eq_ok stood
    rw [join, mem_append, ihInner within, ihRest after, shownIff, demandedIff]
    simp only [stands_group_append, mem_cons, reduceCtorEq, false_or]
    constructor
    · rintro ((⟨⟨seen, c, rfl, met⟩, mem⟩ | ⟨above, c, stands, met, ⟨seen, shown⟩, shows⟩) |
        direct | ⟨above, c, stands, met⟩)
      · exact .inr ⟨[], c, .inl ⟨rfl, rfl, mem⟩, met, seen, NodeView.shows_nil⟩
      · exact .inr ⟨kind :: above, c, .inr (.inl ⟨above, rfl, stands⟩), met, seen,
          NodeView.shows_cons.mpr ⟨shown, shows⟩⟩
      · exact .inl direct
      · exact .inr ⟨above, c, .inr (.inr stands), met⟩
    · rintro (direct | ⟨above, c, ⟨rfl, rfl, mem⟩ | ⟨deeper, rfl, stands⟩ | stands, met, seen,
        shows⟩)
      · exact .inr (.inl direct)
      · exact .inl (.inl ⟨⟨seen, c, rfl, met⟩, mem⟩)
      · obtain ⟨shown, shows⟩ := NodeView.shows_cons.mp shows
        exact .inl (.inr ⟨deeper, c, stands, met, ⟨seen, shown⟩, shows⟩)
      · exact .inr (.inr ⟨above, c, stands, met, seen, shows⟩)

/-- There is a layout if and only if each condition that is asked for has an answer. -/
theorem exists_ofItems_iff :
    (∃ layout, ofItems v visible required items = .ok layout) ↔
      ∀ above kind inner c, Stands (.group kind inner) items above → kind.condition? = some c →
        visible = true ∧ v.Shows above → ∃ answer, v.holds c = .ok answer := by
  induction items using items_induction generalizing visible required with
  | nil => simp [ofItems, pure, Except.pure]
  | input other rest ih =>
    simp only [ofItems_input_eq_ok_iff, stands_cons_input, reduceCtorEq, and_false, false_or]
    have rests : (∃ layout, ofItems v visible required rest = .ok layout) ↔ _ := ih
    rw [← rests]
    constructor
    · rintro ⟨_, later, after, -⟩
      exact ⟨later, after⟩
    · rintro ⟨later, after⟩
      exact ⟨_, later, after, rfl⟩
  | group kind inner rest ihInner ihRest =>
    constructor
    · rintro ⟨_, computed⟩ above outer items c stands has asked
      obtain ⟨⟨shown, demanded⟩, first, later, stood, within, after, -⟩ :=
        ofItems_group_eq_ok_iff.mp computed
      rcases stands_cons_group.mp stands with ⟨rfl, same⟩ | ⟨deeper, rfl, below⟩ | below
      · obtain ⟨rfl, rfl⟩ := group.inj same
        exact exists_standing_iff.mp ⟨_, stood⟩ asked.1 c has
      · obtain ⟨here, deep⟩ := NodeView.shows_cons.mp asked.2
        have seen : shown = true := (standing_eq_ok stood).1.mpr ⟨asked.1, here⟩
        exact ihInner.mp ⟨first, within⟩ deeper outer items c below has ⟨seen, deep⟩
      · exact ihRest.mp ⟨later, after⟩ above outer items c below has asked
    · intro answers
      obtain ⟨⟨shown, demanded⟩, stood⟩ : ∃ result, standing v visible kind = .ok result :=
        exists_standing_iff.mpr fun seen c has =>
          answers [] kind inner c (.here mem_cons_self) has ⟨seen, NodeView.shows_nil⟩
      obtain ⟨first, within⟩ : ∃ first, ofItems v shown demanded inner = .ok first := by
        refine ihInner.mpr fun above outer items c below has asked => ?_
        obtain ⟨seen, here⟩ := (standing_eq_ok stood).1.mp asked.1
        exact answers (kind :: above) outer items c (.inside mem_cons_self below) has
          ⟨seen, NodeView.shows_cons.mpr ⟨here, asked.2⟩⟩
      obtain ⟨later, after⟩ : ∃ later, ofItems v visible required rest = .ok later :=
        ihRest.mpr fun above outer items c below =>
          answers above outer items c (stands_cons_group.mpr (.inr (.inr below)))
      exact ⟨_, ofItems_group_eq_ok_iff.mpr ⟨_, first, later, stood, within, after, rfl⟩⟩

/-- The layout of a node hides the inputs that some conditional group hides, wherever they occur,
and requires those that some shown group requires. Conditions are met as they say. -/
theorem ofNode_means (v : NodeView) :
    (∀ c answer, v.holds c = .ok answer → (answer = true ↔ v.Meets c)) ∧
    ((∃ layout, ofNode v = .ok layout) ↔
      ∀ above kind inner c, Stands (.group kind inner) v.groups above → kind.condition? = some c →
        v.Shows above → ∃ answer, v.holds c = .ok answer) ∧
    ∀ layout, ofNode v = .ok layout →
      (∀ id, id ∈ layout.hidden ↔ v.Hides id) ∧ (∀ id, id ∈ layout.required ↔ v.Requires id) ∧
      ∀ input, layout.needs input = true ↔
        ¬ v.Hides input.id ∧ (input.optional = false ∨ v.Requires input.id) := by
  have walks : ofNode v = ofItems v true false v.groups := rfl
  rw [walks]
  refine ⟨fun c answer => NodeView.holds_iff, ?_, fun layout computed => ?_⟩
  · rw [exists_ofItems_iff]
    simp only [true_and]
  · have hides (id : InputId) : id ∈ layout.hidden ↔ v.Hides id := by
      rw [mem_hidden_ofItems id computed, NodeView.Hides]
      simp only [true_and, NodeView.not_shows_iff]
    have requires (id : InputId) : id ∈ layout.required ↔ v.Requires id := by
      rw [mem_required_ofItems id computed, NodeView.Requires]
      simp only [Bool.false_eq_true, false_and, false_or, true_and]
    refine ⟨hides, requires, fun input => ?_⟩
    simp [needs, hides, requires]

namespace Switched

/-- What is shown while the switch is off. -/
def idle : LayoutItem :=
  .group (.conditional (.oneOf 0 [.string "off"]))
    [.group (.required (.and [])) [.input 1], .input 2]

/-- What is required as long as nothing is known about the first input. -/
def eager : LayoutItem :=
  .group (.required (.not (.hasType 1 (.string .all) false)))
    [.input 3, .group .ordinary [.input 4]]

/-- A node that is switched on. -/
def view : NodeView :=
  ⟨⟨"switch", "switch", [(0, .string "on")]⟩,
    ⟨⟨⟨"switch", "switch", [], [], false, .regular, [⟨.ordinary, [idle, eager, .input 2]⟩]⟩,
      [], [], []⟩, ⟨"switch", [], [], [], []⟩⟩,
    ⟨"switch", [], [], [], []⟩, ⟨[], []⟩⟩

end Switched

open Switched in
/-- An input that occurs twice is hidden by one of its occurrences. A required group that is not
shown requires nothing, and one that is shown requires its direct items only. -/
theorem ofNode_means_switched :
    ofNode view = .ok ⟨[1, 2], [3]⟩ ∧ (∀ id, id ∈ [1, 2] ↔ view.Hides id) ∧
      (∀ id, id ∈ [3] ↔ view.Requires id) := by
  have laid : ofNode view = .ok ⟨[1, 2], [3]⟩ := rfl
  obtain ⟨hides, requires, -⟩ := (ofNode_means view).2.2 _ laid
  exact ⟨laid, hides, requires⟩

end Layout

end TypeFlow
