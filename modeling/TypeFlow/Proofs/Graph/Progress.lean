import Mathlib.Logic.Function.Basic
import TypeFlow.Proofs.Graph.Equations

/-!
# Progress of resolving a graph

Nodes are resolved depth first, and the nodes on the way are marked. What is found of a node stays
as it is, and of a settled node nothing more will be found.
-/

namespace TypeFlow

namespace Progress

/-- The instances so far. -/
def table (p : Progress) (id : NodeId) : Option Resolved :=
  match valueAt? id p.slots with
  | some (.resolved r) => some r
  | _ => none

/-- The error of a node so far. -/
def error? (p : Progress) (id : NodeId) : Option NodeError := valueAt? id p.errors

/-- The node is being resolved. -/
def Marked (p : Progress) (id : NodeId) : Prop := valueAt? id p.slots = some .inProgress

/-- Sets how far a node is. -/
def withSlot (p : Progress) (id : NodeId) (slot : Slot) : Progress :=
  { p with slots := setEntry id slot p.slots }

/-- Sets the error of a node. -/
def withError (p : Progress) (id : NodeId) (e : NodeError) : Progress :=
  { p with errors := setEntry id e p.errors }

variable {p : Progress} {id other : NodeId}

/-- The table has what is resolved. -/
theorem table_eq_some_iff {r : Resolved} :
    p.table id = some r ↔ valueAt? id p.slots = some (.resolved r) := by
  unfold table
  split
  · next found => simp [found]
  · next missing =>
    constructor
    · intro h
      cases h
    · intro found
      exact absurd found (missing r)

/-- A marked node is not resolved yet. -/
theorem Marked.table_eq_none (marked : p.Marked id) : p.table id = none := by
  unfold table
  rw [marked]

/-- A node without a slot is not resolved. -/
theorem table_eq_none_of_free (free : valueAt? id p.slots = none) : p.table id = none := by
  unfold table
  rw [free]

/-- The table depends on the slots only. -/
theorem table_congr {p' : Progress} (same : p'.slots = p.slots) : p'.table = p.table := by
  unfold table
  rw [same]

/-- Marks depend on the slots only. -/
theorem marked_congr {p' : Progress} (same : p'.slots = p.slots) :
    p'.Marked id ↔ p.Marked id := by
  unfold Marked
  rw [same]

/-- Errors leave the table alone. -/
@[simp] theorem table_withError (e : NodeError) : (p.withError id e).table = p.table := rfl

/-- An error is noted for one node. -/
@[simp] theorem error?_withError (e : NodeError) :
    (p.withError id e).error? = Function.update p.error? id (some e) := by
  funext other
  by_cases same : other = id
  · subst same
    simp [error?, withError, valueAt?_setEntry_self]
  · simp [error?, withError, valueAt?_setEntry_of_ne (Ne.symm same), same]

/-- A resolved node enters the table. -/
@[simp] theorem table_withSlot_resolved (r : Resolved) :
    (p.withSlot id (.resolved r)).table = Function.update p.table id (some r) := by
  funext other
  by_cases same : other = id
  · subst same
    simp [table, withSlot, valueAt?_setEntry_self]
  · simp [table, withSlot, valueAt?_setEntry_of_ne (Ne.symm same), same]

/-- A mark does not change the table. -/
theorem table_withSlot_inProgress (free : p.table id = none) :
    (p.withSlot id .inProgress).table = p.table := by
  funext other
  by_cases same : other = id
  · subst same
    rw [free]
    simp [table, withSlot, valueAt?_setEntry_self]
  · simp [table, withSlot, valueAt?_setEntry_of_ne (Ne.symm same)]

/-- A slot marks at most its own node. -/
theorem marked_withSlot_iff {slot : Slot} : (p.withSlot id slot).Marked other ↔
    if other = id then slot = .inProgress else p.Marked other := by
  by_cases same : other = id
  · subst same
    simp [Marked, withSlot, valueAt?_setEntry_self]
  · simp [Marked, withSlot, valueAt?_setEntry_of_ne (Ne.symm same), same]

end Progress

/-- What is known of instances and errors stays. -/
structure Grows (p p' : Progress) : Prop where
  table : ∀ id r, p.table id = some r → p'.table id = some r
  errors : ∀ id e, p.error? id = some e → p'.error? id = some e

/-- Progress grows to itself. -/
theorem Grows.refl (p : Progress) : Grows p p := ⟨fun _ _ h => h, fun _ _ h => h⟩

/-- Progress grows step by step. -/
theorem Grows.trans {p p' p'' : Progress} (first : Grows p p') (second : Grows p' p'') :
    Grows p p'' :=
  ⟨fun id r h => second.table id r (first.table id r h),
    fun id e h => second.errors id e (first.errors id e h)⟩

/-- Nothing more will be known of a node. -/
inductive Settled (s : Setting) (p : Progress) : NodeId → Prop
  | resolved {id : NodeId} {r : Resolved} (found : p.table id = some r) : Settled s p id
  | unknown {node : Node} (unknown : s.Unknown node)
    (noted : p.error? node.id = some (.unknownSchema node.schemaId)) : Settled s p node.id
  | absent {id : NodeId} (absent : ∀ node ∈ s.graph.nodes, node.id ≠ id) : Settled s p id

section

variable {s : Setting} {stack : List NodeId} {p p' : Progress} {node : Node}
  {signature : Signature}

/-- Settled nodes stay settled. -/
theorem Settled.mono (grows : Grows p p') {id : NodeId} (settled : Settled s p id) :
    Settled s p' id := by
  cases settled with
  | resolved found => exact .resolved (grows.table _ _ found)
  | unknown unknown noted => exact .unknown unknown (grows.errors _ _ noted)
  | absent absent => exact .absent absent

/-- A node that is not resolved is not settled. -/
theorem Settled.ne (distinct : s.Distinct) (known : s.Known node signature)
    (unresolved : p.table node.id = none) {id : NodeId} (settled : Settled s p id) :
    id ≠ node.id := by
  intro same
  cases settled with
  | resolved found =>
    rw [same, unresolved] at found
    cases found
  | unknown unknown noted => exact distinct.apart known unknown same.symm
  | absent absent => exact absent node known.1 same.symm

/-- A settled node with a signature has an instance. -/
theorem Settled.exists_instance (distinct : s.Distinct) (known : s.Known node signature)
    (settled : Settled s p node.id) : ∃ r, p.table node.id = some r := by
  cases found : p.table node.id with
  | none => exact absurd rfl (settled.ne distinct known found)
  | some r => exact ⟨r, rfl⟩

/-- A settled node without a signature has an error. -/
theorem Settled.error?_eq (distinct : s.Distinct) (unknown : s.Unknown node)
    (unresolved : p.table node.id = none) (settled : Settled s p node.id) :
    p.error? node.id = some (.unknownSchema node.schemaId) := by
  generalize same : node.id = id at settled
  cases settled with
  | resolved found =>
    rw [← same, unresolved] at found
    cases found
  | unknown unknown' noted =>
    rw [noted, distinct.eq unknown'.1 unknown.1 same.symm]
  | absent absent => exact absurd same (absent node unknown.1)

end

end TypeFlow
