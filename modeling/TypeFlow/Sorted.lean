/-!
# Strictly increasing lists

A set of items can be kept as its strictly increasing list. Inserting keeps the
list increasing and leaves an item that is already there alone, so the list of
a set does not depend on the order in which its items arrive.
-/

namespace TypeFlow.Sorted

/-- Puts an item at its place, unless it is there already. -/
def insert {α : Type} (compare : α → α → Ordering) (x : α) : List α → List α
  | [] => [x]
  | y :: rest =>
    match compare x y with
    | .lt => x :: y :: rest
    | .eq => y :: rest
    | .gt => y :: insert compare x rest

/-- The strictly increasing list of the given items. -/
def ofList {α : Type} (compare : α → α → Ordering) (items : List α) : List α :=
  items.foldl (fun sorted x => insert compare x sorted) []

/-- Inserting adds the item and keeps the others. -/
theorem mem_insert {α : Type} {compare : α → α → Ordering}
    (eq_of_compare : ∀ a b, compare a b = .eq → a = b) (x z : α) (items : List α) :
    z ∈ insert compare x items ↔ z = x ∨ z ∈ items := by
  induction items with
  | nil => simp [insert]
  | cons y rest ih =>
    cases order : compare x y with
    | lt => simp [insert, order]
    | eq =>
      obtain rfl := eq_of_compare x y order
      simp [insert, order]
    | gt => simp [insert, order, ih, or_left_comm]

end TypeFlow.Sorted
