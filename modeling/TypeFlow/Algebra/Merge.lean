/-!
# Merging pairs

A list is settled when no two of its items merge. `mergeAll` merges pairs until
that is so: it takes the first item that merges with a later one, puts the
result in its place, and fills the gap of the later one with the last item.
Every step makes the list shorter by one, so as many steps as there are items
are enough.
-/

namespace TypeFlow

/-- A list without its last item, which comes first instead. -/
def lastFirst {α : Type} (items : List α) : List α :=
  match items.getLast? with
  | none => []
  | some last => last :: items.dropLast

/-- Takes out the first item that `f` accepts, the last one filling its place. -/
def takeOut {α β : Type} (f : α → Option β) : List α → Option (β × List α)
  | [] => none
  | x :: rest =>
    match f x with
    | some b => some (b, lastFirst rest)
    | none => (takeOut f rest).map fun (b, others) => (b, x :: others)

/-- Merges the first pair that merges. -/
def mergeOnce {α : Type} (merge : α → α → Option α) : List α → Option (List α)
  | [] => none
  | x :: rest =>
    match takeOut (merge x) rest with
    | some (merged, others) => some (merged :: others)
    | none => (mergeOnce merge rest).map (x :: ·)

/-- Merges pairs at most `steps` times. -/
def mergeSteps {α : Type} (merge : α → α → Option α) : (steps : Nat) → List α → List α
  | 0, items => items
  | steps + 1, items =>
    match mergeOnce merge items with
    | some fewer => mergeSteps merge steps fewer
    | none => items

/-- Merges pairs until none is left. -/
def mergeAll {α : Type} (merge : α → α → Option α) (items : List α) : List α :=
  mergeSteps merge items.length items

/-- Moving the last item to the front keeps the number of items. -/
theorem length_lastFirst {α : Type} (items : List α) : (lastFirst items).length = items.length := by
  cases items with
  | nil => rfl
  | cons x rest =>
    have last : (x :: rest).getLast? = some ((x :: rest).getLast (by simp)) :=
      List.getLast?_eq_some_getLast _
    simp [lastFirst, last]

/-- Taking one item out leaves one item less. -/
theorem length_takeOut {α β : Type} {f : α → Option β} {items others : List α} {b : β}
    (taken : takeOut f items = some (b, others)) : others.length + 1 = items.length := by
  induction items generalizing others b with
  | nil => simp [takeOut] at taken
  | cons x rest ih =>
    cases accepted : f x with
    | some c =>
      simp [takeOut, accepted] at taken
      simp [← taken.2, length_lastFirst]
    | none =>
      simp only [takeOut, accepted, Option.map_eq_some_iff] at taken
      obtain ⟨⟨c, left⟩, found, same⟩ := taken
      have shorter := ih found
      simp at same
      simp [← same.2, shorter]

/-- Every merge makes the list shorter by one. -/
theorem length_mergeOnce {α : Type} {merge : α → α → Option α} {items fewer : List α}
    (merged : mergeOnce merge items = some fewer) : fewer.length + 1 = items.length := by
  induction items generalizing fewer with
  | nil => simp [mergeOnce] at merged
  | cons x rest ih =>
    cases taken : takeOut (merge x) rest with
    | some pair =>
      obtain ⟨m, others⟩ := pair
      simp [mergeOnce, taken] at merged
      have shorter := length_takeOut taken
      simp [← merged, shorter]
    | none =>
      simp only [mergeOnce, taken, Option.map_eq_some_iff] at merged
      obtain ⟨left, found, same⟩ := merged
      have shorter := ih found
      simp [← same, shorter]

/-- After `mergeAll` no pair merges any more. -/
theorem mergeOnce_mergeAll {α : Type} (merge : α → α → Option α) (items : List α) :
    mergeOnce merge (mergeAll merge items) = none := by
  suffices settled : ∀ steps items, List.length items ≤ steps →
      mergeOnce merge (mergeSteps merge steps items) = none from settled _ items (Nat.le_refl _)
  intro steps
  induction steps with
  | zero =>
    intro items bound
    have empty : items = [] := List.length_eq_zero_iff.mp (Nat.le_zero.mp bound)
    simp [empty, mergeSteps, mergeOnce]
  | succ steps ih =>
    intro items bound
    cases merged : mergeOnce merge items with
    | none => simp [mergeSteps, merged]
    | some fewer =>
      have shorter := length_mergeOnce merged
      simpa [mergeSteps, merged] using ih fewer (by omega)

end TypeFlow
