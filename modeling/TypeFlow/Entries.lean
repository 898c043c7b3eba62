/-!
# Entries

Lists of keys with values. A key that is set again keeps its place.
-/

namespace TypeFlow

variable {α β : Type} [DecidableEq α]

/-- Sets the value of a key: in its place if it is there, at the end otherwise. -/
def setEntry (key : α) (value : β) : List (α × β) → List (α × β)
  | [] => [(key, value)]
  | (k, v) :: rest => if k = key then (k, value) :: rest else (k, v) :: setEntry key value rest

/-- Takes a key out. -/
def dropEntry (key : α) : List (α × β) → List (α × β)
  | [] => []
  | (k, v) :: rest => if k = key then dropEntry key rest else (k, v) :: dropEntry key rest

/-- The value of a key. -/
def valueAt? (key : α) : List (α × β) → Option β
  | [] => none
  | (k, v) :: rest => if k = key then some v else valueAt? key rest

/-- The value that was set last is found. -/
theorem valueAt?_setEntry_self (key : α) (value : β) (entries : List (α × β)) :
    valueAt? key (setEntry key value entries) = some value := by
  induction entries with
  | nil => simp [setEntry, valueAt?]
  | cons e rest ih =>
    by_cases same : e.1 = key <;> simp [setEntry, valueAt?, same, ih]

/-- Other keys keep their values. -/
theorem valueAt?_setEntry_of_ne {key other : α} (differ : key ≠ other) (value : β)
    (entries : List (α × β)) :
    valueAt? other (setEntry key value entries) = valueAt? other entries := by
  induction entries with
  | nil => simp [setEntry, valueAt?, differ]
  | cons e rest ih =>
    by_cases same : e.1 = key
    · have away : ¬ e.1 = other := fun h => differ (same ▸ h)
      simp [setEntry, valueAt?, same, differ]
    · simp [setEntry, valueAt?, same, ih]

/-- A key added at the end counts where it was not there before. -/
theorem valueAt?_concat (key other : α) (value : β) (entries : List (α × β)) :
    valueAt? other (entries ++ [(key, value)]) =
      (valueAt? other entries).or (if key = other then some value else none) := by
  induction entries with
  | nil => simp [valueAt?]
  | cons e rest ih =>
    by_cases same : e.1 = other <;> simp [valueAt?, same, ih]

/-- A key that was taken out has no value. -/
theorem valueAt?_dropEntry_self (key : α) (entries : List (α × β)) :
    valueAt? key (dropEntry key entries) = none := by
  induction entries with
  | nil => rfl
  | cons e rest ih =>
    by_cases same : e.1 = key <;> simp [dropEntry, valueAt?, same, ih]

/-- Other keys keep their values. -/
theorem valueAt?_dropEntry_of_ne {key other : α} (differ : key ≠ other)
    (entries : List (α × β)) : valueAt? other (dropEntry key entries) = valueAt? other entries := by
  induction entries with
  | nil => rfl
  | cons e rest ih =>
    by_cases same : e.1 = key
    · have away : ¬ e.1 = other := fun h => differ (same ▸ h)
      simp [dropEntry, valueAt?, same, differ, ih]
    · simp [dropEntry, valueAt?, same, ih]

end TypeFlow
