import TypeFlow.Algebra.Structs

/-!
# Computations that can fail

An expected failure is an error of the computation's own. Two things end a
computation for good: two shapes of one struct that meet, and functions that
call each other too deeply.
-/

namespace TypeFlow

/-- What ends a computation for good. -/
inductive Fatal where
  /-- Two shapes of one struct met. -/
  | clash (clash : Clash)
  /-- Calls were nested too deeply. -/
  | exhausted

/-- What is said about the end of a computation. -/
def Fatal.message : Fatal → String
  | clash c => c.message
  | exhausted => "calls are nested too deeply"

/-- Why a computation has no result. -/
inductive Halt (ε : Type) where
  | error (error : ε)
  | fatal (fatal : Fatal)

/-- A computation with errors. -/
abbrev Run (ε α : Type) := Except (Halt ε) α

namespace Run

variable {ε δ α : Type}

/-- Ends with an error. -/
def fail (e : ε) : Run ε α := .error (.error e)

/-- A computation that only a clash can end. -/
def ofChecked : Checked α → Run ε α
  | .ok a => .ok a
  | .error c => .error (.fatal (.clash c))

/-- A computation without an end for good. -/
def ofExcept : Except ε α → Run ε α
  | .ok a => .ok a
  | .error e => fail e

/-- Changes the error. -/
def mapError (f : ε → δ) : Run ε α → Run δ α
  | .ok a => .ok a
  | .error (.error e) => .error (.error (f e))
  | .error (.fatal f) => .error (.fatal f)

/-- The result or the error, unless the computation ended for good. -/
def attempt : Run ε α → Except Fatal (Except ε α)
  | .ok a => .ok (.ok a)
  | .error (.error e) => .ok (.error e)
  | .error (.fatal f) => .error f

end Run
end TypeFlow
