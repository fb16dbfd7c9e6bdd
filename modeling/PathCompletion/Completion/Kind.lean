import PathCompletion.Sorted.Key

/-!
The completion state of one location, as a kind. Kinds are declared in increasing order.
-/

namespace PathCompletion

inductive Kind where
  /-- Not an instance that must be completed. -/
  | nonTarget
  /-- Cannot exist on this path, as after a null check. -/
  | invalid
  | notCompleted
  | escaped
  | notCompletedOrEscaped
  | completed
  | maybeCompleted
  | unknown
  deriving DecidableEq

namespace Kind

def all : List Kind :=
  [.nonTarget, .invalid, .notCompleted, .escaped, .notCompletedOrEscaped, .completed,
    .maybeCompleted, .unknown]

def name : Kind → String
  | .nonTarget => "NonTarget"
  | .invalid => "Invalid"
  | .notCompleted => "NotCompleted"
  | .escaped => "Escaped"
  | .notCompletedOrEscaped => "NotCompletedOrEscaped"
  | .completed => "Completed"
  | .maybeCompleted => "MaybeCompleted"
  | .unknown => "Unknown"

def rank : Kind → Nat
  | .nonTarget => 0
  | .invalid => 1
  | .notCompleted => 2
  | .escaped => 3
  | .notCompletedOrEscaped => 4
  | .completed => 5
  | .maybeCompleted => 6
  | .unknown => 7

instance : Key Kind where
  key kind := [kind.rank]
  injective := by
    intro a b same
    cases a <;> cases b <;> simp_all [rank]

def hasEmptyEvidence : Kind → Bool
  | .nonTarget | .invalid | .notCompleted | .unknown => true
  | .escaped | .notCompletedOrEscaped | .completed | .maybeCompleted => false

/-- The join of two kinds that speak of one instance on two paths. The kinds that decide
a join alone, `nonTarget`, `invalid` and `unknown`, have none here. -/
def merge? : Kind → Kind → Option Kind
  | .nonTarget, _ | .invalid, _ | .unknown, _ => none
  | _, .nonTarget | _, .invalid | _, .unknown => none
  | .maybeCompleted, _ | _, .maybeCompleted => some .maybeCompleted
  | .notCompleted, .notCompleted => some .notCompleted
  | .escaped, .escaped => some .escaped
  | .completed, .completed => some .completed
  | .escaped, .completed | .completed, .escaped => some .completed
  | .completed, _ | _, .completed => some .maybeCompleted
  | .notCompletedOrEscaped, _ | _, .notCompletedOrEscaped => some .notCompletedOrEscaped
  | .notCompleted, .escaped | .escaped, .notCompleted => some .notCompletedOrEscaped

end Kind

end PathCompletion
