import PathCompletion.PointsTo.Location

/-!
What an operation may evaluate to: a set of locations, and what is known about null.
-/

namespace PathCompletion

inductive Nullness where
  /-- No information yet. -/
  | undefined
  | null
  | notNull
  | maybeNull
  deriving DecidableEq

namespace Nullness

instance : Inhabited Nullness := ⟨.undefined⟩

def all : List Nullness := [.undefined, .null, .notNull, .maybeNull]

def merge (a b : Nullness) : Nullness :=
  match a, b with
  | .undefined, other => other
  | other, .undefined => other
  | a, b => if a = b then a else .maybeNull

def name : Nullness → String
  | .undefined => "Undefined"
  | .null => "Null"
  | .notNull => "NotNull"
  | .maybeNull => "MaybeNull"

end Nullness

inductive Extent where
  /-- Nothing was computed, as for a call without a result. -/
  | undefined
  /-- The locations are all there are. -/
  | known
  /-- Other locations are possible. -/
  | unknown
  deriving DecidableEq

namespace Extent

def all : List Extent := [.undefined, .known, .unknown]

def merge : Extent → Extent → Extent
  | .unknown, _ | _, .unknown => .unknown
  | .undefined, other | other, .undefined => other
  | .known, .known => .known

def name : Extent → String
  | .undefined => "Undefined"
  | .known => "Known"
  | .unknown => "Unknown"

end Extent

structure PointsTo where
  extent : Extent
  locations : LocationSet
  nullness : Nullness
  deriving DecidableEq

namespace PointsTo

def undefined : PointsTo := ⟨.undefined, ∅, .undefined⟩

instance : Inhabited PointsTo := ⟨undefined⟩

def unknown : PointsTo := ⟨.unknown, ∅, .maybeNull⟩

def known (locations : LocationSet) (nullness : Nullness) : PointsTo :=
  ⟨.known, locations, nullness⟩

def single (location : Location) (nullness : Nullness) : PointsTo :=
  known (.singleton location) nullness

def null : PointsTo := known ∅ .null

def singleLocation? (v : PointsTo) : Option Location :=
  match v.extent, v.locations.toList with
  | .known, [location] => some location
  | _, _ => none

def union (a b : PointsTo) : PointsTo :=
  ⟨a.extent.merge b.extent, a.locations ∪ b.locations, a.nullness.merge b.nullness⟩

end PointsTo

structure Oracle where
  pointsTo : OperationId → PointsTo
  /-- The locations that become reachable from outside at an operation. -/
  escaped : OperationId → LocationSet
  /-- What a parameter holds on entry. -/
  parameter : Nat → PointsTo

def Oracle.nullness (oracle : Oracle) (operation : OperationId) : Nullness :=
  (oracle.pointsTo operation).nullness

end PathCompletion
