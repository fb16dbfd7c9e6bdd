import PathCompletion.PointsTo.Value
import PathCompletion.Flow.Procedure
import PathCompletion.Error

/-!
Points-to analysis of one procedure, by allocation sites and without regard to the order
of execution. Operations pass values on to the operations that use them, stores pass them
on to cells, and references read the cells; passes over the arena repeat until nothing
grows.
-/

namespace PathCompletion

inductive Cell where
  | ofLocal (id : LocalId)
  | ofField (id : FieldId)
  | ofParameter (index : Nat)
  deriving DecidableEq

namespace Cell

def numbers : Cell → List Nat
  | .ofLocal id => [0, id.index]
  | .ofField id => [1, id.index]
  | .ofParameter index => [2, index]

instance : Key Cell where
  key := numbers
  injective := by
    rintro (⟨⟨i⟩⟩ | ⟨⟨i⟩⟩ | i) (⟨⟨j⟩⟩ | ⟨⟨j⟩⟩ | j) same <;> simp_all [numbers]

end Cell

structure PointsToState where
  values : SortedMap OperationId PointsTo := ∅
  cells : SortedMap Cell PointsTo := ∅
  deriving DecidableEq

namespace PointsToState

def value (s : PointsToState) (operation : OperationId) : PointsTo :=
  (s.values.get? operation).getD .undefined

def cell (s : PointsToState) (c : Cell) : PointsTo := (s.cells.get? c).getD .undefined

def widenValue (s : PointsToState) (operation : OperationId) (v : PointsTo) : PointsToState :=
  { s with values := s.values.insert operation ((s.value operation).union v) }

def widenCell (s : PointsToState) (c : Cell) (v : PointsTo) : PointsToState :=
  { s with cells := s.cells.insert c ((s.cell c).union v) }

end PointsToState

namespace Procedure

/-- A parameter holds one location of its own on entry, or null. -/
def parameterEntry (p : Procedure) (index : Nat) : PointsTo :=
  match p.parameters[index]? with
  | some parameter => .single ⟨.parameter p.id index, some parameter.ty⟩ .maybeNull
  | none => .unknown

def cellOf? (p : Procedure) (op : Operation) : Option Cell :=
  match op.kind with
  | .localReference id => some (.ofLocal id)
  | .parameterReference index => some (.ofParameter index)
  | .fieldReference field target => if p.isThis target then some (.ofField field) else none
  | _ => none

def allocation (p : Procedure) (operation : OperationId) (ty : Option TypeId) : Location :=
  ⟨.allocation (p.site operation), ty⟩

def evaluate (p : Procedure) (s : PointsToState) (id : OperationId) (op : Operation) :
    PointsTo :=
  match op.kind with
  | .objectCreation .. => .single (p.allocation id op.ty) .notNull
  | .invocation .. =>
      if op.ty.isSome then .single (p.allocation id op.ty) .maybeNull else .undefined
  | .argument _ .out _ => .single (p.allocation id op.ty) .maybeNull
  | .argument _ _ value | .assignment _ value | .conversion value => s.value value
  | .localReference cell => s.cell (.ofLocal cell)
  | .parameterReference index => (p.parameterEntry index).union (s.cell (.ofParameter index))
  | .fieldReference field target =>
      if p.isThis target then
        (PointsTo.single ⟨.fieldDefault field, op.ty⟩ .maybeNull).union (s.cell (.ofField field))
      else .unknown
  | .instanceReference | .literal => .known ∅ .notNull
  | .nullLiteral => .null
  | .binary .. | .isNull _ | .returned _ | .thrown _ | .delegateCreation .. | .other _ =>
      .undefined

def store? (id : OperationId) (op : Operation) : Option (OperationId × OperationId) :=
  match op.kind with
  | .assignment target value => some (target, value)
  | .argument _ .out place | .argument _ .ref place => some (place, id)
  | _ => none

def pointsToStep (p : Procedure) (s : PointsToState) (id : OperationId) : PointsToState :=
  match p.operation? id with
  | none => s
  | some op =>
      let valued := s.widenValue id (p.evaluate s id op)
      match store? id op with
      | none => valued
      | some (place, stored) =>
          match (p.operation? place).bind p.cellOf? with
          | none => valued
          | some cell => valued.widenCell cell (valued.value stored)

def pointsToPass (p : Procedure) (s : PointsToState) : PointsToState :=
  (p.operations.map Operation.id).foldl p.pointsToStep s

def pointsToIterate (p : Procedure) : Nat → PointsToState → PointsToState
  | 0, s => s
  | fuel + 1, s =>
      let next := p.pointsToPass s
      if next = s then s else p.pointsToIterate fuel next

/-- Every operation and every cell holds at most one location for each operation and each
parameter, and rises at most twice in extent and twice in nullness; its first appearance
may be one more change. -/
def pointsToBound (p : Procedure) : Nat :=
  2 * p.operations.length * (p.operations.length + p.parameters.length + 5) + 1

def pointsToState (p : Procedure) : PointsToState := p.pointsToIterate p.pointsToBound {}

def leavesProcedure (p : Procedure) (place : OperationId) : Bool :=
  match (p.operation? place).map Operation.kind with
  | some (.fieldReference ..) => true
  | some (.parameterReference index) =>
      match p.parameters[index]? with
      | some parameter => parameter.passing ≠ .none
      | none => false
  | _ => false

def escapesAt? (p : Procedure) (s : PointsToState) (op : Operation) : Option LocationSet :=
  match op.kind with
  | .assignment target value =>
      if p.leavesProcedure target then some (s.value value).locations else none
  | .returned (some value) => some (s.value value).locations
  | .argument _ .ref value => some ((s.value value).locations.erase (p.allocation op.id op.ty))
  | .delegateCreation _ captures =>
      some (captures.foldl (fun escaped l => escaped ∪ (s.cell (.ofLocal l)).locations) ∅)
  | _ => none

def escapes (p : Procedure) (s : PointsToState) : SortedMap OperationId LocationSet :=
  .ofList (p.operations.filterMap fun op =>
    (p.escapesAt? s op).map fun escaped => (op.id, escaped.filter fun l => !l.isNull))

def localOracle (p : Procedure) : Oracle :=
  let state := p.pointsToState
  let escapes := p.escapes state
  { pointsTo := state.value
    escaped := fun operation => (escapes.get? operation).getD ∅
    parameter := p.parameterEntry }

def strayOperation? (p : Procedure) : Option OperationId :=
  (p.operations.map Operation.id).find? fun id => p.operations.length ≤ id.index

def localOracle? (p : Procedure) : Except AnalysisError Oracle :=
  match p.strayOperation? with
  | some id => .error (.strayOperation id.render)
  | none => .ok p.localOracle

end Procedure

end PathCompletion
