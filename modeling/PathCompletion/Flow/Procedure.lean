import PathCompletion.Flow.Graph

/-!
A procedure: its parameters, the arena of its operations, and its control-flow graph.
-/

namespace PathCompletion

structure Parameter where
  name : String
  ty : TypeId
  passing : RefKind
  deriving DecidableEq

structure Procedure where
  id : ProcedureId
  /-- The symbol it is called by; a lambda has none. -/
  method : Option MethodId
  name : String
  file : String
  isConstructor : Bool
  parameters : List Parameter
  operations : List Operation
  /-- For each place of the arena, the block that evaluates the operation there. -/
  owners : List (Option BlockId)
  graph : Graph
  deriving DecidableEq

namespace Procedure

def operation? (p : Procedure) (id : OperationId) : Option Operation := p.operations[id.index]?

def blockOf? (p : Procedure) (id : OperationId) : Option BlockId := p.owners[id.index]?.join

def insideCatch (p : Procedure) (id : OperationId) : Bool :=
  match p.blockOf? id with
  | some block => p.graph.insideCatch block
  | none => false

def returnedValues (p : Procedure) : List OperationId :=
  p.operations.filterMap fun op => match op.kind with
    | .returned value => value
    | _ => none

def site (p : Procedure) (operation : OperationId) : Site := ⟨p.id, operation⟩

def isThis (p : Procedure) (operation : Option OperationId) : Bool :=
  match operation.bind p.operation? with
  | some op => op.isInstanceReference
  | none => false

def postorderWithin (p : Procedure) : Nat → OperationId → List Operation
  | 0, _ => []
  | depth + 1, id =>
      match p.operation? id with
      | none => []
      | some op => op.children.flatMap (p.postorderWithin depth) ++ [op]

/-- The tree of an operation in the order of evaluation. An operation below which no
chain of operands comes back to itself has no chain longer than the arena. -/
def postorder (p : Procedure) (id : OperationId) : List Operation :=
  p.postorderWithin p.operations.length id

end Procedure

end PathCompletion
