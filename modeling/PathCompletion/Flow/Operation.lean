import PathCompletion.Identifier
import PathCompletion.Source

/-!
The operations of a procedure body. An operation names its operands by their place in
the arena of the procedure.
-/

namespace PathCompletion

inductive RefKind where
  | none
  | ref
  | out
  deriving DecidableEq

namespace RefKind

instance : Inhabited RefKind := ⟨.none⟩

def all : List RefKind := [.none, .ref, .out]

def name : RefKind → String
  | .none => "None"
  | .ref => "Ref"
  | .out => "Out"

end RefKind

inductive BinaryOperator where
  | equals
  | notEquals
  | objectValueEquals
  | objectValueNotEquals
  | other
  deriving DecidableEq

namespace BinaryOperator

def all : List BinaryOperator :=
  [.equals, .notEquals, .objectValueEquals, .objectValueNotEquals, .other]

def isEquality : BinaryOperator → Bool
  | .equals | .objectValueEquals => true
  | .notEquals | .objectValueNotEquals | .other => false

def isInequality : BinaryOperator → Bool
  | .notEquals | .objectValueNotEquals => true
  | .equals | .objectValueEquals | .other => false

def name : BinaryOperator → String
  | .equals => "Equals"
  | .notEquals => "NotEquals"
  | .objectValueEquals => "ObjectValueEquals"
  | .objectValueNotEquals => "ObjectValueNotEquals"
  | .other => "Other"

end BinaryOperator

inductive OperationKind where
  | objectCreation (constructor : MethodId) (arguments : List OperationId)
  | invocation (method : MethodId) (target : Option OperationId) (arguments : List OperationId)
  | argument (index : Nat) (passing : RefKind) (value : OperationId)
  | localReference (cell : LocalId)
  | parameterReference (index : Nat)
  | fieldReference (field : FieldId) (target : Option OperationId)
  | instanceReference
  | literal
  | nullLiteral
  | conversion (operand : OperationId)
  | assignment (target value : OperationId)
  | binary (operator : BinaryOperator) (left right : OperationId)
  | isNull (operand : OperationId)
  | returned (value : Option OperationId)
  | thrown (value : Option OperationId)
  | delegateCreation (body : Option ProcedureId) (captures : List LocalId)
  | other (children : List OperationId)
  deriving DecidableEq

def OperationKind.children : OperationKind → List OperationId
  | .objectCreation _ arguments => arguments
  | .invocation _ target arguments => target.toList ++ arguments
  | .argument _ _ value => [value]
  | .fieldReference _ target => target.toList
  | .conversion operand | .isNull operand => [operand]
  | .assignment target value => [target, value]
  | .binary _ left right => [left, right]
  | .returned value | .thrown value => value.toList
  | .other children => children
  | .localReference _ | .parameterReference _ | .instanceReference | .literal | .nullLiteral
  | .delegateCreation .. => []

structure Operation where
  id : OperationId
  kind : OperationKind
  /-- Static type of the result, where there is one. -/
  ty : Option TypeId := none
  source : Option Fragment := none
  parent : Option OperationId := none
  deriving DecidableEq

namespace Operation

def children (op : Operation) : List OperationId := op.kind.children

def isNullLiteral (op : Operation) : Bool :=
  match op.kind with
  | .nullLiteral => true
  | _ => false

def isInstanceReference (op : Operation) : Bool :=
  match op.kind with
  | .instanceReference => true
  | _ => false

end Operation

end PathCompletion
