import PathCompletion.Analysis.Context

/-!
The rules by which states change, as functions on states: creation, completion, escape,
invalidation, the effect of a call on its arguments, and the exchange of states between a
caller and a callee.
-/

namespace PathCompletion

def State.joinAt? (s : State) (locations : LocationSet) : Option Value :=
  Value.domain.joinOnto none (locations.toList.filterMap s.get?)

def Body.returned (b : Body) : LocationSet :=
  b.procedure.returnedValues.foldl (fun all value => all ∪ (b.oracle.pointsTo value).locations) ∅

inductive CallShape where
  | constructor
  /-- A factory, or a call of the form `bool TryGet…(…)`. -/
  | method (isFactory tryGet : Bool)
  deriving DecidableEq

def CallShape.isTryGet : CallShape → Bool
  | .constructor => false
  | .method _ tryGet => tryGet

namespace Context

/-! ### Single locations -/

def setValue (c : Context) (s : State) (l : Location) (v : Value) : State :=
  if c.isTrackable l then s.insert l v else s

def setAll (c : Context) (locations : LocationSet) (v : Value) (s : State) : State :=
  locations.toList.foldl (fun s l => c.setValue s l v) s

/-- Changes the values of locations that have one; those that `change` refuses stay. -/
def revise (c : Context) (change : Value → Option Value) (locations : LocationSet) (s : State) :
    State :=
  locations.toList.foldl
    (fun s l => match (s.get? l).bind change with
      | some v => c.setValue s l v
      | none => s) s

/-! ### Creation, completion, escape -/

/-- Instances of a target type begin uncompleted, unless the block cannot be reached. -/
def creates (c : Context) (reachable : Bool) (ty : Option TypeId) : Bool :=
  c.isTarget ty && reachable

def create (c : Context) (reachable : Bool) (ty : Option TypeId) (locations : LocationSet)
    (s : State) : State :=
  if c.creates reachable ty then c.setAll locations .notCompleted s else s

def complete (c : Context) (invocation : OperationId) (target : Option OperationId) (s : State) :
    State :=
  match target with
  | none => s
  | some target =>
      if c.isTarget ((c.procedure.operation? target).bind Operation.ty) then
        c.revise (fun v => v.complete? (c.site invocation)) (c.locations target) s
      else s

def escape (c : Context) (operation : OperationId) (locations : LocationSet) (s : State) : State :=
  c.revise (fun v => v.escape? (c.site operation)) locations s

def invalidate (c : Context) (operation : OperationId) (s : State) : State :=
  c.revise Value.invalidate? (c.locations operation) s

/-- A callee's returned values go to its caller, and what happens to by-reference arguments
is for the call to say. -/
def escapesAtOnce (c : Context) : OperationKind → Bool
  | .returned _ => !c.isCallee
  | .argument _ passing _ => passing = .none
  | _ => true

def applyEscapes (c : Context) (op : Operation) (s : State) : State :=
  if c.escapesAtOnce op.kind then c.escape op.id (c.oracle.escaped op.id) s else s

/-! ### Arguments -/

def argument? (c : Context) (id : OperationId) : Option (Nat × RefKind × OperationId) :=
  match (c.procedure.operation? id).map Operation.kind with
  | some (.argument index passing value) => some (index, passing, value)
  | _ => none

/-- Passing an instance makes the callee its owner. What comes out belongs to the caller. -/
def transfersOwnership (c : Context) (passing : RefKind) (shape : CallShape) : Bool :=
  passing ≠ .out && match shape with
    | .constructor => c.env.options.transferAtConstructor
    | .method isFactory _ => c.env.options.transferAtMethodCall || isFactory

/-- The effect of a call on one of its arguments. An out argument brings a new instance.
A callee that was not analyzed may become the owner of an instance, may hand one back
through the last by-reference argument of a `TryGet`, or lets the argument escape. -/
def finishArgument (c : Context) (reachable : Bool) (shape : CallShape) (analyzed isLast : Bool)
    (argument : OperationId) (s : State) : State :=
  match c.argument? argument with
  | none => s
  | some (_, passing, value) =>
      let ty := (c.procedure.operation? argument).bind Operation.ty
      let s := if passing = .out then c.create reachable ty (c.locations argument) s else s
      if analyzed then s
      else if c.transfersOwnership passing shape then c.escape argument (c.locations value) s
      else if passing = .ref && isLast && shape.isTryGet then
        c.setAll (c.locations value) .notCompleted s
      else if passing = .none then s
      else c.escape argument (c.oracle.escaped argument) s

def finishArguments (c : Context) (reachable : Bool) (shape : CallShape) (analyzed : Bool)
    (arguments : List OperationId) (s : State) : State :=
  arguments.zipIdx.foldl
    (fun s (argument, position) =>
      c.finishArgument reachable shape analyzed (position + 1 = arguments.length) argument s) s

def construct (c : Context) (reachable : Bool) (op : Operation) (arguments : List OperationId)
    (s : State) : State :=
  c.create reachable op.ty (c.locations op.id)
    (c.finishArguments reachable .constructor false arguments s)

def degrade (c : Context) (op : Operation) (arguments : List OperationId) (s : State) : State :=
  let s := if c.isTarget op.ty then c.setAll (c.locations op.id) .unknown s else s
  arguments.foldl
    (fun s argument => match c.argument? argument with
      | some (_, .ref, value) => c.revise (fun _ => some .unknown) (c.locations value) s
      | _ => s) s

/-! ### Callers and callees -/

def bindings (c : Context) (arguments : List OperationId) : List (Nat × LocationSet) :=
  arguments.filterMap fun argument => match c.argument? argument with
    | some (index, .none, value) | some (index, .ref, value) => some (index, c.locations value)
    | _ => none

/-- The state a callee starts with: the caller's, and in each parameter what is passed. -/
def seed (c : Context) (callee : Body) (arguments : List OperationId) (s : State) : State :=
  (c.bindings arguments).foldl
    (fun seeded (index, passed) => match s.joinAt? passed with
      | some v => c.setAll (callee.oracle.parameter index).locations v seeded
      | none => seeded) s

/-- Locations the caller knows take the value they have when the callee ends. -/
def adopt (exit : State) (s : State) : State :=
  exit.entries.foldl (fun s (l, v) => if s.contains l then s.insert l v else s) s

def handBack (c : Context) (callee : Body) (arguments : List OperationId) (exit : State)
    (s : State) : State :=
  (c.bindings arguments).foldl
    (fun s (index, passed) => match exit.joinAt? (callee.oracle.parameter index).locations with
      | some v => c.revise (fun _ => some v) passed s
      | none => s) s

def receive (c : Context) (op : Operation) (callee : Body) (exit : State) (s : State) : State :=
  if c.isTarget op.ty then
    match exit.joinAt? callee.returned with
    | some v => c.setAll (c.locations op.id) v s
    | none => s
  else s

def applyCallee (c : Context) (op : Operation) (callee : Body) (arguments : List OperationId)
    (exit : State) (s : State) : State :=
  c.receive op callee exit (c.handBack callee arguments exit (adopt exit s))

/-! ### Procedure boundaries -/

/-- The state that enters the procedure. A constructor to which ownership passes owns what
its parameters hold. -/
def entryState (c : Context) : State :=
  let start := c.initial.getD ∅
  if c.env.options.transferAtConstructor && c.procedure.isConstructor then
    (List.range c.procedure.parameters.length).foldl
      (fun s index => (c.oracle.parameter index).locations.toList.foldl
        (fun s l => if s.contains l then s else c.setValue s l .notCompleted) s) start
  else start

/-- Whatever by-reference parameters hold at the exit leaves with the caller. -/
def release (c : Context) (s : State) : State :=
  c.procedure.parameters.zipIdx.foldl
    (fun s (parameter, index) =>
      if parameter.passing = .none then s
      else c.setAll (c.oracle.parameter index).locations .unknown s) s

/-! ### Branch conditions -/

def refineComparison (c : Context) (condition : Condition) (operator : BinaryOperator)
    (left right : OperationId) (s : State) : State :=
  let onNullPath := condition = .whenTrue && operator.isEquality ||
    condition = .whenFalse && operator.isInequality
  if !onNullPath then s
  else if c.oracle.nullness right = .null then c.invalidate left s
  else if c.oracle.nullness left = .null then c.invalidate right s
  else s

/-- A call that answers false, and was not analyzed, has brought nothing out. -/
def refineTryGet (c : Context) (analyzed : OperationId → Bool) (condition : Condition)
    (op : Operation) (method : MethodId) (arguments : List OperationId) (s : State) : State :=
  let answersBool := match c.env.symbols.method method with
    | some signature => c.returnsBool signature
    | none => false
  if condition = .whenFalse && !analyzed op.id && answersBool then
    arguments.foldl
      (fun s argument => match c.argument? argument with
        | some (_, .out, _) => c.invalidate argument s
        | _ => s) s
  else s

def refine (c : Context) (analyzed : OperationId → Bool) (condition : Condition) (s : State)
    (op : Operation) : State :=
  match op.kind with
  | .binary operator left right => c.refineComparison condition operator left right s
  | .isNull operand => if condition = .whenTrue then c.invalidate operand s else s
  | .invocation method _ arguments =>
      c.refineTryGet analyzed condition op method arguments s
  | _ => s

def refineEdge (c : Context) (analyzed : OperationId → Bool) (block : Block) (edge : Edge)
    (s : State) : State :=
  match block.branchValue with
  | none => s
  | some value =>
      if edge.condition = .always then s
      else (c.procedure.postorder value).foldl (c.refine analyzed edge.condition) s

end Context

end PathCompletion
