import PathCompletion.Completion.Value
import PathCompletion.Flow.Procedure
import PathCompletion.PointsTo.Value
import PathCompletion.Settings.Config
import PathCompletion.Settings.Options
import PathCompletion.Symbol.Target

/-!
What an analysis of one procedure knows: the procedure with its alias information, the
symbols and settings it shares with the analyses of its callees, and its callers.
-/

namespace PathCompletion

structure Body where
  procedure : Procedure
  oracle : Oracle

structure Provider where
  body? : MethodId → Option Body
  /-- Being asked for this method, the provider cancels the analysis. -/
  cancelsOn : MethodId → Bool := fun _ => false

structure Environment where
  symbols : Resolver
  provider : Provider
  target : Target
  options : Options
  config : Config

structure Context where
  env : Environment
  body : Body
  /-- The procedures whose calls led here, the nearest first. -/
  callers : List Procedure := []
  depth : Nat := 0
  /-- The state that a caller, or the host, gives the entry. -/
  initial : Option State := none

namespace Context

def procedure (c : Context) : Procedure := c.body.procedure

def oracle (c : Context) : Oracle := c.body.oracle

def isCallee (c : Context) : Bool := !c.callers.isEmpty

def isOnCallChain (c : Context) (method : MethodId) : Bool :=
  (c.procedure :: c.callers).any fun p => p.method = some method

def forCallee (c : Context) (callee : Body) (initial : State) : Context :=
  { env := c.env
    body := callee
    callers := c.procedure :: c.callers
    depth := c.depth + 1
    initial := some initial }

structure IsRoot (c : Context) : Prop where
  callers : c.callers = []
  depth : c.depth = 0

def locations (c : Context) (operation : OperationId) : LocationSet :=
  (c.oracle.pointsTo operation).locations

def site (c : Context) (operation : OperationId) : Site := c.procedure.site operation

/-! ### Types -/

/-- Instances of the type must be completed. A type of unknown kind may be one of
references. -/
def isTarget (c : Context) : Option TypeId → Bool
  | none => false
  | some ty =>
      ((c.env.symbols.typeKind ty).map TypeKind.isReferenceLike).getD true &&
        c.env.symbols.isTarget ty c.env.target.type

def isTrackable (c : Context) (l : Location) : Bool := !l.isNull && c.isTarget l.ty

/-- A static method that returns the target type makes an instance, as `new` does. -/
def isFactory (c : Context) (signature : Signature) : Bool :=
  signature.isStatic && signature.returnType = some c.env.target.type

def returnsBool (c : Context) (signature : Signature) : Bool :=
  (signature.returnType.bind c.env.symbols.typeKind) = some .boolean

def canCarryTarget (c : Context) (ty : TypeId) : Bool :=
  (match c.env.symbols.typeKind ty with
    | some .object | some .delegate => true
    | _ => false) || c.isTarget (some ty)

def mayPassTarget (c : Context) (signature : Signature) : Bool :=
  signature.returnType.any c.canCarryTarget || signature.parameterTypes.any c.canCarryTarget

end Context

end PathCompletion
