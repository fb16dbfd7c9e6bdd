import PathCompletion.Analysis.Rule
import PathCompletion.Dataflow.Fixpoint

/-!
How operations are visited. Most rules are functions on states; what a visit remembers
beyond the state is which calls were analyzed, which were not, and which fields are
tracked.
-/

namespace PathCompletion

structure Stats where
  iterations : Nat := 0
  blocks : Nat := 0
  trackedLocations : Nat := 0
  /-- Call sites whose callee was analyzed, those in callees included. -/
  interproceduralCalls : Nat := 0
  /-- Call sites into unknown code, those in callees included. -/
  degradedCalls : Nat := 0
  /-- Edge updates that went down the domain, those in callees included. -/
  regressions : Nat := 0
  deriving DecidableEq

def Stats.total (count : Stats → Nat) (all : List Stats) : Nat :=
  all.foldr (fun stats sum => count stats + sum) 0

abbrev TrackedFields := SortedMap FieldId PointsTo

structure Result where
  procedure : ProcedureId
  snapshots : SortedMap BlockId (Snapshot State)
  exit : BlockId
  /-- Absent when fields are not tracked. -/
  fields : Option TrackedFields
  stats : Stats

def Result.exitState? (r : Result) : Option State :=
  (r.snapshots.get? r.exit).map Snapshot.output

def Result.valueAtExit? (r : Result) (l : Location) : Option Value :=
  r.exitState?.bind fun s => s.get? l

structure Memory where
  fields : Option TrackedFields := none
  /-- The calls that were analyzed, with the statistics of the callee. -/
  analyzed : SortedMap OperationId Stats := ∅
  degraded : SortedSet OperationId := ∅
  cancelled : Bool := false

namespace Memory

def noteDegraded (m : Memory) (call : OperationId) : Memory :=
  { m with analyzed := m.analyzed.erase call, degraded := m.degraded.insert call }

/-- Fields that the callee tracks and the caller does not yet are tracked from now on. -/
def noteAnalyzed (m : Memory) (call : OperationId) (result : Result) : Memory :=
  { m with
    fields := match m.fields, result.fields with
      | some mine, some theirs => some (.mergeWith (fun old _ => old) mine theirs)
      | fields, _ => fields
    analyzed := m.analyzed.insert call result.stats
    degraded := m.degraded.erase call }

end Memory

abbrev Runner := Context → Bool → Except AnalysisError Result × Bool

namespace Context

/-- The first reference to a field of the current instance, on any path, tracks the field;
its first content is then created on every path that refers to it. -/
def visitField (c : Context) (reachable : Bool) (op : Operation) (field : FieldId)
    (target : Option OperationId) (s : State) (m : Memory) : State × Memory :=
  let content := c.oracle.pointsTo op.id
  match m.fields, content.singleLocation? with
  | some fields, some l =>
      if !c.procedure.isThis target || !l.isFieldDefault || !c.creates reachable op.ty then (s, m)
      else if !fields.contains field then
        (c.create reachable op.ty content.locations s,
          { m with fields := some (fields.insert field content) })
      else if !s.contains l then (c.create reachable op.ty content.locations s, m)
      else (s, m)
  | _, _ => (s, m)

/-- Runs the analysis of a callee. A soft failure counts as no analysis. -/
def runCallee (run : Runner) (child : Context) : Step Memory (Option Result) := do
  let (outcome, cancelled) := run child (← get).cancelled
  modify fun m => { m with cancelled }
  match outcome with
  | .ok result => return some result
  | .error error => if error.isSoft then return none else throw error

/-- The callee of a call and its analysis, if calls are followed, the call matters, the
callee is not under analysis already, the chain may grow, and there is a body. -/
def analyzeCall (c : Context) (descend : Option Runner) (method : MethodId)
    (signature : Signature) (arguments : List OperationId) (s : State) :
    Step Memory (Option (Body × Result)) := do
  if !c.env.config.interprocedural || !c.mayPassTarget signature || c.isOnCallChain method then
    return none
  match descend with
  | none => return none
  | some run =>
      modify fun m => { m with cancelled := m.cancelled || c.env.provider.cancelsOn method }
      match c.env.provider.body? method with
      | none => return none
      | some callee =>
          if (← get).cancelled then throw .cancelled
          let result ← runCallee run (c.forCallee callee (c.seed callee arguments s))
          return result.map fun result => (callee, result)

def enterCall (c : Context) (descend : Option Runner) (op : Operation) (method : MethodId)
    (arguments : List OperationId) (s : State) : Step Memory (State × Bool) := do
  let signature := c.env.symbols.method method
  let outcome ← match signature with
    | some signature => c.analyzeCall descend method signature arguments s
    | none => pure none
  match outcome with
  | some (callee, result) =>
      modify fun m => m.noteAnalyzed op.id result
      match result.exitState? with
      | some exit => return (c.applyCallee op callee arguments exit s, true)
      | none => return (s, true)
  | none =>
      if (signature.map c.mayPassTarget).getD true then
        modify fun m => m.noteDegraded op.id
        return (c.degrade op arguments s, false)
      else return (s, false)

def tryGetName : List Char := ['T', 'r', 'y', 'G', 'e', 't']

def visitInvocation (c : Context) (descend : Option Runner) (reachable : Bool) (op : Operation)
    (method : MethodId) (target : Option OperationId) (arguments : List OperationId) (s : State) :
    Step Memory State := do
  if method = c.env.target.completion then return c.complete op.id target s
  let (entered, analyzed) ← c.enterCall descend op method arguments s
  let signature := c.env.symbols.method method
  let isFactory := signature.any c.isFactory
  let tryGet := signature.any fun signature =>
    c.returnsBool signature && tryGetName.isPrefixOf signature.name.toList
  let finished := c.finishArguments reachable (.method isFactory tryGet) analyzed arguments entered
  return if isFactory then c.create reachable op.ty (c.locations op.id) finished else finished

def visitOperation (c : Context) (descend : Option Runner) (reachable : Bool) (s : State)
    (op : Operation) : Step Memory State := do
  let visited ← match op.kind with
    | .objectCreation _ arguments => pure (c.construct reachable op arguments s)
    | .invocation method target arguments =>
        c.visitInvocation descend reachable op method target arguments s
    | .fieldReference field target =>
        modifyGet fun m => c.visitField reachable op field target s m
    | _ => pure s
  return c.applyEscapes op visited

def evaluated (c : Context) (block : Block) : List Operation :=
  block.roots.flatMap c.procedure.postorder

def visitBlock (c : Context) (descend : Option Runner) (block : Block) (s : State) :
    Step Memory State := do
  let visited ← (c.evaluated block).foldlM (c.visitOperation descend block.isReachable) s
  return if block.kind = .exit && !c.isCallee then c.release visited else visited

def visitEdge (c : Context) (block : Block) (edge : Edge) (s : State) : Step Memory State := do
  let m ← get
  return c.refineEdge m.analyzed.contains block edge s

def transfer (c : Context) (descend : Option Runner) : Transfer Memory State where
  initial := c.entryState
  visitBlock := c.visitBlock descend
  visitEdge := c.visitEdge
  isCancelled := Memory.cancelled

end Context

end PathCompletion
