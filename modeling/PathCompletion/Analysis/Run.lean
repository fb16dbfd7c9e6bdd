import PathCompletion.Analysis.Transfer

/-!
The analysis of a procedure, callees included. Each level of the call chain has one level
less to descend, so the chain ends.
-/

namespace PathCompletion

namespace Context

def problem (c : Context) (descend : Option Runner) : Problem Memory State where
  name := c.procedure.name
  graph := c.procedure.graph
  domain := State.domain
  transfer := c.transfer descend

/-- Statistics count call sites, however often they were visited. -/
def stats (c : Context) (m : Memory) (solution : Solution State) : Stats :=
  let callees := m.analyzed.entries.map Prod.snd
  { iterations := solution.iterations
    blocks := c.procedure.graph.blocks.length
    trackedLocations := (solution.exitOutput?.map SortedMap.size).getD 0
    interproceduralCalls := m.analyzed.size + Stats.total Stats.interproceduralCalls callees
    degradedCalls := m.degraded.size + Stats.total Stats.degradedCalls callees
    regressions := solution.regressions + Stats.total Stats.regressions callees }

def initialMemory (c : Context) (cancelled : Bool) : Memory :=
  { fields := if c.env.config.trackFields then some ∅ else none, cancelled }

def analyzeWith (descend : Option Runner) : Runner := fun c cancelled =>
  if c.procedure.graph.blocks.isEmpty then
    (.error (.graphUnavailable c.procedure.name), cancelled)
  else
    match ((c.problem descend).solve c.env.config.maxIterations).run
        (c.initialMemory cancelled) with
    | (.error error, m) => (.error error, m.cancelled)
    | (.ok solution, m) =>
        (.ok
          { procedure := c.procedure.id
            snapshots := solution.snapshots
            exit := solution.exit
            fields := m.fields
            stats := c.stats m solution },
          m.cancelled)

def analyzeWithin : Nat → Runner
  | 0 => analyzeWith none
  | levels + 1 => analyzeWith (some (analyzeWithin levels))

def analyze : Runner := fun c cancelled =>
  analyzeWithin (c.env.config.maxDepth - c.depth) c cancelled

end Context

/-- The body can make an instance that must be completed. Constructors may own what their
parameters hold. -/
def Procedure.mayCreateTarget (p : Procedure) (symbols : Resolver) (target : TypeId) : Bool :=
  let isTarget := fun (ty : Option TypeId) => ty.any fun ty => symbols.isTarget ty target
  p.isConstructor || p.operations.any fun op => match op.kind with
    | .objectCreation .. | .invocation .. | .argument _ .out _ => isTarget op.ty
    | _ => false

end PathCompletion
