import PathCompletion.Dataflow.Domain
import PathCompletion.Flow.Order
import PathCompletion.Error

/-!
Forward fixpoints over a control-flow graph. Every edge carries the state that leaves its
source along it; a block's input is the join of the states on its incoming edges. Blocks
are visited in reverse postorder, pass after pass, until a pass changes no edge.
-/

namespace PathCompletion

abbrev Step (σ α : Type) := ExceptT AnalysisError (StateM σ) α

/-- An edge named by its source and its place among the source's successors. -/
structure Slot where
  source : BlockId
  index : Nat
  deriving DecidableEq

instance : Key Slot where
  key slot := [slot.source.index, slot.index]
  injective := by
    rintro ⟨⟨s⟩, i⟩ ⟨⟨s'⟩, i'⟩ same
    simp_all

structure Snapshot (V : Type) where
  input : V
  output : V
  deriving DecidableEq

structure Transfer (σ V : Type) where
  initial : V
  visitBlock : Block → V → Step σ V
  visitEdge : Block → Edge → V → Step σ V
  isCancelled : σ → Bool

structure Problem (σ V : Type) where
  name : String
  graph : Graph
  domain : Domain V
  transfer : Transfer σ V

structure Solution (V : Type) where
  /-- The visited blocks; a block without a snapshot was never reached. -/
  snapshots : SortedMap BlockId (Snapshot V)
  exit : BlockId
  iterations : Nat
  /-- Edge updates that the domain's comparison calls a regression. -/
  regressions : Nat

def Solution.exitOutput? {V : Type} (s : Solution V) : Option V :=
  (s.snapshots.get? s.exit).map Snapshot.output

structure Plan where
  order : List BlockId
  back : SortedSet Link

def Graph.plan (g : Graph) : Plan :=
  let order := g.reversePostorder
  ⟨order, g.backEdges order⟩

def Graph.incomingSlots (g : Graph) (block : BlockId) : List Slot :=
  g.blocks.flatMap fun source => source.successors.zipIdx.filterMap fun (edge, index) =>
    if edge.destination = block then some ⟨source.id, index⟩ else none

structure Progress (V : Type) where
  edges : SortedMap Slot V := ∅
  snapshots : SortedMap BlockId (Snapshot V) := ∅
  regressions : Nat := 0
  changed : Bool := false

def Progress.record {V : Type} [DecidableEq V] (d : Domain V) (p : Progress V) (slot : Slot)
    (state : V) : Progress V :=
  match p.edges.get? slot with
  | none => { p with edges := p.edges.insert slot state, changed := true }
  | some old =>
      if old = state then p
      else
        { p with
          edges := p.edges.insert slot state
          regressions := p.regressions + (if d.compare old state = .gt then 1 else 0)
          changed := true }

namespace Problem

variable {σ V : Type} [DecidableEq V]

/-- The input of a block: the initial state at the entry, joined with the states that
arrive along forward edges, joined with the join of those along back edges. -/
def input? (problem : Problem σ V) (plan : Plan) (edges : SortedMap Slot V) (block : BlockId) :
    Option V :=
  let slots := problem.graph.incomingSlots block
  let isBack := fun (slot : Slot) => plan.back.contains ⟨slot.source, block⟩
  let start := if block = problem.graph.entry then some problem.transfer.initial else none
  let forward := (slots.filter fun slot => !isBack slot).filterMap edges.get?
  let back := (slots.filter isBack).filterMap edges.get?
  problem.domain.mergeBackEdge (problem.domain.joinOnto start forward)
    (problem.domain.joinOnto none back)

def leave (problem : Problem σ V) (block : Block) (output : V) (p : Progress V) :
    Step σ (Progress V) :=
  block.successors.zipIdx.foldlM
    (fun p (edge, index) => do
      let state ← problem.transfer.visitEdge block edge output
      return p.record problem.domain ⟨block.id, index⟩ state) p

def visit (problem : Problem σ V) (plan : Plan) (p : Progress V) (id : BlockId) :
    Step σ (Progress V) := do
  if problem.transfer.isCancelled (← get) then throw .cancelled
  match problem.graph.block? id, problem.input? plan p.edges id with
  | some block, some input =>
      let output ← problem.transfer.visitBlock block input
      let left ← problem.leave block output p
      return { left with snapshots := left.snapshots.insert id ⟨input, output⟩ }
  | _, _ => return p

def pass (problem : Problem σ V) (plan : Plan) (p : Progress V) : Step σ (Progress V) :=
  plan.order.foldlM (problem.visit plan) { p with changed := false }

/-- Passes until one changes nothing, at most `budget` of them after the `done` ones. -/
def iterate (problem : Problem σ V) (plan : Plan) (limit : Nat) :
    Nat → Nat → Progress V → Step σ (Solution V)
  | 0, _, _ => throw (.notConverged problem.name limit)
  | budget + 1, done, p => do
      let next ← problem.pass plan p
      if next.changed then problem.iterate plan limit budget (done + 1) next
      else return ⟨next.snapshots, problem.graph.exit, done + 1, next.regressions⟩

def solve (problem : Problem σ V) (limit : Nat) : Step σ (Solution V) :=
  match problem.graph.fault? with
  | some fault => throw (.invalidGraph fault.message)
  | none => problem.iterate problem.graph.plan limit limit 0 {}

def defaultLimit : Nat := 1000

end Problem

end PathCompletion
