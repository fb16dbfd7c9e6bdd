import PathCompletion.Flow.Graph
import PathCompletion.Reach

/-!
The order in which the blocks of a graph are visited: reverse postorder of the
depth-first walk from the entry. An edge that does not go forward in it is a back edge.
-/

namespace PathCompletion

structure Link where
  source : BlockId
  destination : BlockId
  deriving DecidableEq

instance : Key Link where
  key link := [link.source.index, link.destination.index]
  injective := by
    rintro ⟨⟨s⟩, ⟨d⟩⟩ ⟨⟨s'⟩, ⟨d'⟩⟩ same
    simp_all

namespace Graph

def successors (g : Graph) (block : BlockId) : List BlockId :=
  match g.block? block with
  | some b => b.successors.map Edge.destination
  | none => []

/-- Every block that a walk can meet is the entry or the destination of an edge, so no
chain of steps is longer than this. -/
def walkBound (g : Graph) : Nat := g.edges.length + 1

def reversePostorder (g : Graph) : List BlockId :=
  match g.block? g.entry with
  | some _ => (Walk.visit g.successors g.walkBound g.entry {}).left
  | none => []

/-- The edges between listed blocks that do not go strictly forward in the list. -/
def backEdges (g : Graph) (order : List BlockId) : SortedSet Link :=
  SortedSet.ofList <|
    (order.flatMap fun block => ((g.block? block).map Block.successors).getD []).filterMap
      fun edge =>
        if edge.source ∈ order ∧ edge.destination ∈ order ∧
            order.idxOf edge.destination ≤ order.idxOf edge.source then
          some ⟨edge.source, edge.destination⟩
        else none

end Graph

end PathCompletion
