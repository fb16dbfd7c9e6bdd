/-!
Depth-first walks over a graph given by its successor lists. One walk serves the blocks
of a control-flow graph, the trees of operations and the hierarchy of types.
-/

namespace PathCompletion

variable {α : Type}

inductive Reaches (next : α → List α) : α → α → Prop where
  | refl (a : α) : Reaches next a a
  | step {a b c : α} (edge : b ∈ next a) (rest : Reaches next b c) : Reaches next a c

/-- A depth-first walk: what was met so far, and what was left for good, last left first. -/
structure Walk (α : Type) where
  met : List α := []
  left : List α := []

namespace Walk

variable [DecidableEq α]

/-- Walks from `a` over everything not met before, and then leaves `a`. No chain of steps
is followed further than `fuel`. -/
def visit (next : α → List α) : Nat → α → Walk α → Walk α
  | 0, _, w => w
  | fuel + 1, a, w =>
      if a ∈ w.met then w
      else
        let below := (next a).foldl (fun w b => visit next fuel b w) { w with met := a :: w.met }
        { below with left := a :: below.left }

def visitAll (next : α → List α) (fuel : Nat) (starts : List α) : Walk α :=
  starts.foldl (fun w a => visit next fuel a w) {}

end Walk

end PathCompletion
