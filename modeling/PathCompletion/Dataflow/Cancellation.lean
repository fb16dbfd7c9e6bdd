import PathCompletion.Sorted.Set

/-!
Cancellation tokens. Copies of a token share its flag; a child has a flag of its own and
also listens to the flags of its ancestors.
-/

namespace PathCompletion

structure Token where
  own : Nat
  ancestors : List Nat
  deriving DecidableEq

structure Cancellation where
  made : Nat := 0
  raised : SortedSet Nat := ∅

namespace Cancellation

def fresh (c : Cancellation) : Token × Cancellation :=
  (⟨c.made, []⟩, { c with made := c.made + 1 })

/-- A token that is cancelled with its parent, and can be cancelled alone. -/
def child (c : Cancellation) (parent : Token) : Token × Cancellation :=
  (⟨c.made, parent.own :: parent.ancestors⟩, { c with made := c.made + 1 })

def cancel (c : Cancellation) (token : Token) : Cancellation :=
  { c with raised := c.raised.insert token.own }

def isCancelled (c : Cancellation) (token : Token) : Bool :=
  (token.own :: token.ancestors).any c.raised.contains

end Cancellation

end PathCompletion
