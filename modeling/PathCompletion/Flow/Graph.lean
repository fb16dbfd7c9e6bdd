import PathCompletion.Flow.Operation

/-!
Control-flow graphs: blocks of root operations, edges tagged with the branch condition
they are taken under, and the exception regions that enclose blocks.
-/

namespace PathCompletion

inductive BlockKind where
  | entry
  | exit
  | block
  deriving DecidableEq

namespace BlockKind

def all : List BlockKind := [.entry, .exit, .block]

def name : BlockKind → String
  | .entry => "Entry"
  | .exit => "Exit"
  | .block => "Block"

end BlockKind

inductive Condition where
  | always
  | whenTrue
  | whenFalse
  deriving DecidableEq

namespace Condition

def all : List Condition := [.always, .whenTrue, .whenFalse]

def name : Condition → String
  | .always => "None"
  | .whenTrue => "WhenTrue"
  | .whenFalse => "WhenFalse"

def label : Condition → String
  | .always => "UNCONDITIONAL"
  | .whenTrue => "TRUE"
  | .whenFalse => "FALSE"

end Condition

structure Edge where
  source : BlockId
  destination : BlockId
  condition : Condition
  deriving DecidableEq

inductive RegionKind where
  | try
  | catch
  | filter
  | filterAndHandler
  | finally
  deriving DecidableEq

namespace RegionKind

def all : List RegionKind := [.try, .catch, .filter, .filterAndHandler, .finally]

def name : RegionKind → String
  | .try => "Try"
  | .catch => "Catch"
  | .filter => "Filter"
  | .filterAndHandler => "FilterAndHandler"
  | .finally => "Finally"

def isHandler : RegionKind → Bool
  | .catch | .filterAndHandler => true
  | .try | .filter | .finally => false

end RegionKind

structure Region where
  id : RegionId
  kind : RegionKind
  parent : Option RegionId
  deriving DecidableEq

structure Block where
  id : BlockId
  kind : BlockKind
  operations : List OperationId := []
  /-- Evaluated last; conditional edges test it. -/
  branchValue : Option OperationId := none
  successors : List Edge := []
  predecessors : List BlockId := []
  region : Option RegionId := none
  isReachable : Bool := true
  deriving DecidableEq

def Block.roots (block : Block) : List OperationId :=
  block.operations ++ block.branchValue.toList

structure Graph where
  blocks : List Block
  regions : List Region
  entry : BlockId
  exit : BlockId
  deriving DecidableEq

namespace Graph

def block? (g : Graph) (id : BlockId) : Option Block := g.blocks[id.index]?

def region? (g : Graph) (id : RegionId) : Option Region :=
  g.regions.find? fun region => region.id = id

def edges (g : Graph) : List Edge := g.blocks.flatMap Block.successors

def incoming (g : Graph) (block : BlockId) : List Edge :=
  g.edges.filter fun edge => edge.destination = block

/-! ### Exception handlers -/

/-- Follows parents from a region, for at most `fuel` regions: whether a handler is met,
or nothing when the fuel is spent first. -/
def climb (g : Graph) : Nat → Option RegionId → Option Bool
  | _, none => some false
  | 0, some _ => none
  | fuel + 1, some id =>
      match g.region? id with
      | none => some false
      | some region => if region.kind.isHandler then some true else g.climb fuel region.parent

/-- Whether some region around the block is a handler. Nothing when the chain of parents
runs in a circle without meeting one: a chain that ends has at most as many regions as
the graph. -/
def insideCatch? (g : Graph) (block : BlockId) : Option Bool :=
  g.climb (g.regions.length + 1) ((g.block? block).bind Block.region)

def insideCatch (g : Graph) (block : BlockId) : Bool := (g.insideCatch? block).getD false

/-! ### Well-formed graphs -/

inductive Fault where
  | entry (id : BlockId)
  | exit (id : BlockId)
  | misplaced (id : BlockId) (index : Nat)
  | dangling (source destination : BlockId)
  | unknownRegion (block : BlockId)
  | missingTarget (source destination : BlockId)
  deriving DecidableEq

def Fault.message : Fault → String
  | .entry id => "entry " ++ id.render ++ " is not an Entry block"
  | .exit id => "exit " ++ id.render ++ " is not an Exit block"
  | .misplaced id index => "block " ++ id.render ++ s!" stored at index {index}"
  | .dangling source destination =>
      "dangling edge " ++ source.render ++ " -> " ++ destination.render
  | .unknownRegion block => "block " ++ block.render ++ " references unknown region"
  | .missingTarget source destination =>
      "edge " ++ source.render ++ " -> " ++ destination.render ++ " targets a missing block"

def hasKind (g : Graph) (id : BlockId) (kind : BlockKind) : Bool :=
  match g.block? id with
  | some block => block.kind = kind
  | none => false

def soundEdge (g : Graph) (block : Block) (edge : Edge) : Bool :=
  edge.source = block.id && (g.block? edge.destination).isSome

def blockFault? (g : Graph) (block : Block) (index : Nat) : Option Fault :=
  if block.id.index ≠ index then some (.misplaced block.id index)
  else match block.successors.find? fun edge => !g.soundEdge block edge with
    | some edge => some (.dangling edge.source edge.destination)
    | none => match block.region with
      | some region => if (g.region? region).isNone then some (.unknownRegion block.id) else none
      | none => none

def fault? (g : Graph) : Option Fault :=
  if !g.hasKind g.entry .entry then some (.entry g.entry)
  else if !g.hasKind g.exit .exit then some (.exit g.exit)
  else g.blocks.zipIdx.findSome? fun (block, index) => g.blockFault? block index

def Valid (g : Graph) : Prop := g.fault? = none

instance (g : Graph) : Decidable g.Valid := inferInstanceAs (Decidable (_ = _))

end Graph

end PathCompletion
