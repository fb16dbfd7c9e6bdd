import PathCompletion.Flow.Order
import PathCompletion.Flow.Procedure
import PathCompletion.Error

/-!
Procedures under construction. A draft starts with an entry block 0 and an exit block 1,
grows call by call, and is finished into a procedure with the derived parts of its graph:
predecessors, reachability, and the block that evaluates each operation.
-/

namespace PathCompletion

structure Draft where
  id : ProcedureId
  name : String
  method : Option MethodId := none
  file : String := ""
  isConstructor : Bool := false
  parameters : List Parameter := []
  operations : List Operation := []
  blocks : List Block := [⟨⟨0⟩, .entry, [], none, [], [], none, true⟩,
    ⟨⟨1⟩, .exit, [], none, [], [], none, true⟩]
  regions : List Region := []
  marked : SortedSet BlockId := ∅

namespace Draft

def entry : BlockId := ⟨0⟩

def exit : BlockId := ⟨1⟩

/-! ### Growing a draft -/

def addParameter (d : Draft) (parameter : Parameter) : Draft :=
  { d with parameters := d.parameters ++ [parameter] }

def addBlock (d : Draft) : Draft :=
  { d with blocks := d.blocks ++ [{ id := ⟨d.blocks.length⟩, kind := .block }] }

def addRegion (d : Draft) (kind : RegionKind) (parent : Option RegionId) : Draft :=
  { d with regions := d.regions ++ [⟨⟨d.regions.length⟩, kind, parent⟩] }

def modifyBlock (d : Draft) (block : BlockId) (change : Block → Block) : Draft :=
  { d with blocks := d.blocks.modify block.index change }

def setRegion (d : Draft) (block : BlockId) (region : RegionId) : Draft :=
  d.modifyBlock block fun b => { b with region := some region }

def markUnreachable (d : Draft) (block : BlockId) : Draft :=
  { d with marked := d.marked.insert block }

def push (d : Draft) (block : BlockId) (operation : OperationId) : Draft :=
  d.modifyBlock block fun b => { b with operations := b.operations ++ [operation] }

def addEdge (d : Draft) (source destination : BlockId) (condition : Condition) : Draft :=
  d.modifyBlock source fun b =>
    { b with successors := b.successors ++ [⟨source, destination, condition⟩] }

def branch (d : Draft) (block : BlockId) (value : OperationId)
    (whenTrue whenFalse : BlockId) : Draft :=
  let valued := d.modifyBlock block fun b => { b with branchValue := some value }
  (valued.addEdge block whenTrue .whenTrue).addEdge block whenFalse .whenFalse

def addOperation (d : Draft) (kind : OperationKind) (ty : Option TypeId) : Draft :=
  let id : OperationId := ⟨d.operations.length⟩
  let adopted := kind.children.foldl
    (fun operations child => operations.modify child.index fun op => { op with parent := some id })
    d.operations
  { d with operations := adopted ++ [{ id, kind, ty }] }

def setSource (d : Draft) (operation : OperationId) (fragment : Fragment) : Draft :=
  { d with operations := d.operations.modify operation.index fun op : Operation =>
      { op with source := some fragment } }

def typeOf? (d : Draft) (operation : OperationId) : Option TypeId :=
  d.operations[operation.index]?.bind Operation.ty

inductive Call where
  | parameter (parameter : Parameter)
  | block
  | entry
  | exit
  | region (kind : RegionKind) (parent : Option RegionId)
  | setRegion (block : BlockId) (region : RegionId)
  | markUnreachable (block : BlockId)
  | push (block : BlockId) (operation : OperationId)
  | goto (source destination : BlockId)
  | branch (block : BlockId) (value : OperationId) (whenTrue whenFalse : BlockId)
  | operation (kind : OperationKind) (ty : Option TypeId)
  | source (operation : OperationId) (fragment : Fragment)
  /-- `new T(…)`, with its source text. -/
  | creation (constructor : MethodId) (ty : TypeId) (arguments : List OperationId)
      (fragment : Fragment)
  /-- An assignment has the type of its value. -/
  | assignment (target value : OperationId)

def apply (d : Draft) : Call → Draft × Option Nat
  | .parameter parameter => (d.addParameter parameter, some d.parameters.length)
  | .block => (d.addBlock, some d.blocks.length)
  | .entry => (d, some entry.index)
  | .exit => (d, some exit.index)
  | .region kind parent => (d.addRegion kind parent, some d.regions.length)
  | .setRegion block region => (d.setRegion block region, none)
  | .markUnreachable block => (d.markUnreachable block, none)
  | .push block operation => (d.push block operation, none)
  | .goto source destination => (d.addEdge source destination .always, none)
  | .branch block value whenTrue whenFalse => (d.branch block value whenTrue whenFalse, none)
  | .operation kind ty => (d.addOperation kind ty, some d.operations.length)
  | .source operation fragment => (d.setSource operation fragment, some operation.index)
  | .creation constructor ty arguments fragment =>
      let id : OperationId := ⟨d.operations.length⟩
      ((d.addOperation (.objectCreation constructor arguments) (some ty)).setSource id fragment,
        some id.index)
  | .assignment target value =>
      (d.addOperation (.assignment target value) (d.typeOf? value), some d.operations.length)

def applyAll (d : Draft) : List Call → Draft × List (Option Nat)
  | [] => (d, [])
  | call :: rest =>
      let (next, answer) := d.apply call
      let (last, answers) := next.applyAll rest
      (last, answer :: answers)

/-! ### Predecessors -/

def edges (d : Draft) : List Edge := d.blocks.flatMap Block.successors

def note (source : BlockId) (b : Block) : Block :=
  if source ∈ b.predecessors then b else { b with predecessors := b.predecessors ++ [source] }

def link (blocks : List Block) (edge : Edge) : Except Graph.Fault (List Block) :=
  if edge.destination.index < blocks.length then
    .ok (blocks.modify edge.destination.index (note edge.source))
  else .error (.missingTarget edge.source edge.destination)

def unlinked (d : Draft) : List Block := d.blocks.map fun b => { b with predecessors := [] }

def linked (d : Draft) : Except Graph.Fault (List Block) := d.edges.foldlM link d.unlinked

/-! ### Reachability -/

structure Sweep where
  queue : List BlockId
  reached : List Bool

namespace Sweep

def start (count : Nat) : Sweep := ⟨[entry], (List.replicate count false).set entry.index true⟩

def enqueue (marked : SortedSet BlockId) (sweep : Sweep) (target : BlockId) : Sweep :=
  if sweep.reached[target.index]? = some false ∧ target ∉ marked then
    ⟨sweep.queue ++ [target], sweep.reached.set target.index true⟩
  else sweep

/-- Turns that are left at most: each block is queued once. -/
def debt (sweep : Sweep) : Nat := sweep.queue.length + sweep.reached.count false

theorem debt_enqueue (marked : SortedSet BlockId) (sweep : Sweep) (target : BlockId) :
    (sweep.enqueue marked target).debt = sweep.debt := by
  unfold enqueue
  split
  · next fresh =>
    obtain ⟨inside, here⟩ := List.getElem?_eq_some_iff.mp fresh.1
    have counted : 0 < sweep.reached.count false :=
      List.count_pos_iff.mpr (List.mem_of_getElem? fresh.1)
    simp only [debt, List.length_append, List.length_singleton, List.count_set inside, here]
    simp
    omega
  · rfl

def scan (marked : SortedSet BlockId) (targets : List BlockId) (sweep : Sweep) : Sweep :=
  targets.foldl (enqueue marked) sweep

theorem debt_scan (marked : SortedSet BlockId) (targets : List BlockId) (sweep : Sweep) :
    (sweep.scan marked targets).debt = sweep.debt := by
  induction targets generalizing sweep with
  | nil => rfl
  | cons target rest ih => exact (ih (sweep.enqueue marked target)).trans (debt_enqueue ..)

end Sweep

def targets (blocks : List Block) (block : BlockId) : List BlockId :=
  match blocks[block.index]? with
  | some b => b.successors.map Edge.destination
  | none => []

/-- Goes on until the queue is empty. Nothing is reached through a block that is marked. -/
def spread (blocks : List Block) (marked : SortedSet BlockId) : Sweep → Sweep
  | ⟨[], reached⟩ => ⟨[], reached⟩
  | ⟨block :: rest, reached⟩ =>
      if block ∈ marked then spread blocks marked ⟨rest, reached⟩
      else spread blocks marked (Sweep.scan marked (targets blocks block) ⟨rest, reached⟩)
termination_by sweep => sweep.debt
decreasing_by
  · simp only [Sweep.debt, List.length_cons]
    omega
  · rw [Sweep.debt_scan]
    simp only [Sweep.debt, List.length_cons]
    omega

def flag (d : Draft) (blocks : List Block) : List Block :=
  let reached := (spread blocks d.marked (.start blocks.length)).reached
  blocks.zipWith (fun b reached => { b with isReachable := reached && b.id ∉ d.marked }) reached

/-! ### The block that evaluates each operation -/

/-- The operands that can still be put on a stack: each operation is given to a block once. -/
def unclaimed : List Operation → List (Option BlockId) → Nat
  | op :: operations, owner :: owners =>
      (if owner = none then op.children.length else 0) + unclaimed operations owners
  | _, _ => 0

theorem unclaimed_set {operations : List Operation} {owners : List (Option BlockId)} {i : Nat}
    {op : Operation} (stored : operations[i]? = some op) (free : owners[i]? = some none)
    (block : BlockId) : op.children.length + unclaimed operations (owners.set i (some block)) =
      unclaimed operations owners := by
  induction i generalizing operations owners with
  | zero =>
      obtain ⟨operations, rfl⟩ := List.head?_eq_some_iff.mp (List.head?_eq_getElem? ▸ stored)
      obtain ⟨owners, rfl⟩ := List.head?_eq_some_iff.mp (List.head?_eq_getElem? ▸ free)
      simp [unclaimed]
  | succ i ih =>
      cases operations with
      | nil => contradiction
      | cons first operations =>
          cases owners with
          | nil => contradiction
          | cons owner owners =>
              have later := ih stored free
              simp only [unclaimed, List.set_cons_succ]
              omega

/-- Gives the block all operations on the stack and below them that no block has, last first. What
is below an operation that has a block is passed over. -/
def claim (operations : List Operation) (block : BlockId) (stack : List OperationId)
    (owners : List (Option BlockId)) : List (Option BlockId) :=
  match stack with
  | [] => owners
  | id :: rest =>
      match _stored : operations[id.index]? with
      | none => claim operations block rest owners
      | some op =>
          if owners[id.index]? = some none then
            claim operations block (op.children.reverse ++ rest)
              (owners.set id.index (some block))
          else claim operations block rest owners
termination_by stack.length + unclaimed operations owners
decreasing_by
  · simp
  · next free =>
    have fewer := unclaimed_set _stored free block
    simp only [List.length_append, List.length_reverse, List.length_cons]
    omega
  · simp

def claimRoots (operations : List Operation) (owners : List (Option BlockId)) (block : Block) :
    List (Option BlockId) :=
  block.roots.foldl (fun owners root => claim operations block.id [root] owners) owners

def owners (d : Draft) (blocks : List Block) : List (Option BlockId) :=
  blocks.foldl (claimRoots d.operations) (List.replicate d.operations.length none)

/-! ### Finishing a draft -/

def procedure (d : Draft) (blocks : List Block) : Procedure :=
  { id := d.id
    method := d.method
    name := d.name
    file := d.file
    isConstructor := d.isConstructor
    parameters := d.parameters
    operations := d.operations
    owners := d.owners blocks
    graph := ⟨d.flag blocks, d.regions, entry, exit⟩ }

def build (d : Draft) : Except AnalysisError Procedure :=
  let finished : Except Graph.Fault Procedure := do
    let p := d.procedure (← d.linked)
    match p.graph.fault? with
    | some fault => throw fault
    | none => return p
  finished.mapError fun fault => .invalidGraph fault.message

end Draft

end PathCompletion
