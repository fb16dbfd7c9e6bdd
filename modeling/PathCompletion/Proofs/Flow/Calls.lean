import PathCompletion.Flow.Draft

/-!
What calls make of a draft. Calls number blocks, regions and operations by their places, and an
edge starts at the block that lists it, whatever is called in whatever order. A block has what the
calls gave it that were made once it existed: all roots and edges in order, but only the last
branch value and the last region.
-/

namespace PathCompletion

/-! ### Lists of numbered things -/

theorem map_modify_of_same {α β : Type} {key : α → β} {change : α → α}
    (same : ∀ a, key (change a) = key a) (i : Nat) (list : List α) :
    (list.modify i change).map key = list.map key := by
  apply List.ext_getElem?
  intro j
  rw [List.getElem?_map, List.getElem?_map, List.getElem?_modify]
  cases list[j]? with
  | none => rfl
  | some a =>
      simp only [Option.map_eq_map, Option.map_some]
      split
      · rw [same]
      · rfl

theorem map_foldl_modify_of_same {α β γ : Type} {key : α → β} {change : α → α}
    (same : ∀ a, key (change a) = key a) (place : γ → Nat) (items : List γ) (list : List α) :
    (items.foldl (fun list item => list.modify (place item) change) list).map key =
      list.map key := by
  induction items generalizing list with
  | nil => rfl
  | cons item rest ih => rw [List.foldl_cons, ih, map_modify_of_same same]

theorem mem_flatMap_modify {α β : Type} {parts : α → List β} {change : α → α} {added : List β}
    (grown : ∀ a, parts (change a) = parts a ++ added) (i : Nat) (list : List α) {x : β} :
    x ∈ (list.modify i change).flatMap parts ↔
      x ∈ list.flatMap parts ∨ x ∈ added ∧ i < list.length := by
  induction list generalizing i with
  | nil => simp
  | cons a rest ih =>
      cases i with
      | zero => simp [grown, or_assoc, or_comm (a := x ∈ added)]
      | succ i => simp [-List.mem_flatMap, ih, or_assoc]

/-- Everything in the list has its place as its number. -/
def Placed {α : Type} (number : α → Nat) (list : List α) : Prop :=
  list.map number = List.range list.length

namespace Placed

variable {α : Type} {number : α → Nat} {list : List α}

theorem push (placed : Placed number list) {a : α} (next : number a = list.length) :
    Placed number (list ++ [a]) := by
  rw [Placed, List.map_append, placed, List.length_append, List.length_singleton,
    List.range_succ, List.map_singleton, next]

theorem modify (placed : Placed number list) (i : Nat) (change : α → α)
    (same : ∀ a, number (change a) = number a) : Placed number (list.modify i change) := by
  rw [Placed, map_modify_of_same same, placed, List.length_modify]

theorem of_map_eq {other : List α} (placed : Placed number list)
    (same : other.map number = list.map number) : Placed number other := by
  have length : other.length = list.length := by
    rw [← List.length_map (f := number), same, List.length_map]
  rw [Placed, same, placed, length]

theorem number_eq (placed : Placed number list) {i : Nat} {a : α} (stored : list[i]? = some a) :
    number a = i := by
  have inside : i < list.length := (List.getElem?_eq_some_iff.mp stored).1
  have place : (list.map number)[i]? = (List.range list.length)[i]? := by rw [placed]
  rw [List.getElem?_map, stored, List.getElem?_range inside] at place
  exact Option.some.inj place

end Placed

namespace Draft

variable {d : Draft}

/-! ### What calls keep -/

structure Sound (d : Draft) : Prop where
  blocks : Placed (·.id.index) d.blocks
  kinds : [.entry, .exit] <+: d.blocks.map Block.kind
  sources : ∀ block ∈ d.blocks, ∀ edge ∈ block.successors, edge.source = block.id
  regions : Placed (·.id.index) d.regions
  operations : Placed (·.id.index) d.operations

/-- A change of a block keeps all this if it leaves the block's number and kind alone and adds
edges out of that block only. -/
theorem Sound.modifyBlock (sound : d.Sound) (id : BlockId) (change : Block → Block)
    (number : ∀ b, (change b).id = b.id) (kind : ∀ b, (change b).kind = b.kind)
    (added : ∀ b, ∀ edge ∈ (change b).successors, edge ∈ b.successors ∨ edge.source = id) :
    (d.modifyBlock id change).Sound := by
  refine { sound with
    blocks := sound.blocks.modify id.index change fun b => congrArg BlockId.index (number b)
    kinds := ?_
    sources := ?_ }
  · rw [Draft.modifyBlock, map_modify_of_same kind]
    exact sound.kinds
  · intro block member edge listed
    obtain ⟨j, stored⟩ := List.mem_iff_getElem?.mp member
    rw [Draft.modifyBlock, List.getElem?_modify, Option.map_eq_map,
      Option.map_eq_some_iff] at stored
    obtain ⟨b, found, rfl⟩ := stored
    have old := sound.sources b (List.mem_of_getElem? found)
    split at listed
    · next here =>
      -- The block that was changed stands at the place that its number says.
      rw [if_pos here, number]
      rcases added b edge listed with before | source
      · exact old edge before
      · rw [source]
        have place : b.id.index = id.index := (sound.blocks.number_eq found).trans here.symm
        exact congrArg BlockId.mk place.symm
    · next elsewhere =>
      rw [if_neg elsewhere]
      exact old edge listed

theorem Sound.addBlock (sound : d.Sound) : d.addBlock.Sound := by
  refine { sound with
    blocks := sound.blocks.push rfl
    kinds := ?_
    sources := ?_ }
  · rw [Draft.addBlock, List.map_append]
    exact sound.kinds.trans (List.prefix_append _ _)
  · intro block member
    rcases List.mem_append.mp member with before | new
    · exact sound.sources block before
    · rw [List.mem_singleton.mp new]
      exact nofun

theorem Sound.addEdge (sound : d.Sound) (source destination : BlockId) (condition : Condition) :
    (d.addEdge source destination condition).Sound := by
  apply sound.modifyBlock source
    (fun b => { b with successors := b.successors ++ [⟨source, destination, condition⟩] })
    (fun _ => rfl) (fun _ => rfl)
  intro b edge listed
  rcases List.mem_append.mp listed with before | new
  · exact .inl before
  · exact .inr (List.mem_singleton.mp new ▸ rfl)

theorem Sound.addOperation (sound : d.Sound) (kind : OperationKind) (ty : Option TypeId) :
    (d.addOperation kind ty).Sound := by
  have numbers : (kind.children.foldl (fun operations child => operations.modify child.index
      fun op => { op with parent := some ⟨d.operations.length⟩ }) d.operations).map
        (·.id.index) = d.operations.map (·.id.index) :=
    map_foldl_modify_of_same (by simp) OperationId.index kind.children d.operations
  have length := congrArg List.length numbers
  rw [List.length_map, List.length_map] at length
  exact { sound with operations := (sound.operations.of_map_eq numbers).push length.symm }

theorem Sound.setSource (sound : d.Sound) (operation : OperationId) (fragment : Fragment) :
    (d.setSource operation fragment).Sound :=
  { sound with operations := sound.operations.modify operation.index _ fun _ => rfl }

theorem Sound.apply (sound : d.Sound) (call : Call) : (d.apply call).1.Sound := by
  cases call with
  | parameter | entry | exit | markUnreachable => exact { sound with }
  | block => exact sound.addBlock
  | region kind parent => exact { sound with regions := sound.regions.push rfl }
  | setRegion block region =>
      exact sound.modifyBlock block _ (fun _ => rfl) (fun _ => rfl) fun _ _ listed => .inl listed
  | push block operation =>
      exact sound.modifyBlock block _ (fun _ => rfl) (fun _ => rfl) fun _ _ listed => .inl listed
  | goto source destination => exact sound.addEdge source destination .always
  | branch block value whenTrue whenFalse =>
      have valued := sound.modifyBlock block (fun b => { b with branchValue := some value })
        (fun _ => rfl) (fun _ => rfl) fun _ _ listed => .inl listed
      exact (valued.addEdge block whenTrue .whenTrue).addEdge block whenFalse .whenFalse
  | operation kind ty => exact sound.addOperation kind ty
  | source operation fragment => exact sound.setSource operation fragment
  | creation constructor ty arguments fragment =>
      exact (sound.addOperation _ _).setSource _ fragment
  | assignment target value => exact sound.addOperation _ _

theorem Sound.applyAll (sound : d.Sound) (calls : List Call) : (d.applyAll calls).1.Sound := by
  induction calls generalizing d with
  | nil => exact sound
  | cons call rest ih => exact ih (sound.apply call)

def Blank (d : Draft) : Prop :=
  d = { id := d.id, name := d.name, method := d.method, file := d.file
        isConstructor := d.isConstructor }

theorem Blank.sound (blank : d.Blank) : d.Sound := by
  rw [blank]
  refine ⟨rfl, List.prefix_rfl, ?_, rfl, rfl⟩
  intro block member
  simp only [List.mem_cons, List.not_mem_nil, or_false] at member
  rcases member with rfl | rfl <;> exact nofun

/-! ### What calls record -/

theorem mem_marked_apply (call : Call) {block : BlockId} :
    block ∈ (d.apply call).1.marked ↔ block ∈ d.marked ∨ .markUnreachable block = call := by
  cases call with
  | markUnreachable other =>
      simp only [Draft.apply, Draft.markUnreachable, SortedSet.mem_insert,
        Call.markUnreachable.injEq]
      exact or_comm
  | _ => simp [Draft.apply, addParameter, Draft.addBlock, addRegion, Draft.setRegion,
      Draft.modifyBlock, Draft.push, Draft.addEdge, Draft.branch, Draft.addOperation,
      Draft.setSource]

/-- The marked blocks are those that calls mark. -/
theorem mem_marked_iff (calls : List Call) {block : BlockId} :
    block ∈ (d.applyAll calls).1.marked ↔
      block ∈ d.marked ∨ .markUnreachable block ∈ calls := by
  induction calls generalizing d with
  | nil => simp [applyAll]
  | cons call rest ih =>
      change block ∈ ((d.apply call).1.applyAll rest).1.marked ↔ _
      rw [ih, mem_marked_apply, List.mem_cons, or_assoc]

@[simp] def Call.edges : Call → List Edge
  | .goto here next => [⟨here, next, .always⟩]
  | .branch here _ next other => [⟨here, next, .whenTrue⟩, ⟨here, other, .whenFalse⟩]
  | _ => []

/-- Some call asks for the edge, and by then there is a block for it to start at. -/
def Records (d : Draft) (calls : List Call) (edge : Edge) : Prop :=
  ∃ before call after, calls = before ++ call :: after ∧ edge ∈ call.edges ∧
    edge.source.index < (d.applyAll before).1.blocks.length

theorem records_cons {call : Call} {rest : List Call} {edge : Edge} :
    d.Records (call :: rest) edge ↔
      edge ∈ call.edges ∧ edge.source.index < d.blocks.length ∨
        (d.apply call).1.Records rest edge := by
  constructor
  · rintro ⟨before, asking, after, split, asked, inside⟩
    cases before with
    | nil =>
        obtain ⟨rfl, rfl⟩ := List.cons.inj split
        exact .inl ⟨asked, inside⟩
    | cons first before =>
        obtain ⟨rfl, rfl⟩ := List.cons.inj split
        exact .inr ⟨before, asking, after, rfl, asked, inside⟩
  · rintro (⟨asked, inside⟩ | ⟨before, asking, after, rfl, asked, inside⟩)
    · exact ⟨[], call, rest, rfl, asked, inside⟩
    · exact ⟨call :: before, asking, after, rfl, asked, inside⟩

theorem edges_modifyBlock {id : BlockId} {change : Block → Block}
    (same : ∀ b, (change b).successors = b.successors) :
    (d.modifyBlock id change).edges = d.edges := by
  rw [Draft.edges, Draft.edges, List.flatMap_def, List.flatMap_def]
  exact congrArg List.flatten (map_modify_of_same same id.index d.blocks)

theorem mem_edges_addEdge {source destination : BlockId} {condition : Condition} {edge : Edge} :
    edge ∈ (d.addEdge source destination condition).edges ↔
      edge ∈ d.edges ∨ edge = ⟨source, destination, condition⟩ ∧
        source.index < d.blocks.length := by
  rw [← List.mem_singleton]
  exact mem_flatMap_modify (fun _ => rfl) source.index d.blocks

@[simp] theorem length_modifyBlock (id : BlockId) (change : Block → Block) :
    (d.modifyBlock id change).blocks.length = d.blocks.length := by
  rw [Draft.modifyBlock, List.length_modify]

/-- A call adds the edges that it asks for, if the block they start at exists. -/
theorem mem_edges_apply (call : Call) {edge : Edge} :
    edge ∈ (d.apply call).1.edges ↔
      edge ∈ d.edges ∨ edge ∈ call.edges ∧ edge.source.index < d.blocks.length := by
  cases call with
  | goto here next =>
      rw [Draft.apply, mem_edges_addEdge, Call.edges, List.mem_singleton]
      grind
  | branch here value next other =>
      have length (e : Draft) : (e.addEdge here next .whenTrue).blocks.length = e.blocks.length :=
        e.length_modifyBlock here _
      simp only [Draft.apply, Draft.branch, mem_edges_addEdge, length, length_modifyBlock,
        edges_modifyBlock, implies_true, Call.edges, List.mem_cons, List.not_mem_nil, or_false]
      grind
  | setRegion | push =>
      simp [Draft.apply, Draft.setRegion, Draft.push, edges_modifyBlock, Call.edges]
  | block => simp [Draft.apply, Draft.addBlock, Draft.edges, Call.edges]
  | _ => simp [Draft.apply, addParameter, addRegion, Draft.markUnreachable, Draft.edges,
      Draft.addOperation, Draft.setSource, Call.edges]

/-- The edges of a draft are those that calls ask for, from blocks that exist by then. -/
theorem mem_edges_iff (calls : List Call) {edge : Edge} :
    edge ∈ (d.applyAll calls).1.edges ↔ edge ∈ d.edges ∨ d.Records calls edge := by
  induction calls generalizing d with
  | nil => simp [applyAll, Records]
  | cons call rest ih =>
      change edge ∈ ((d.apply call).1.applyAll rest).1.edges ↔ _
      rw [ih, mem_edges_apply, records_cons, or_assoc]

/-! ### What a draft has from its calls -/

namespace Call

def blockKind? : Call → Option BlockKind
  | .block => some .block
  | _ => none

def region? : Call → Option (RegionKind × Option RegionId)
  | .region kind parent => some (kind, parent)
  | _ => none

def operationKind? : Call → Option OperationKind
  | .operation kind _ => some kind
  | .creation constructor _ arguments _ => some (.objectCreation constructor arguments)
  | .assignment target value => some (.assignment target value)
  | _ => none

@[simp] def pushed? (block : BlockId) : Call → Option OperationId
  | .push here root => if here = block then some root else none
  | _ => none

@[simp] def branched? (block : BlockId) : Call → Option OperationId
  | .branch here value _ _ => if here = block then some value else none
  | _ => none

@[simp] def assigned? (block : BlockId) : Call → Option RegionId
  | .setRegion here into => if here = block then some into else none
  | _ => none

/-- The calls after the first so many that make a block. -/
def since : Nat → List Call → List Call
  | 0, calls => calls
  | _ + 1, [] => []
  | n + 1, call :: rest =>
      match call.blockKind? with
      | some _ => since n rest
      | none => since (n + 1) rest

end Call

theorem applyAll_cons (call : Call) (rest : List Call) :
    (d.applyAll (call :: rest)).1 = ((d.apply call).1.applyAll rest).1 := rfl

/-- Where every call adds at most one item to a list, all calls add theirs in order. -/
theorem view_applyAll {β : Type} (view : Draft → List β) {part : Call → Option β}
    (step : ∀ (d : Draft) (call : Call), view (d.apply call).1 = view d ++ (part call).toList)
    (calls : List Call) : view (d.applyAll calls).1 = view d ++ calls.filterMap part := by
  induction calls generalizing d with
  | nil => simp [applyAll]
  | cons call rest ih =>
      rw [applyAll_cons, ih, step, List.append_assoc, List.filterMap_cons]
      cases part call <;> rfl

theorem kinds_modifyBlock {id : BlockId} {change : Block → Block}
    (same : ∀ b, (change b).kind = b.kind) :
    (d.modifyBlock id change).blocks.map Block.kind = d.blocks.map Block.kind :=
  map_modify_of_same same id.index d.blocks

theorem blockKinds_apply (d : Draft) (call : Call) :
    (d.apply call).1.blocks.map Block.kind =
      d.blocks.map Block.kind ++ call.blockKind?.toList := by
  cases call with
  | block => simp [Draft.apply, Draft.addBlock, Call.blockKind?]
  | setRegion | push | goto | branch =>
      simp [Draft.apply, Draft.setRegion, Draft.push, Draft.branch, Draft.addEdge,
        kinds_modifyBlock, Call.blockKind?]
  | _ => simp [Draft.apply, addParameter, addRegion, Draft.markUnreachable, Draft.addOperation,
      Draft.setSource, Call.blockKind?]

theorem regions_apply (d : Draft) (call : Call) :
    (d.apply call).1.regions.map (fun region => (region.kind, region.parent)) =
      d.regions.map (fun region => (region.kind, region.parent)) ++ call.region?.toList := by
  cases call with
  | region => simp [Draft.apply, addRegion, Call.region?]
  | _ => simp [Draft.apply, addParameter, Draft.addBlock, Draft.setRegion, Draft.modifyBlock,
      Draft.markUnreachable, Draft.push, Draft.addEdge, Draft.branch, Draft.addOperation,
      Draft.setSource, Call.region?]

theorem operationKinds_addOperation (d : Draft) (kind : OperationKind) (ty : Option TypeId) :
    (d.addOperation kind ty).operations.map Operation.kind =
      d.operations.map Operation.kind ++ [kind] := by
  rw [Draft.addOperation, List.map_append,
    map_foldl_modify_of_same (by simp) OperationId.index kind.children d.operations]
  rfl

theorem operationKinds_setSource (d : Draft) (operation : OperationId) (fragment : Fragment) :
    (d.setSource operation fragment).operations.map Operation.kind =
      d.operations.map Operation.kind :=
  map_modify_of_same (by simp) operation.index d.operations

theorem operationKinds_apply (d : Draft) (call : Call) :
    (d.apply call).1.operations.map Operation.kind =
      d.operations.map Operation.kind ++ call.operationKind?.toList := by
  cases call with
  | operation | source | creation | assignment =>
      simp [Draft.apply, operationKinds_addOperation, operationKinds_setSource,
        Call.operationKind?]
  | _ => simp [Draft.apply, addParameter, Draft.addBlock, addRegion, Draft.setRegion,
      Draft.modifyBlock, Draft.markUnreachable, Draft.push, Draft.addEdge, Draft.branch,
      Call.operationKind?]

theorem length_blocks_apply (d : Draft) (call : Call) :
    (d.apply call).1.blocks.length = d.blocks.length + call.blockKind?.toList.length := by
  have kinds := congrArg List.length (d.blockKinds_apply call)
  rwa [List.length_map, List.length_append, List.length_map] at kinds

/-- What a block has after some calls: of the branch values and the regions that it is given the
last one counts. -/
structure Gains (calls : List Call) (before after : Block) : Prop where
  id : after.id = before.id
  kind : after.kind = before.kind
  operations : after.operations = before.operations ++ calls.filterMap (Call.pushed? before.id)
  branchValue : after.branchValue =
    (calls.filterMap (Call.branched? before.id)).getLast?.or before.branchValue
  successors : after.successors = before.successors ++
    calls.flatMap fun call => call.edges.filter (·.source = before.id)
  region : after.region = (calls.filterMap (Call.assigned? before.id)).getLast?.or before.region

theorem Gains.nil (b : Block) : Gains [] b b := by
  constructor <;> simp

theorem Gains.append {first second : List Call} {a b c : Block} (start : Gains first a b)
    (later : Gains second b c) : Gains (first ++ second) a c where
  id := later.id.trans start.id
  kind := later.kind.trans start.kind
  operations := by
    rw [later.operations, start.operations, start.id, List.filterMap_append, List.append_assoc]
  branchValue := by
    rw [later.branchValue, start.branchValue, start.id, List.filterMap_append,
      List.getLast?_append, Option.or_assoc]
  successors := by
    rw [later.successors, start.successors, start.id, List.flatMap_append, List.append_assoc]
  region := by
    rw [later.region, start.region, start.id, List.filterMap_append, List.getLast?_append,
      Option.or_assoc]

/-- A block stands at the place that its number says. -/
theorem getElem?_modifyBlock {i : Nat} {b : Block} (stored : d.blocks[i]? = some b)
    (number : b.id.index = i) (id : BlockId) (change : Block → Block) :
    (d.modifyBlock id change).blocks[i]? = some (if id = b.id then change b else b) := by
  have here : id.index = i ↔ id = b.id :=
    ⟨fun index => congrArg BlockId.mk (index.trans number.symm), fun same => same ▸ number⟩
  rw [Draft.modifyBlock, List.getElem?_modify, stored]
  simp only [here, Option.map_eq_map, Option.map_some]

theorem gains_apply {i : Nat} {b : Block} (stored : d.blocks[i]? = some b)
    (number : b.id.index = i) (call : Call) :
    ∃ after, (d.apply call).1.blocks[i]? = some after ∧ Gains [call] b after := by
  cases call with
  | block =>
      have inside : i < d.blocks.length := (List.getElem?_eq_some_iff.mp stored).1
      refine ⟨b, ?_, by constructor <;> simp⟩
      rw [Draft.apply, Draft.addBlock, List.getElem?_append_left inside, stored]
  | setRegion block region =>
      refine ⟨_, getElem?_modifyBlock stored number block _, ?_⟩
      by_cases here : block = b.id <;> constructor <;> simp [here]
  | push block operation =>
      refine ⟨_, getElem?_modifyBlock stored number block _, ?_⟩
      by_cases here : block = b.id <;> constructor <;> simp [here]
  | goto source destination =>
      refine ⟨_, getElem?_modifyBlock stored number source _, ?_⟩
      by_cases here : source = b.id <;> constructor <;> simp [here]
  | branch block value whenTrue whenFalse =>
      have index : block.index = i ↔ block = b.id :=
        ⟨fun index => congrArg BlockId.mk (index.trans number.symm), fun same => same ▸ number⟩
      by_cases here : block = b.id
      · refine ⟨{ b with
          branchValue := some value
          successors := b.successors ++
            [⟨block, whenTrue, .whenTrue⟩, ⟨block, whenFalse, .whenFalse⟩] }, ?_, ?_⟩
        · simp [Draft.apply, Draft.branch, Draft.addEdge, Draft.modifyBlock, stored, index.mpr here]
        · constructor <;> simp [here]
      · refine ⟨b, ?_, by constructor <;> simp [here]⟩
        simp [Draft.apply, Draft.branch, Draft.addEdge, Draft.modifyBlock, stored, mt index.mp here]
  | _ => exact ⟨b, stored, by constructor <;> simp⟩

theorem gains_applyAll {i : Nat} {b : Block} (stored : d.blocks[i]? = some b)
    (number : b.id.index = i) (calls : List Call) :
    ∃ after, (d.applyAll calls).1.blocks[i]? = some after ∧ Gains calls b after := by
  induction calls generalizing d b with
  | nil => exact ⟨b, stored, .nil b⟩
  | cons call rest ih =>
      obtain ⟨next, found, first⟩ := gains_apply stored number call
      obtain ⟨after, last, later⟩ := ih found ((congrArg BlockId.index first.id).trans number)
      exact ⟨after, last, first.append later⟩

/-- A block has what it was given since the call that made it. -/
theorem gains_since {i : Nat} {b : Block} (absent : d.blocks.length ≤ i) (calls : List Call)
    (stored : (d.applyAll calls).1.blocks[i]? = some b) :
    Gains (Call.since (i + 1 - d.blocks.length) calls) { id := ⟨i⟩, kind := .block } b := by
  -- Each call that makes a block brings the draft nearer to the one that makes this block.
  induction calls generalizing d with
  | nil =>
      rw [applyAll, List.getElem?_eq_none absent] at stored
      contradiction
  | cons call rest ih =>
      rw [applyAll_cons] at stored
      have length := d.length_blocks_apply call
      obtain ⟨n, turns⟩ : ∃ n, i + 1 - d.blocks.length = n + 1 := ⟨i - d.blocks.length, by omega⟩
      rw [turns, Call.since]
      cases made : call.blockKind? with
      | none =>
          rw [made, Option.toList_none, List.length_nil, Nat.add_zero] at length
          have later := ih (length ▸ absent) stored
          rwa [length, turns] at later
      | some kind =>
          rw [made, Option.toList_some, List.length_singleton] at length
          change Gains (Call.since n rest) { id := ⟨i⟩, kind := .block } b
          rcases Nat.lt_or_eq_of_le absent with before | here
          · have later := ih (length ▸ before) stored
            rwa [length, show i + 1 - (d.blocks.length + 1) = n by omega] at later
          · -- This call makes the block.
            obtain rfl : n = 0 := by omega
            obtain rfl : call = .block := by cases call <;> first | rfl | contradiction
            have fresh : (d.apply .block).1.blocks[i]? = some { id := ⟨i⟩, kind := .block } := by
              simp [Draft.apply, Draft.addBlock, here]
            obtain ⟨after, found, gains⟩ := gains_applyAll fresh rfl rest
            obtain rfl := Option.some.inj (found.symm.trans stored)
            rwa [Call.since]

structure Follows (d : Draft) (calls : List Call) : Prop where
  marked : ∀ block, block ∈ d.marked ↔ .markUnreachable block ∈ calls
  operations : d.operations.map Operation.kind = calls.filterMap Call.operationKind?
  regions : d.regions.map (fun region => (region.kind, region.parent)) =
    calls.filterMap Call.region?
  kinds : d.blocks.map Block.kind = .entry :: .exit :: calls.filterMap Call.blockKind?
  blocks : ∀ i b, d.blocks[i]? = some b →
    Gains (Call.since (i - 1) calls) { id := ⟨i⟩, kind := b.kind } b

theorem Blank.follows {start : Draft} (blank : start.Blank) (calls : List Call) :
    (start.applyAll calls).1.Follows calls := by
  have fresh : start.operations = [] ∧ start.regions = [] ∧ start.marked = ∅ ∧ start.blocks =
      [{ id := ⟨0⟩, kind := .entry }, { id := ⟨1⟩, kind := .exit }] := by
    rw [blank]
    exact ⟨rfl, rfl, rfl, rfl⟩
  obtain ⟨operations, regions, marked, blocks⟩ := fresh
  have kinds := view_applyAll (·.operations.map Operation.kind) operationKinds_apply calls
    (d := start)
  have drawn := view_applyAll (·.regions.map fun region => (region.kind, region.parent))
    regions_apply calls (d := start)
  have made := view_applyAll (·.blocks.map Block.kind) blockKinds_apply calls (d := start)
  refine
    { marked := fun block => by simp [mem_marked_iff, marked]
      operations := by simpa [operations] using kinds
      regions := by simpa [regions] using drawn
      kinds := by simpa [blocks] using made
      blocks := fun i b stored => ?_ }
  have length : start.blocks.length = 2 := congrArg List.length blocks
  -- The first two blocks are there before any call.
  have first {made : Block} (before : start.blocks[i]? = some made) (number : made.id.index = i) :
      Gains calls made b := by
    obtain ⟨after, found, gains⟩ := gains_applyAll before number calls
    exact Option.some.inj (found.symm.trans stored) ▸ gains
  rcases i with _ | _ | i
  · have gains := first (by rw [blocks]; rfl) rfl
    rw [gains.kind]
    simpa [Call.since] using gains
  · have gains := first (by rw [blocks]; rfl) rfl
    rw [gains.kind]
    simpa [Call.since] using gains
  · have gains := gains_since (length ▸ Nat.le_add_left 2 i) calls stored
    rw [gains.kind]
    simpa [length] using gains

end Draft

end PathCompletion
