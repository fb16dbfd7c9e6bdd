import PathCompletion.Proofs.Flow.Calls
import PathCompletion.Proofs.Flow.Marking

/-!
What a finished draft comes to. A draft is refused only for an edge to a block that is missing or
for a region that is. Otherwise it keeps what the calls gave it, and what is derived when it is
finished is exact: the predecessors of a block, whether unmarked blocks alone lead to it, and the
first block that evaluates an operation.
-/

namespace PathCompletion

/-! ### Paths -/

/-- Where both ends of every step are free, steps lead to a free end along free places only. -/
theorem reaches_iff_path {α : Type} {next : α → List α} {leads : α → α → Prop} {free : α → Prop}
    (steps : ∀ a b, b ∈ next a ↔ free a ∧ free b ∧ leads a b) {a b : α} :
    Reaches next a b ∧ free b ↔
      ∃ path : List α, path.head? = some a ∧ path.getLast? = some b ∧ path.IsChain leads ∧
        ∀ x ∈ path, free x := by
  constructor
  · rintro ⟨reaches, last⟩
    induction reaches with
    | refl x => exact ⟨[x], rfl, rfl, .singleton x, by simpa using last⟩
    | @step x y z edge _ ih =>
        obtain ⟨path, head, ends, chain, passes⟩ := ih last
        obtain ⟨first, -, leads⟩ := (steps x y).mp edge
        obtain ⟨rest, rfl⟩ := List.head?_eq_some_iff.mp head
        refine ⟨x :: y :: rest, rfl, ?_, .cons_cons leads chain, ?_⟩
        · rwa [List.getLast?_cons_cons]
        · exact List.forall_mem_cons.mpr ⟨first, passes⟩
  · rintro ⟨path, head, ends, chain, passes⟩
    induction path generalizing a with
    | nil => contradiction
    | cons x rest ih =>
        obtain rfl : x = a := Option.some.inj head
        cases rest with
        | nil =>
            obtain rfl : x = b := Option.some.inj ends
            exact ⟨.refl x, passes x List.mem_cons_self⟩
        | cons y rest =>
            obtain ⟨first, later⟩ := List.forall_mem_cons.mp passes
            obtain ⟨leads, onward⟩ := List.isChain_cons_cons.mp chain
            rw [List.getLast?_cons_cons] at ends
            obtain ⟨reaches, last⟩ := ih rfl ends onward later
            exact ⟨.step ((steps x y).mpr ⟨first, later y List.mem_cons_self, leads⟩) reaches, last⟩

def Graph.Leads (g : Graph) (a b : BlockId) : Prop :=
  ∃ edge ∈ g.edges, edge.source = a ∧ edge.destination = b

/-! ### Blocks without what is derived -/

theorem map_of_bare {β : Type} {part : Block → β} (kept : ∀ b, part b.bare = part b)
    {blocks others : List Block} (same : blocks.map Block.bare = others.map Block.bare) :
    blocks.map part = others.map part := by
  have parts := congrArg (List.map part) same
  simpa [Function.comp_def, kept] using parts

theorem bare_of_map_eq {blocks others : List Block}
    (same : blocks.map Block.bare = others.map Block.bare) {i : Nat} {b : Block}
    (stored : blocks[i]? = some b) : ∃ other, others[i]? = some other ∧ other.bare = b.bare := by
  have place := congrArg (·[i]?) same
  rw [List.getElem?_map, List.getElem?_map, stored, Option.map_some] at place
  exact Option.map_eq_some_iff.mp place.symm

namespace Draft

variable {d : Draft} {blocks : List Block}

theorem Sound.of_bare (sound : d.Sound) (same : blocks.map Block.bare = d.blocks.map Block.bare) :
    Sound { d with blocks } := by
  refine { sound with
    blocks := sound.blocks.of_map_eq (map_of_bare (fun _ => rfl) same)
    kinds := ?_
    sources := ?_ }
  · rw [map_of_bare (fun _ => rfl) same]
    exact sound.kinds
  · intro block member edge listed
    obtain ⟨i, stored⟩ := List.mem_iff_getElem?.mp member
    obtain ⟨old, found, bare⟩ := bare_of_map_eq same stored
    have listedThere : edge ∈ old.bare.successors := bare ▸ listed
    have number : old.bare.id = block.bare.id := congrArg Block.id bare
    rw [sound.sources old (List.mem_of_getElem? found) edge listedThere]
    exact number

/-! ### What is refused -/

def drawn (d : Draft) : Graph := ⟨d.blocks, d.regions, entry, exit⟩

theorem Sound.hasKind (sound : d.Sound) :
    d.drawn.hasKind entry .entry = true ∧ d.drawn.hasKind exit .exit = true := by
  obtain ⟨later, kinds⟩ := sound.kinds
  have kindAt (i : Nat) : d.blocks[i]?.map Block.kind = ([.entry, .exit] ++ later)[i]? := by
    rw [kinds, List.getElem?_map]
  have entry := kindAt 0
  have exit := kindAt 1
  simp only [List.cons_append, List.getElem?_cons_zero, List.getElem?_cons_succ,
    Option.map_eq_some_iff] at entry exit
  obtain ⟨⟨first, atFirst, isEntry⟩, ⟨second, atSecond, isExit⟩⟩ := And.intro entry exit
  simp [Graph.hasKind, Graph.block?, drawn, Draft.entry, Draft.exit, atFirst, atSecond, isEntry,
    isExit]

theorem Sound.region?_isSome (sound : d.Sound) (id : RegionId) :
    (d.drawn.region? id).isSome = true ↔ id.index < d.regions.length := by
  rw [Graph.region?, List.find?_isSome]
  constructor
  · rintro ⟨region, member, same⟩
    obtain ⟨i, stored⟩ := List.mem_iff_getElem?.mp member
    have number := sound.regions.number_eq stored
    rw [of_decide_eq_true same] at number
    rw [number]
    exact (List.getElem?_eq_some_iff.mp stored).1
  · intro inside
    refine ⟨d.regions[id.index], List.getElem_mem inside, decide_eq_true ?_⟩
    have number := sound.regions.number_eq (List.getElem?_eq_getElem inside)
    exact congrArg RegionId.mk number

theorem Sound.blockFault?_eq_none_iff (sound : d.Sound)
    (ends : ∀ edge ∈ d.edges, edge.destination.index < d.blocks.length) {i : Nat} {block : Block}
    (stored : d.blocks[i]? = some block) :
    d.drawn.blockFault? block i = none ↔
      ∀ region ∈ block.region, region.index < d.regions.length := by
  have number : block.id.index = i := sound.blocks.number_eq stored
  have fine : block.successors.find? (fun edge => !d.drawn.soundEdge block edge) = none := by
    refine List.find?_eq_none.mpr fun edge listed => ?_
    have member : block ∈ d.blocks := List.mem_of_getElem? stored
    have inside := ends edge (List.mem_flatMap.mpr ⟨block, member, listed⟩)
    simp [Graph.soundEdge, Graph.block?, drawn, sound.sources block member edge listed, inside]
  unfold Graph.blockFault?
  rw [if_neg (not_not.mpr number), fine]
  cases block.region with
  | none => simp
  | some region => simp [← sound.region?_isSome region, Option.isSome_iff_ne_none]

theorem Sound.valid_iff (sound : d.Sound)
    (ends : ∀ edge ∈ d.edges, edge.destination.index < d.blocks.length) :
    d.drawn.Valid ↔
      ∀ block ∈ d.blocks, ∀ region ∈ block.region, region.index < d.regions.length := by
  have isEntry : d.drawn.hasKind d.drawn.entry .entry = true := sound.hasKind.1
  have isExit : d.drawn.hasKind d.drawn.exit .exit = true := sound.hasKind.2
  simp only [Graph.Valid, Graph.fault?, isEntry, isExit, Bool.not_true, Bool.false_eq_true,
    if_false, List.findSome?_eq_none_iff, Prod.forall, List.mem_zipIdx_iff_getElem?]
  constructor
  · intro faultless block member
    obtain ⟨i, stored⟩ := List.mem_iff_getElem?.mp member
    exact (sound.blockFault?_eq_none_iff ends stored).mp (faultless block i stored)
  · intro known block i stored
    exact (sound.blockFault?_eq_none_iff ends stored).mpr
      (known block (List.mem_of_getElem? stored))

/-! ### What is derived -/

theorem targets_of_map_eq {others : List Block}
    (same : blocks.map Block.bare = others.map Block.bare) (block : BlockId) :
    targets blocks block = targets others block := by
  have bare (list : List Block) : targets list block = targets (list.map Block.bare) block := by
    rw [targets, targets, List.getElem?_map]
    cases list[block.index]? <;> rfl
  rw [bare blocks, same, ← bare others]

theorem Sound.mem_targets_iff (sound : d.Sound) {a b : BlockId} :
    b ∈ targets d.blocks a ↔ ∃ edge ∈ d.edges, edge.source = a ∧ edge.destination = b := by
  simp only [Draft.edges, List.mem_flatMap, targets]
  constructor
  · intro target
    cases stored : d.blocks[a.index]? with
    | none => simp [stored] at target
    | some block =>
        rw [stored] at target
        obtain ⟨edge, listed, into⟩ := List.mem_map.mp target
        have member := List.mem_of_getElem? stored
        refine ⟨edge, ⟨block, member, listed⟩, ?_, into⟩
        rw [sound.sources block member edge listed]
        exact congrArg BlockId.mk (sound.blocks.number_eq stored)
  · rintro ⟨edge, ⟨block, member, listed⟩, rfl, into⟩
    obtain ⟨i, stored⟩ := List.mem_iff_getElem?.mp member
    rw [sound.sources block member edge listed, sound.blocks.number_eq stored, stored]
    exact List.mem_map.mpr ⟨edge, listed, into⟩

section

variable (sound : d.Sound) (linked : d.linked = .ok blocks)

include linked

theorem ends_of_linked : ∀ edge ∈ d.edges, edge.destination.index < d.blocks.length := by
  have inside := foldlM_link_eq_ok_iff.mp ⟨blocks, linked⟩
  rwa [unlinked, List.length_map] at inside

theorem noted_of_linked {i : Nat} :
    Option.Rel (Noted d.edges i) (d.blocks[i]?.map fun b => { b with predecessors := [] })
      blocks[i]? := by
  have noted := noted_foldlM_link linked i
  rwa [unlinked, List.getElem?_map] at noted

theorem bare_of_linked : blocks.map Block.bare = d.blocks.map Block.bare := by
  apply List.ext_getElem?
  intro i
  have noted := noted_of_linked linked (i := i)
  rw [List.getElem?_map, List.getElem?_map]
  generalize d.blocks[i]? = before, blocks[i]? = after at noted ⊢
  cases before with
  | none =>
      obtain _ | _ := noted
      rfl
  | some b =>
      obtain noted | _ := noted
      exact congrArg some noted.bare

include sound

theorem inside_of_linked :
    blocks ≠ [] ∧ ∀ block, ∀ target ∈ targets blocks block, target.index < blocks.length := by
  have same := bare_of_linked linked
  have length : blocks.length = d.blocks.length := by
    rw [← List.length_map (f := Block.bare), same, List.length_map]
  constructor
  · obtain ⟨later, kinds⟩ := sound.kinds
    have some := congrArg List.length kinds
    simp only [List.length_append, List.length_cons, List.length_map] at some
    exact List.ne_nil_of_length_pos (by omega)
  · intro block target listed
    rw [targets_of_map_eq same, sound.mem_targets_iff] at listed
    obtain ⟨edge, member, -, rfl⟩ := listed
    rw [length]
    exact ends_of_linked linked edge member

theorem bare_finished : (d.flag blocks).map Block.bare = d.blocks.map Block.bare := by
  obtain ⟨nonempty, inside⟩ := inside_of_linked sound linked
  exact (bare_flag nonempty inside).trans (bare_of_linked linked)

/-- What a block in the finished graph has besides what the calls gave it. -/
theorem finished_block {i : Nat} {block : Block} (found : (d.flag blocks)[i]? = some block) :
    (block.predecessors.Nodup ∧ ∀ source, source ∈ block.predecessors ↔
      ∃ edge ∈ d.edges, edge.source = source ∧ edge.destination = ⟨i⟩) ∧
    (block.isReachable = true ↔
      Reaches (onward blocks d.marked) entry ⟨i⟩ ∧ (⟨i⟩ : BlockId) ∉ d.marked) := by
  obtain ⟨nonempty, inside⟩ := inside_of_linked sound linked
  obtain ⟨b, stored, predecessors, reachable⟩ := reachable_flag nonempty inside found
  have number : b.id = ⟨i⟩ :=
    congrArg BlockId.mk ((sound.of_bare (bare_of_linked linked)).blocks.number_eq stored)
  rw [number] at reachable
  refine ⟨?_, reachable⟩
  have noted := noted_of_linked linked (i := i)
  cases drawn : d.blocks[i]? with
  | none =>
      rw [drawn, stored] at noted
      contradiction
  | some before =>
      rw [drawn, stored] at noted
      obtain noted | _ := noted
      have place (b : BlockId) : b.index = i ↔ b = ⟨i⟩ :=
        ⟨fun index => congrArg BlockId.mk index, fun same => same ▸ rfl⟩
      rw [predecessors]
      exact ⟨noted.nodup List.nodup_nil, fun source => by simp [noted.sources, place]⟩

end

theorem build_eq_ok_iff {p : Procedure} :
    d.build = .ok p ↔
      ∃ blocks, d.linked = .ok blocks ∧ (d.procedure blocks).graph.Valid ∧
        d.procedure blocks = p := by
  rw [build]
  cases linked : d.linked with
  | error fault => simp [bind, Except.bind, Except.mapError]
  | ok blocks =>
      cases found : (d.procedure blocks).graph.fault? with
      | some fault =>
          simp [bind, Except.bind, found, Except.mapError, Graph.Valid, throw, throwThe,
            MonadExceptOf.throw]
      | none => simp [bind, Except.bind, found, Except.mapError, Graph.Valid, pure, Except.pure]

theorem edges_of_bare (same : blocks.map Block.bare = d.blocks.map Block.bare) :
    blocks.flatMap Block.successors = d.edges := by
  rw [Draft.edges, List.flatMap_def, List.flatMap_def, map_of_bare (fun _ => rfl) same]

theorem Sound.valid_procedure_iff (sound : d.Sound) (linked : d.linked = .ok blocks) :
    (d.procedure blocks).graph.Valid ↔
      ∀ block ∈ d.blocks, ∀ region ∈ block.region, region.index < d.regions.length := by
  have same := bare_finished sound linked
  have ends : ∀ edge ∈ Draft.edges { d with blocks := d.flag blocks },
      edge.destination.index < (d.flag blocks).length := by
    have length := congrArg List.length same
    rw [List.length_map, List.length_map] at length
    rw [Draft.edges, edges_of_bare same, length]
    exact ends_of_linked linked
  have known (list : List Block) :
      (∀ block ∈ list, ∀ region ∈ block.region, region.index < d.regions.length) ↔
        ∀ into ∈ list.map Block.region, ∀ region ∈ into, region.index < d.regions.length := by
    simp only [List.forall_mem_map]
  rw [known, ← map_of_bare (fun _ => rfl) same, ← known]
  exact (sound.of_bare same).valid_iff ends

theorem Sound.exists_build_iff (sound : d.Sound) :
    (∃ p, d.build = .ok p) ↔
      (∀ edge ∈ d.edges, edge.destination.index < d.blocks.length) ∧
        ∀ block ∈ d.blocks, ∀ region ∈ block.region, region.index < d.regions.length := by
  simp only [build_eq_ok_iff]
  constructor
  · rintro ⟨p, blocks, linked, valid, -⟩
    exact ⟨ends_of_linked linked, (sound.valid_procedure_iff linked).mp valid⟩
  · rintro ⟨ends, known⟩
    obtain ⟨blocks, linked⟩ : ∃ blocks, d.linked = .ok blocks :=
      foldlM_link_eq_ok_iff.mpr (by rwa [unlinked, List.length_map])
    exact ⟨_, blocks, linked, (sound.valid_procedure_iff linked).mpr known, rfl⟩

/-! ### The block that evaluates an operation -/

section

variable (sound : d.Sound) (linked : d.linked = .ok blocks)

include sound linked

theorem evaluates_iff {block : BlockId} {id : OperationId} :
    (d.procedure blocks).Evaluates block id ↔
      id.index < d.operations.length ∧ ∃ b ∈ blocks, b.id = block ∧
        ∃ root ∈ b.roots, Reaches (operandsIn d.operations) root id := by
  have placed := (sound.of_bare (bare_of_linked linked)).blocks
  have same := (bare_finished sound linked).trans (bare_of_linked linked).symm
  have inside : ((d.procedure blocks).operation? id).isSome = true ↔
      id.index < d.operations.length := by
    rw [Procedure.operation?, isSome_getElem?]
    rfl
  rw [Procedure.Evaluates, inside]
  refine and_congr_right fun _ => ?_
  constructor
  · rintro ⟨b, found, root, isRoot, reaches⟩
    obtain ⟨other, stored, bare⟩ := bare_of_map_eq same found
    have roots : other.bare.roots = b.bare.roots := congrArg Block.roots bare
    refine ⟨other, List.mem_of_getElem? stored, ?_, root, roots ▸ isRoot, reaches⟩
    exact congrArg BlockId.mk (placed.number_eq stored)
  · rintro ⟨b, member, rfl, root, isRoot, reaches⟩
    obtain ⟨i, stored⟩ := List.mem_iff_getElem?.mp member
    obtain rfl : b.id.index = i := placed.number_eq stored
    obtain ⟨other, found, bare⟩ := bare_of_map_eq same.symm stored
    have roots : other.bare.roots = b.bare.roots := congrArg Block.roots bare
    exact ⟨other, found, root, roots ▸ isRoot, reaches⟩

theorem least_of_blockOf? {id : OperationId} {block : BlockId}
    (owned : (d.procedure blocks).blockOf? id = some block) :
    (d.procedure blocks).Evaluates block id ∧
      ∀ other, (d.procedure blocks).Evaluates other id → block.index ≤ other.index := by
  have placed := (sound.of_bare (bare_of_linked linked)).blocks
  have ordered : blocks.Pairwise fun a b => a.id.index < b.id.index :=
    List.pairwise_map.mp (placed.symm ▸ List.pairwise_lt_range)
  obtain ⟨inside, evaluates, least⟩ :=
    least_of_owners ordered (Option.join_eq_some_iff.mp owned)
  refine ⟨(evaluates_iff sound linked).mpr ⟨inside, evaluates⟩, fun other evaluatesToo => ?_⟩
  obtain ⟨-, b, member, rfl, below⟩ := (evaluates_iff sound linked).mp evaluatesToo
  exact least b member below

theorem blockOf?_ne_none {id : OperationId} {block : BlockId}
    (evaluates : (d.procedure blocks).Evaluates block id) :
    (d.procedure blocks).blockOf? id ≠ none := by
  obtain ⟨inside, b, member, -, root, isRoot, reaches⟩ := (evaluates_iff sound linked).mp evaluates
  obtain ⟨owner, owned⟩ := owned_of_reaches inside member isRoot reaches
  rw [Procedure.blockOf?, procedure, owned]
  exact Option.some_ne_none owner

theorem blockOf?_eq_some_iff {id : OperationId} {block : BlockId} :
    (d.procedure blocks).blockOf? id = some block ↔ (d.procedure blocks).Evaluates block id ∧
      ∀ other, (d.procedure blocks).Evaluates other id → block.index ≤ other.index := by
  refine ⟨least_of_blockOf? sound linked, fun ⟨evaluates, least⟩ => ?_⟩
  -- Some block is the owner, and two blocks that are both least are one.
  obtain ⟨first, owned⟩ := Option.ne_none_iff_exists'.mp (blockOf?_ne_none sound linked evaluates)
  obtain ⟨evaluatesFirst, leastFirst⟩ := least_of_blockOf? sound linked owned
  have same := Nat.le_antisymm (leastFirst block evaluates) (least first evaluatesFirst)
  rw [owned]
  exact congrArg (some ∘ BlockId.mk) same

end

/-! ### Finished procedures -/

/-- The derived parts of a procedure are what its edges, its operations and the marks come to. -/
structure Exact (p : Procedure) (marked : BlockId → Prop) : Prop where
  number : ∀ id op, p.operation? id = some op → op.id = id
  predecessors : ∀ id block, p.graph.block? id = some block →
    block.predecessors.Nodup ∧ ∀ source, source ∈ block.predecessors ↔ p.graph.Leads source id
  reachable : ∀ id block, p.graph.block? id = some block →
    (block.isReachable = true ↔
      ∃ path : List BlockId, path.head? = some p.graph.entry ∧ path.getLast? = some id ∧
        path.IsChain p.graph.Leads ∧ ∀ passed ∈ path, ¬ marked passed)
  owner : ∀ id block, p.blockOf? id = some block ↔
    p.Evaluates block id ∧ ∀ other, p.Evaluates other id → block.index ≤ other.index
  unowned : ∀ id, p.blockOf? id = none ↔ ∀ block, ¬ p.Evaluates block id

theorem Sound.exact (sound : d.Sound) (linked : d.linked = .ok blocks) :
    Exact (d.procedure blocks) (· ∈ d.marked) := by
  have edges : (d.procedure blocks).graph.edges = d.edges :=
    edges_of_bare (bare_finished sound linked)
  have leads (a b : BlockId) : (d.procedure blocks).graph.Leads a b ↔
      ∃ edge ∈ d.edges, edge.source = a ∧ edge.destination = b := by
    rw [Graph.Leads, edges]
  have steps (a b : BlockId) : b ∈ onward blocks d.marked a ↔
      a ∉ d.marked ∧ b ∉ d.marked ∧ (d.procedure blocks).graph.Leads a b := by
    rw [mem_onward_iff, targets_of_map_eq (bare_of_linked linked), sound.mem_targets_iff, leads]
  refine
    { number := fun id _ stored => congrArg OperationId.mk (sound.operations.number_eq stored)
      predecessors := fun id block found => ?_
      reachable := fun id block found => ?_
      owner := fun id block => blockOf?_eq_some_iff sound linked
      unowned := fun id => ?_ }
  · obtain ⟨⟨nodup, sources⟩, -⟩ := finished_block sound linked found
    exact ⟨nodup, fun source => (sources source).trans (leads source id).symm⟩
  · exact (finished_block sound linked found).2.trans (reaches_iff_path steps)
  · constructor
    · exact fun unowned block evaluates => blockOf?_ne_none sound linked evaluates unowned
    · intro unevaluated
      by_contra owned
      obtain ⟨block, owner⟩ := Option.ne_none_iff_exists'.mp owned
      exact unevaluated block (least_of_blockOf? sound linked owner).1

/-- Whatever was called on a new draft, it has what the calls say, and it is refused only for an
edge to a block that is missing or for a block in a region that is. A draft that is not refused
keeps its operations, its regions and its blocks, and what is derived from them is exact. -/
theorem finished_draft_is_exact {start d : Draft} (blank : start.Blank) (calls : List Call)
    (called : (start.applyAll calls).1 = d) :
    d.Follows calls ∧
    (∀ edge, edge ∈ d.edges ↔ start.Records calls edge) ∧
    ((∃ p, d.build = .ok p) ↔
      (∀ edge ∈ d.edges, edge.destination.index < d.blocks.length) ∧
        ∀ block ∈ d.blocks, ∀ region ∈ block.region, region.index < d.regions.length) ∧
    ∀ p, d.build = .ok p →
      p.operations = d.operations ∧
      p.graph.blocks.map Block.bare = d.blocks.map Block.bare ∧
      p.graph.regions = d.regions ∧ p.graph.entry = entry ∧ p.graph.exit = exit ∧
      Exact p fun block => .markUnreachable block ∈ calls := by
  have sound : d.Sound := called ▸ blank.sound.applyAll calls
  have follows : d.Follows calls := called ▸ blank.follows calls
  refine ⟨follows, fun edge => ?_, sound.exists_build_iff, fun p built => ?_⟩
  · have nothing : start.edges = [] := by
      rw [blank]
      rfl
    rw [← called, mem_edges_iff, nothing]
    simp
  · obtain ⟨blocks, linked, -, rfl⟩ := build_eq_ok_iff.mp built
    have marks : (· ∈ d.marked) = fun block => .markUnreachable block ∈ calls :=
      funext fun block => propext (follows.marked block)
    exact ⟨rfl, bare_finished sound linked, rfl, rfl, rfl, marks ▸ sound.exact linked⟩

/-- Two blocks in a loop. They share an operand, one of their operations has an operand that is
missing, the edge between them is there twice, one edge starts nowhere, and the exit can only be
reached through a block that is marked. That block is put into a region, and then into another. -/
def sharingCalls : List Call :=
  [.block, .block, .operation .literal none, .operation .literal none,
    .operation (.other [⟨0⟩, ⟨9⟩, ⟨1⟩]) none, .operation (.other [⟨1⟩, ⟨2⟩]) none,
    .push ⟨3⟩ ⟨3⟩, .push ⟨2⟩ ⟨1⟩, .goto ⟨0⟩ ⟨2⟩, .goto ⟨2⟩ ⟨3⟩, .goto ⟨2⟩ ⟨3⟩, .goto ⟨8⟩ ⟨8⟩,
    .branch ⟨3⟩ ⟨0⟩ ⟨1⟩ ⟨2⟩, .markUnreachable ⟨3⟩, .region .try none, .setRegion ⟨3⟩ ⟨0⟩,
    .region .catch (some ⟨0⟩), .setRegion ⟨3⟩ ⟨1⟩, .setRegion ⟨4⟩ ⟨5⟩]

def sharing : Draft := (({ id := ⟨1⟩, name := "Run" } : Draft).applyAll sharingCalls).1

theorem sharing_is_exact :
    sharing.Follows sharingCalls ∧ ∃ p, sharing.build = .ok p ∧
      (Exact p fun block => .markUnreachable block ∈ sharingCalls) ∧
      [⟨1⟩, ⟨0⟩, ⟨9⟩].map p.blockOf? = [some ⟨2⟩, some ⟨3⟩, none] ∧
      p.graph.blocks.map Block.roots = [[], [], [⟨1⟩], [⟨3⟩, ⟨0⟩]] ∧
      p.graph.blocks.map Block.region = [none, none, none, some ⟨1⟩] ∧
      p.graph.blocks.map Block.predecessors = [[], [⟨3⟩], [⟨0⟩, ⟨3⟩], [⟨2⟩]] ∧
      p.graph.blocks.map Block.isReachable = [true, false, true, false] := by
  have blank : ({ id := ⟨1⟩, name := "Run" } : Draft).Blank := rfl
  obtain ⟨follows, -, builds, finished⟩ :=
    finished_draft_is_exact (d := sharing) blank sharingCalls rfl
  obtain ⟨p, built⟩ := builds.mpr (by decide)
  obtain ⟨-, -, -, -, -, exact⟩ := finished p built
  have run : ∀ p ∈ sharing.build.toOption,
      [⟨1⟩, ⟨0⟩, ⟨9⟩].map p.blockOf? = [some ⟨2⟩, some ⟨3⟩, none] ∧
        p.graph.blocks.map Block.roots = [[], [], [⟨1⟩], [⟨3⟩, ⟨0⟩]] ∧
        p.graph.blocks.map Block.region = [none, none, none, some ⟨1⟩] ∧
        p.graph.blocks.map Block.predecessors = [[], [⟨3⟩], [⟨0⟩, ⟨3⟩], [⟨2⟩]] ∧
        p.graph.blocks.map Block.isReachable = [true, false, true, false] := by decide +kernel
  exact ⟨follows, p, built, exact, run p (by rw [built]; rfl)⟩

end Draft

end PathCompletion
