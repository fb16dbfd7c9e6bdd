import PathCompletion.Flow.Draft
import PathCompletion.Proofs.Flow.Operand
import PathCompletion.Proofs.Walk

/-!
The three loops that finish a draft, each with what it comes to. The scan of the edges notes the
sources of the edges into a block. The sweep flags the blocks that unmarked steps lead to from the
entry: what is flagged waits in the queue or has all that follows it flagged. And where whatever is
below a claimed operation is claimed or waits on the stack, claiming gives a block just the
unclaimed operations below its roots.
-/

namespace PathCompletion

def Block.bare (block : Block) : Block := { block with predecessors := [], isReachable := true }

namespace Draft

/-! ### The scan of the edges -/

section Predecessors

theorem bare_note (source : BlockId) (b : Block) : (note source b).bare = b.bare := by
  unfold note
  split <;> rfl

theorem mem_predecessors_note {source other : BlockId} {b : Block} :
    other ∈ (note source b).predecessors ↔ other ∈ b.predecessors ∨ other = source := by
  unfold note
  split
  · next known => exact ⟨.inl, fun either => either.elim (fun before => before) (· ▸ known)⟩
  · simp

theorem nodup_predecessors_note {source : BlockId} {b : Block} (nodup : b.predecessors.Nodup) :
    (note source b).predecessors.Nodup := by
  unfold note
  split
  · exact nodup
  · next unknown => exact List.concat_eq_append ▸ nodup.concat unknown

/-- The block at a place after a scan has noted the edges into that place. -/
structure Noted (edges : List Edge) (place : Nat) (before after : Block) : Prop where
  bare : after.bare = before.bare
  nodup : before.predecessors.Nodup → after.predecessors.Nodup
  sources : ∀ source, source ∈ after.predecessors ↔
    source ∈ before.predecessors ∨ ∃ edge ∈ edges, edge.source = source ∧
      edge.destination.index = place

theorem Noted.nil (place : Nat) (b : Block) : Noted [] place b b :=
  ⟨rfl, fun nodup => nodup, by simp⟩

theorem Noted.cons {edge : Edge} {rest : List Edge} {place : Nat} {before after : Block}
    (later : Noted rest place
      (if edge.destination.index = place then note edge.source before else before) after) :
    Noted (edge :: rest) place before after := by
  by_cases into : edge.destination.index = place
  · rw [if_pos into] at later
    refine ⟨later.bare.trans (bare_note edge.source before),
      fun nodup => later.nodup (nodup_predecessors_note nodup), fun source => ?_⟩
    simp only [later.sources, mem_predecessors_note, List.exists_mem_cons_iff, into, and_true,
      or_assoc, @eq_comm _ source]
  · rw [if_neg into] at later
    refine ⟨later.bare, later.nodup, fun source => ?_⟩
    simp only [later.sources, List.exists_mem_cons_iff, into, and_false, false_or]

/-- The scan succeeds if all edges end at blocks. -/
theorem foldlM_link_eq_ok_iff {edges : List Edge} {blocks : List Block} :
    (∃ after, edges.foldlM link blocks = .ok after) ↔
      ∀ edge ∈ edges, edge.destination.index < blocks.length := by
  induction edges generalizing blocks with
  | nil => simp [pure, Except.pure]
  | cons edge rest ih =>
      rw [List.foldlM_cons, List.forall_mem_cons, link]
      split
      · next inside =>
        have later := @ih (blocks.modify edge.destination.index (note edge.source))
        rw [List.length_modify] at later
        exact later.trans (and_iff_right inside).symm
      · next outside =>
        exact iff_of_false (fun ⟨_, failed⟩ => nomatch failed) fun inside => outside inside.1

theorem noted_foldlM_link {edges : List Edge} {blocks after : List Block}
    (scanned : edges.foldlM link blocks = .ok after) (place : Nat) :
    Option.Rel (Noted edges place) blocks[place]? after[place]? := by
  induction edges generalizing blocks with
  | nil =>
      obtain rfl : blocks = after := Except.ok.inj scanned
      cases blocks[place]? with
      | none => exact .none
      | some b => exact .some (.nil place b)
  | cons edge rest ih =>
      rw [List.foldlM_cons, link] at scanned
      split at scanned
      · have later := ih scanned
        rw [List.getElem?_modify] at later
        generalize blocks[place]? = before, after[place]? = found at later ⊢
        cases before with
        | none =>
            obtain _ | _ := later
            exact .none
        | some b =>
            obtain later | _ := later
            exact .some (.cons later)
      · contradiction

end Predecessors

/-! ### The sweep -/

section Reachability

variable {marked : SortedSet BlockId}

namespace Sweep

variable {sweep : Sweep}

def Flagged (sweep : Sweep) (block : BlockId) : Prop := sweep.reached[block.index]? = some true

@[simp] theorem length_enqueue (target : BlockId) :
    (sweep.enqueue marked target).reached.length = sweep.reached.length := by
  unfold enqueue
  split
  · exact List.length_set
  · rfl

theorem flagged_of_ne_false {block : BlockId} (inside : block.index < sweep.reached.length)
    (flagged : sweep.reached[block.index]? ≠ some false) : sweep.Flagged block := by
  rw [List.getElem?_eq_getElem inside, ne_eq, Option.some.injEq, Bool.not_eq_false] at flagged
  rw [Flagged, List.getElem?_eq_getElem inside, flagged]

theorem flagged_enqueue {target block : BlockId} (inside : target.index < sweep.reached.length) :
    (sweep.enqueue marked target).Flagged block ↔
      sweep.Flagged block ∨ block = target ∧ target ∉ marked := by
  unfold enqueue
  split
  · next fresh =>
    by_cases same : block = target
    · subst same
      exact iff_of_true (List.getElem?_set_self inside) (.inr ⟨rfl, fresh.2⟩)
    · have apart : target.index ≠ block.index := fun index =>
        same (congrArg BlockId.mk index.symm)
      simp only [Flagged, List.getElem?_set_ne apart, same, false_and, or_false]
  · next known =>
    refine ⟨.inl, fun either => either.elim (fun before => before) ?_⟩
    rintro ⟨rfl, unmarked⟩
    exact flagged_of_ne_false inside fun unflagged => known ⟨unflagged, unmarked⟩

theorem mem_queue_enqueue {target block : BlockId} (inside : target.index < sweep.reached.length) :
    block ∈ (sweep.enqueue marked target).queue ↔
      block ∈ sweep.queue ∨ block = target ∧ target ∉ marked ∧ ¬ sweep.Flagged target := by
  unfold enqueue
  split
  · next fresh =>
    have unflagged : ¬ sweep.Flagged target := by simp [Flagged, fresh.1]
    simp [fresh.2, unflagged]
  · next known =>
    refine ⟨.inl, fun either => either.elim (fun before => before) ?_⟩
    rintro ⟨rfl, unmarked, unflagged⟩
    exact absurd (flagged_of_ne_false inside fun free => known ⟨free, unmarked⟩) unflagged

theorem flagged_scan {targets : List BlockId} {block : BlockId}
    (inside : ∀ target ∈ targets, target.index < sweep.reached.length) :
    (sweep.scan marked targets).Flagged block ↔
      sweep.Flagged block ∨ block ∈ targets ∧ block ∉ marked := by
  induction targets generalizing sweep with
  | nil => simp [scan]
  | cons target rest ih =>
      obtain ⟨first, later⟩ := List.forall_mem_cons.mp inside
      change ((sweep.enqueue marked target).scan marked rest).Flagged block ↔ _
      rw [ih (by simpa using later), flagged_enqueue first, List.mem_cons]
      grind

theorem mem_queue_scan {targets : List BlockId} {block : BlockId}
    (inside : ∀ target ∈ targets, target.index < sweep.reached.length) :
    block ∈ (sweep.scan marked targets).queue ↔
      block ∈ sweep.queue ∨ block ∈ targets ∧ block ∉ marked ∧ ¬ sweep.Flagged block := by
  induction targets generalizing sweep with
  | nil => simp [scan]
  | cons target rest ih =>
      obtain ⟨first, later⟩ := List.forall_mem_cons.mp inside
      change block ∈ ((sweep.enqueue marked target).scan marked rest).queue ↔ _
      rw [ih (by simpa using later), flagged_enqueue first, mem_queue_enqueue first, List.mem_cons]
      grind

theorem length_scan (targets : List BlockId) :
    (sweep.scan marked targets).reached.length = sweep.reached.length := by
  induction targets generalizing sweep with
  | nil => rfl
  | cons target rest ih => exact ih.trans (length_enqueue target)

end Sweep

variable {blocks : List Block} {sweep : Sweep}

/-- The steps of the sweep: no block that is marked is left or entered. -/
def onward (blocks : List Block) (marked : SortedSet BlockId) (block : BlockId) : List BlockId :=
  if block ∈ marked then [] else (targets blocks block).filter (· ∉ marked)

theorem mem_onward_iff {a b : BlockId} :
    b ∈ onward blocks marked a ↔ a ∉ marked ∧ b ∉ marked ∧ b ∈ targets blocks a := by
  unfold onward
  split
  · next isMarked => simp [isMarked]
  · next unmarked => simp [unmarked, and_comm]

structure Sweep.Underway (blocks : List Block) (marked : SortedSet BlockId) (sweep : Sweep) :
    Prop where
  length : sweep.reached.length = blocks.length
  started : sweep.Flagged entry
  genuine : ∀ block, sweep.Flagged block → Reaches (onward blocks marked) entry block
  queued : ∀ block ∈ sweep.queue, sweep.Flagged block
  covered : ∀ block, sweep.Flagged block →
    block ∈ sweep.queue ∨ ∀ next ∈ onward blocks marked block, sweep.Flagged next

theorem Sweep.Underway.start (nonempty : blocks ≠ []) :
    (Sweep.start blocks.length).Underway blocks marked := by
  have only {block : BlockId} (flagged : (Sweep.start blocks.length).Flagged block) :
      block = entry := by
    by_contra other
    have apart : entry.index ≠ block.index := fun index => other (congrArg BlockId.mk index.symm)
    rw [Sweep.Flagged, Sweep.start, List.getElem?_set_ne apart] at flagged
    exact absurd (List.eq_of_mem_replicate (List.mem_of_getElem? flagged)) (by decide)
  refine
    { length := by simp [Sweep.start]
      started := ?_
      genuine := fun block flagged => (only flagged).symm ▸ .refl entry
      queued := ?_
      covered := fun block flagged => .inl (List.mem_singleton.mpr (only flagged)) }
  · exact List.getElem?_set_self (by simpa [entry, List.length_pos_iff] using nonempty)
  · intro block waiting
    rw [List.mem_singleton.mp waiting]
    exact List.getElem?_set_self (by simpa [entry, List.length_pos_iff] using nonempty)

section

variable {block : BlockId} {rest : List BlockId} {reached : List Bool}

/-- A turn at a block that is marked: nothing follows it. -/
theorem Sweep.Underway.skip (underway : Sweep.Underway blocks marked ⟨block :: rest, reached⟩)
    (isMarked : block ∈ marked) : Sweep.Underway blocks marked ⟨rest, reached⟩ where
  length := underway.length
  started := underway.started
  genuine := underway.genuine
  queued other waiting := underway.queued other (List.mem_cons_of_mem block waiting)
  covered other flagged := by
    rcases underway.covered other flagged with waiting | covered
    · rcases List.mem_cons.mp waiting with rfl | later
      · exact .inr fun next follows => absurd isMarked (mem_onward_iff.mp follows).1
      · exact .inl later
    · exact .inr covered

/-- A turn at a block that is not marked: all that follows it is flagged, and what was not flagged
before waits. -/
theorem Sweep.Underway.scan (underway : Sweep.Underway blocks marked ⟨block :: rest, reached⟩)
    (unmarked : block ∉ marked)
    (inside : ∀ target ∈ targets blocks block, target.index < blocks.length) :
    Sweep.Underway blocks marked (Sweep.scan marked (targets blocks block) ⟨rest, reached⟩) := by
  let next := Sweep.scan marked (targets blocks block) ⟨rest, reached⟩
  have inReach : ∀ target ∈ targets blocks block, target.index < reached.length :=
    underway.length.symm ▸ inside
  have now : reached[block.index]? = some true := underway.queued block List.mem_cons_self
  have flagged (other : BlockId) : next.Flagged other ↔
      reached[other.index]? = some true ∨ other ∈ targets blocks block ∧ other ∉ marked :=
    Sweep.flagged_scan inReach
  have waiting (other : BlockId) : other ∈ next.queue ↔ other ∈ rest ∨
      other ∈ targets blocks block ∧ other ∉ marked ∧ ¬ reached[other.index]? = some true :=
    Sweep.mem_queue_scan inReach
  refine
    { length := (Sweep.length_scan _).trans underway.length
      started := (flagged entry).mpr (.inl underway.started)
      genuine := fun other here => ?_
      queued := fun other waits => ?_
      covered := fun other here => ?_ }
  · rcases (flagged other).mp here with before | ⟨target, free⟩
    · exact underway.genuine other before
    · exact (underway.genuine block now).snoc (mem_onward_iff.mpr ⟨unmarked, free, target⟩)
  · refine (flagged other).mpr (((waiting other).mp waits).imp (fun before => ?_) ?_)
    · exact underway.queued other (List.mem_cons_of_mem block before)
    · exact fun ⟨target, free, _⟩ => ⟨target, free⟩
  -- What was flagged keeps its reason, but for the block itself, which leaves the queue.
  · by_cases before : reached[other.index]? = some true
    · rcases underway.covered other before with waits | covered
      · rcases List.mem_cons.mp waits with rfl | later
        · right
          intro after follows
          obtain ⟨-, free, target⟩ := mem_onward_iff.mp follows
          exact (flagged after).mpr (.inr ⟨target, free⟩)
        · exact .inl ((waiting other).mpr (.inl later))
      · exact .inr fun after follows => (flagged after).mpr (.inl (covered after follows))
    · obtain ⟨target, free⟩ := ((flagged other).mp here).resolve_left before
      exact .inl ((waiting other).mpr (.inr ⟨target, free, before⟩))

end

theorem Sweep.Underway.spread
    (inside : ∀ block, ∀ target ∈ targets blocks block, target.index < blocks.length)
    (underway : Sweep.Underway blocks marked sweep) :
    (spread blocks marked sweep).Underway blocks marked ∧
      (Draft.spread blocks marked sweep).queue = [] := by
  induction sweep using spread.induct blocks marked with
  | case1 reached =>
      rw [Draft.spread]
      exact ⟨underway, rfl⟩
  | case2 block rest reached isMarked ih =>
      rw [Draft.spread, if_pos isMarked]
      exact ih (underway.skip isMarked)
  | case3 block rest reached unmarked ih =>
      rw [Draft.spread, if_neg unmarked]
      exact ih (underway.scan unmarked (inside block))

/-- The sweep flags the blocks that its steps lead to. -/
theorem flagged_spread_iff (nonempty : blocks ≠ [])
    (inside : ∀ block, ∀ target ∈ targets blocks block, target.index < blocks.length)
    {block : BlockId} :
    (spread blocks marked (.start blocks.length)).Flagged block ↔
      Reaches (onward blocks marked) entry block := by
  obtain ⟨underway, queue⟩ := (Sweep.Underway.start nonempty).spread inside
  refine ⟨underway.genuine block, fun reaches => ?_⟩
  refine reaches.induct (fun a flagged b follows => ?_) underway.started
  exact (underway.covered a flagged).resolve_left (by simp [queue]) b follows

variable {d : Draft}

theorem length_reached (nonempty : blocks ≠ [])
    (inside : ∀ block, ∀ target ∈ targets blocks block, target.index < blocks.length) :
    (spread blocks marked (.start blocks.length)).reached.length = blocks.length :=
  ((Sweep.Underway.start nonempty).spread inside).1.length

theorem bare_flag (nonempty : blocks ≠ [])
    (inside : ∀ block, ∀ target ∈ targets blocks block, target.index < blocks.length) :
    (d.flag blocks).map Block.bare = blocks.map Block.bare := by
  apply List.ext_getElem
  · simp [flag, length_reached nonempty inside]
  · intro i _ _
    simp [flag, Block.bare]

theorem reachable_flag (nonempty : blocks ≠ [])
    (inside : ∀ block, ∀ target ∈ targets blocks block, target.index < blocks.length) {i : Nat}
    {block : Block} (found : (d.flag blocks)[i]? = some block) :
    ∃ b, blocks[i]? = some b ∧ block.predecessors = b.predecessors ∧
      (block.isReachable = true ↔
        Reaches (onward blocks d.marked) entry ⟨i⟩ ∧ b.id ∉ d.marked) := by
  obtain ⟨b, flagged, stored, place, rfl⟩ := List.getElem?_zipWith_eq_some.mp found
  refine ⟨b, stored, rfl, ?_⟩
  rw [← flagged_spread_iff nonempty inside, Sweep.Flagged, place]
  simp

end Reachability

/-! ### The owners -/

section Owners

variable {operations : List Operation} {block : BlockId} {stack : List OperationId}
  {owners before after : List (Option BlockId)}

def operandsIn (operations : List Operation) (id : OperationId) : List OperationId :=
  match operations[id.index]? with
  | some op => op.children
  | none => []

def Owned (owners : List (Option BlockId)) (id : OperationId) : Prop :=
  ∃ block, owners[id.index]? = some (some block)

/-- Whatever an owned operation has below it is owned or waits on the stack. -/
def Settled (operations : List Operation) (stack : List OperationId)
    (owners : List (Option BlockId)) : Prop :=
  ∀ id, Owned owners id → ∀ below ∈ operandsIn operations id,
    below.index < operations.length → Owned owners below ∨ below ∈ stack

structure Claimed (operations : List Operation) (block : BlockId) (stack : List OperationId)
    (before after : List (Option BlockId)) : Prop where
  length : after.length = before.length
  kept : ∀ (i : Nat) (owner : BlockId),
    before[i]? = some (some owner) → after[i]? = some (some owner)
  given : ∀ (id : OperationId) (owner : BlockId), after[id.index]? = some (some owner) →
    before[id.index]? = some (some owner) ∨
      owner = block ∧ ∃ root ∈ stack, Reaches (operandsIn operations) root id
  roots : ∀ root ∈ stack, root.index < operations.length → Owned after root
  settled : Settled operations stack before → Settled operations [] after

theorem Claimed.nil : Claimed operations block [] owners owners :=
  ⟨rfl, fun _ _ owned => owned, fun _ _ owned => .inl owned, nofun, fun settled => settled⟩

/-- What is on top of the stack is missing, or has an owner. -/
theorem Claimed.pass {id : OperationId} {rest : List OperationId}
    (known : id.index < operations.length → Owned before id)
    (later : Claimed operations block rest before after) :
    Claimed operations block (id :: rest) before after where
  length := later.length
  kept := later.kept
  given other owner owned := (later.given other owner owned).imp_right
    fun ⟨same, root, waits, reaches⟩ => ⟨same, root, List.mem_cons_of_mem id waits, reaches⟩
  roots root waits inside := by
    rcases List.mem_cons.mp waits with rfl | further
    · obtain ⟨owner, owned⟩ := known inside
      exact ⟨owner, later.kept _ owner owned⟩
    · exact later.roots root further inside
  settled settled := later.settled fun other owned below operand inside => by
    rcases settled other owned below operand inside with known | waits
    · exact .inl known
    · rcases List.mem_cons.mp waits with rfl | further
      · exact .inl (known inside)
      · exact .inr further

theorem getElem?_set_owner_iff {i j : Nat} {owner : BlockId} (free : before[i]? = some none) :
    (before.set i (some block))[j]? = some (some owner) ↔
      before[j]? = some (some owner) ∨ j = i ∧ owner = block := by
  have inside : i < before.length := (List.getElem?_eq_some_iff.mp free).1
  by_cases here : j = i
  · subst here
    rw [List.getElem?_set_self inside, free]
    simp [eq_comm]
  · rw [List.getElem?_set_ne (Ne.symm here)]
    simp [here]

/-- What is on top of the stack is given to the block, and its operands are put there instead. -/
theorem Claimed.take {id : OperationId} {op : Operation} {rest : List OperationId}
    (stored : operations[id.index]? = some op) (free : before[id.index]? = some none)
    (later : Claimed operations block (op.children.reverse ++ rest)
      (before.set id.index (some block)) after) :
    Claimed operations block (id :: rest) before after := by
  have operands : operandsIn operations id = op.children := by rw [operandsIn, stored]
  have owns (i : Nat) (owner : BlockId) :
      (before.set id.index (some block))[i]? = some (some owner) ↔
        before[i]? = some (some owner) ∨ i = id.index ∧ owner = block :=
    getElem?_set_owner_iff free
  refine
    { length := later.length.trans List.length_set
      kept := fun i owner owned => later.kept i owner ((owns i owner).mpr (.inl owned))
      given := fun other owner owned => ?_
      roots := fun root waits known => ?_
      settled := fun settled => later.settled fun other isOwned below operand known => ?_ }
  -- What is below an operand is below the operation, which was on the stack in its place.
  · rcases later.given other owner owned with now | ⟨same, root, waits, reaches⟩
    · refine ((owns other.index owner).mp now).imp_right fun ⟨index, same⟩ => ?_
      obtain rfl : other = id := congrArg OperationId.mk index
      exact ⟨same, other, List.mem_cons_self, .refl other⟩
    · refine .inr ⟨same, ?_⟩
      rcases List.mem_append.mp waits with operand | further
      · exact ⟨id, List.mem_cons_self,
          .step (operands.symm ▸ List.mem_reverse.mp operand) reaches⟩
      · exact ⟨root, List.mem_cons_of_mem id further, reaches⟩
  · rcases List.mem_cons.mp waits with rfl | further
    · exact ⟨block, later.kept _ block ((owns _ block).mpr (.inr ⟨rfl, rfl⟩))⟩
    · exact later.roots root (List.mem_append_right _ further) known
  · obtain ⟨owner, owned⟩ := isOwned
    rcases (owns other.index owner).mp owned with before | ⟨index, -⟩
    · rcases settled other ⟨owner, before⟩ below operand known with ⟨_, ownedBelow⟩ | waits
      · exact .inl ⟨_, (owns _ _).mpr (.inl ownedBelow)⟩
      · rcases List.mem_cons.mp waits with rfl | further
        · exact .inl ⟨block, (owns _ block).mpr (.inr ⟨rfl, rfl⟩)⟩
        · exact .inr (List.mem_append_right _ further)
    · obtain rfl : other = id := congrArg OperationId.mk index
      exact .inr (List.mem_append_left _ (List.mem_reverse.mpr (operands ▸ operand)))

theorem claim_of_missing {id : OperationId} {rest : List OperationId}
    (missing : operations[id.index]? = none) :
    claim operations block (id :: rest) owners = claim operations block rest owners := by
  rw [claim]
  split
  · rfl
  · next stored => simp [missing] at stored

theorem claim_of_stored {id : OperationId} {op : Operation} {rest : List OperationId}
    (stored : operations[id.index]? = some op) :
    claim operations block (id :: rest) owners =
      if owners[id.index]? = some none then
        claim operations block (op.children.reverse ++ rest) (owners.set id.index (some block))
      else claim operations block rest owners := by
  rw [claim]
  split
  · next missing => simp [stored] at missing
  · next same =>
    obtain rfl := Option.some.inj (same.symm.trans stored)
    rfl

theorem owned_of_ne_none {id : OperationId} (inside : id.index < owners.length)
    (taken : owners[id.index]? ≠ some none) : Owned owners id := by
  rw [List.getElem?_eq_getElem inside, ne_eq, Option.some.injEq] at taken
  obtain ⟨owner, owned⟩ := Option.ne_none_iff_exists'.mp taken
  exact ⟨owner, by rw [List.getElem?_eq_getElem inside, owned]⟩

theorem claimed_claim (sized : owners.length = operations.length) :
    Claimed operations block stack owners (claim operations block stack owners) := by
  induction stack, owners using claim.induct operations block with
  | case1 owners =>
      rw [claim]
      exact .nil
  | case2 owners id rest missing ih =>
      rw [claim_of_missing missing]
      have outside := List.getElem?_eq_none_iff.mp missing
      exact .pass (fun inside => absurd inside (Nat.not_lt_of_le outside)) (ih sized)
  | case3 owners id rest op stored free ih =>
      rw [claim_of_stored stored, if_pos free]
      exact .take stored free (ih (List.length_set.trans sized))
  | case4 owners id rest op stored taken ih =>
      rw [claim_of_stored stored, if_neg taken]
      exact .pass (fun inside => owned_of_ne_none (sized.symm ▸ inside) taken) (ih sized)

theorem Claimed.settled_of_settled (claimed : Claimed operations block stack before after)
    (settled : Settled operations [] before) : Settled operations [] after :=
  claimed.settled fun other owned below operand known =>
    .inl ((settled other owned below operand known).resolve_right List.not_mem_nil)

/-- Once all that is below owned operations is owned, so is all that is below the stack. -/
theorem Claimed.owned (claimed : Claimed operations block stack before after)
    (settled : Settled operations [] before) {root id : OperationId} (waits : root ∈ stack)
    (reaches : Reaches (operandsIn operations) root id) (inside : id.index < operations.length) :
    Owned after id := by
  -- A missing operation has no operands, so the way down stays among operations that are there.
  have kept (x : OperationId) (owned : x.index < operations.length → Owned after x)
      (below : OperationId) (operand : below ∈ operandsIn operations x) :
      below.index < operations.length → Owned after below := by
    intro known
    have stored : x.index < operations.length := by
      by_contra outside
      rw [operandsIn, List.getElem?_eq_none (Nat.le_of_not_lt outside)] at operand
      contradiction
    exact (claimed.settled_of_settled settled x (owned stored) below operand known).resolve_right
      List.not_mem_nil
  exact reaches.induct kept (claimed.roots root waits) inside

open scoped Classical in
theorem Claimed.getElem? (claimed : Claimed operations block stack before after)
    (settled : Settled operations [] before) (sized : before.length = operations.length)
    (id : OperationId) :
    after[id.index]? = before[id.index]?.map (·.or
      (if ∃ root ∈ stack, Reaches (operandsIn operations) root id then some block else none)) := by
  cases found : before[id.index]? with
  | none =>
      have outside := List.getElem?_eq_none_iff.mp found
      exact List.getElem?_eq_none (claimed.length ▸ outside)
  | some owner =>
      have inside : id.index < after.length :=
        claimed.length ▸ (List.getElem?_eq_some_iff.mp found).1
      cases owner with
      | some owner => exact claimed.kept id.index owner found
      | none =>
          have fresh {owner : BlockId} (owned : after[id.index]? = some (some owner)) :=
            (claimed.given id owner owned).resolve_left (by simp [found])
          split
          · next reached =>
            obtain ⟨root, waits, reaches⟩ := reached
            obtain ⟨owner, owned⟩ := claimed.owned settled waits reaches
              (sized ▸ claimed.length ▸ inside)
            rw [owned, (fresh owned).1]
            rfl
          · next unreached =>
            by_contra taken
            obtain ⟨owner, owned⟩ := owned_of_ne_none inside taken
            exact unreached (fresh owned).2

/-! #### Claim by claim -/

def claims (blocks : List Block) : List (BlockId × OperationId) :=
  blocks.flatMap fun b => b.roots.map (b.id, ·)

open scoped Classical in
/-- Whatever is claimed in turn belongs to the first that claims it. -/
theorem getElem?_foldl_claim (claims : List (BlockId × OperationId))
    (settled : Settled operations [] owners) (sized : owners.length = operations.length)
    (id : OperationId) :
    (claims.foldl (fun owners c => claim operations c.1 [c.2] owners) owners)[id.index]? =
      owners[id.index]?.map (·.or
        ((claims.find? fun c => Reaches (operandsIn operations) c.2 id).map Prod.fst)) := by
  -- After each claim no stack is left, so what is below owned operations is owned again.
  induction claims generalizing owners with
  | nil => simp
  | cons first rest ih =>
      have claimed : Claimed operations first.1 [first.2] owners
        (claim operations first.1 [first.2] owners) := claimed_claim sized
      rw [List.foldl_cons, ih (claimed.settled_of_settled settled) (claimed.length.trans sized),
        claimed.getElem? settled sized, Option.map_map, List.find?_cons]
      by_cases reaches : Reaches (operandsIn operations) first.2 id
      · simp [reaches, Function.comp_def]
      · simp [reaches, Function.comp_def]

theorem owners_eq_foldl (d : Draft) (blocks : List Block) :
    d.owners blocks = (claims blocks).foldl (fun owners c => claim d.operations c.1 [c.2] owners)
      (List.replicate d.operations.length none) := by
  rw [claims, List.foldl_flatMap]
  simp only [List.foldl_map]
  rfl

open scoped Classical in
theorem getElem?_owners (d : Draft) (blocks : List Block) (id : OperationId) :
    (d.owners blocks)[id.index]? = if id.index < d.operations.length then
      some (((claims blocks).find? fun c =>
        Reaches (operandsIn d.operations) c.2 id).map Prod.fst) else none := by
  have unowned : Settled d.operations [] (List.replicate d.operations.length none) := by
    rintro other ⟨owner, owned⟩
    exact nomatch List.eq_of_mem_replicate (List.mem_of_getElem? owned)
  rw [owners_eq_foldl, getElem?_foldl_claim _ unowned List.length_replicate,
    List.getElem?_replicate]
  split
  · rw [Option.map_some, Option.none_or]
  · rfl

theorem mem_claims_iff {blocks : List Block} {c : BlockId × OperationId} :
    c ∈ claims blocks ↔ ∃ b ∈ blocks, b.id = c.1 ∧ c.2 ∈ b.roots := by
  simp only [claims, List.mem_flatMap, List.mem_map]
  constructor
  · rintro ⟨b, member, root, isRoot, rfl⟩
    exact ⟨b, member, rfl, isRoot⟩
  · rintro ⟨b, member, number, isRoot⟩
    exact ⟨b, member, c.2, isRoot, Prod.ext number rfl⟩

theorem pairwise_claims {blocks : List Block}
    (ordered : blocks.Pairwise fun a b => a.id.index < b.id.index) :
    (claims blocks).Pairwise fun a b => a.1.index ≤ b.1.index := by
  rw [claims, List.pairwise_flatMap]
  refine ⟨fun b _ => ?_, ordered.imp fun before => ?_⟩
  · rw [List.pairwise_map]
    exact List.pairwise_of_forall fun _ _ => Nat.le_refl b.id.index
  · simp only [List.mem_map, forall_exists_index, and_imp, forall_apply_eq_imp_iff₂]
    exact fun _ _ _ _ => Nat.le_of_lt before

open scoped Classical in
/-- The owner is the first block with the operation below one of its roots. -/
theorem least_of_owners {d : Draft} {blocks : List Block} {id : OperationId}
    (ordered : blocks.Pairwise fun a b => a.id.index < b.id.index)
    (owned : (d.owners blocks)[id.index]? = some (some block)) :
    id.index < d.operations.length ∧ (∃ b ∈ blocks, b.id = block ∧
      ∃ root ∈ b.roots, Reaches (operandsIn d.operations) root id) ∧
    ∀ other ∈ blocks, (∃ root ∈ other.roots, Reaches (operandsIn d.operations) root id) →
      block.index ≤ other.id.index := by
  rw [getElem?_owners, Option.ite_none_right_eq_some, Option.some.injEq,
    Option.map_eq_some_iff] at owned
  obtain ⟨inside, c, found, rfl⟩ := owned
  obtain ⟨reaches, earlier, later, split, missed⟩ := List.find?_eq_some_iff_append.mp found
  have claimed : c ∈ claims blocks := split ▸ List.mem_append_right earlier List.mem_cons_self
  obtain ⟨b, member, number, isRoot⟩ := mem_claims_iff.mp claimed
  refine ⟨inside, ⟨b, member, number, c.2, isRoot, of_decide_eq_true reaches⟩, ?_⟩
  rintro other inList ⟨root, isRootToo, reachesToo⟩
  have rival : (other.id, root) ∈ claims blocks :=
    mem_claims_iff.mpr ⟨other, inList, rfl, isRootToo⟩
  rw [split] at rival
  have sorted := pairwise_claims ordered
  rw [split, List.pairwise_append] at sorted
  rcases List.mem_append.mp rival with before | after
  · exact absurd (missed _ before) (by simp [reachesToo])
  · rcases List.mem_cons.mp after with rfl | after
    · exact Nat.le_refl _
    · exact (List.pairwise_cons.mp sorted.2.1).1 _ after

open scoped Classical in
theorem owned_of_reaches {d : Draft} {blocks : List Block} {b : Block} {root id : OperationId}
    (inside : id.index < d.operations.length) (member : b ∈ blocks) (isRoot : root ∈ b.roots)
    (reaches : Reaches (operandsIn d.operations) root id) : Owned (d.owners blocks) id := by
  have claimed : (b.id, root) ∈ claims blocks := mem_claims_iff.mpr ⟨b, member, rfl, isRoot⟩
  rw [Owned, getElem?_owners, if_pos inside]
  cases found : (claims blocks).find? fun c => Reaches (operandsIn d.operations) c.2 id with
  | none => exact absurd (List.find?_eq_none.mp found _ claimed) (by simp [reaches])
  | some c => exact ⟨c.1, rfl⟩

end Owners

end Draft

end PathCompletion
