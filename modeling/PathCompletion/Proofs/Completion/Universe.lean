import PathCompletion.Proofs.Completion.Motion
import PathCompletion.Proofs.Finite
import PathCompletion.Proofs.Fixpoint.Cycle

/-!
The states that one analysis can ever see. Its rules fill finitely many cells and leave
evidence of finitely many sites, so there are finitely many states, and passes that never
settle come back to states they have left.
-/

namespace PathCompletion

/-- The location is one of the cells, and the evidence is of the sites. -/
def WithinAt (cells : Set Location) (sites : Set Site) (l : Location) (v : Value) : Prop :=
  l ∈ cells ∧ ∀ site ∈ v.evidence, site ∈ sites

variable {cells : Set Location} {sites : Set Site} {l : Location} {v w : Value}

theorem finite_within (cellsFinite : cells.Finite) (sitesFinite : sites.Finite) :
    { s : State | s.Each (WithinAt cells sites) }.Finite := by
  have values : { v : Value | ∀ site ∈ v.evidence, site ∈ sites }.Finite := by
    apply ((List.finite_toSet Kind.all).image2 Value.mk
      (SortedSet.finite_of_within sitesFinite)).subset
    rintro ⟨kind, evidence⟩ within
    exact ⟨kind, by cases kind <;> simp [Kind.all], evidence, within, rfl⟩
  exact SortedMap.finite_of_within cellsFinite values

namespace WithinAt

theorem of_empty (cell : l ∈ cells) (empty : v.evidence = ∅) : WithinAt cells sites l v :=
  ⟨cell, fun site member => absurd (empty ▸ member) (SortedSet.not_mem_empty site)⟩

theorem merge (left : WithinAt cells sites l v) (right : WithinAt cells sites l w) :
    WithinAt cells sites l (v.merge w) := by
  unfold Value.merge
  split
  · exact right
  split
  · exact left
  split
  · exact of_empty left.1 rfl
  split
  · exact of_empty left.1 rfl
  split
  · exact of_empty left.1 rfl
  · refine ⟨left.1, fun site member => ?_⟩
    exact (SortedSet.mem_union.mp member).elim (left.2 site) (right.2 site)

theorem change {c : Context} {effect : Effect} (allowed : c.Allows cells sites l effect)
    (within : WithinAt cells sites l v) : WithinAt cells sites l (effect.change v) := by
  cases effect with
  | set w => rcases allowed.2.2 with rfl | rfl <;> exact of_empty within.1 rfl
  | replace w => exact of_empty within.1 (by rw [show w = .unknown from allowed]; rfl)
  | complete site =>
      change WithinAt cells sites l ((v.complete? site).getD v)
      unfold Value.complete?
      split
      · exact within
      · refine ⟨within.1, fun other member => ?_⟩
        rcases SortedSet.mem_insert.mp member with rfl | earlier
        · exact allowed
        · exact within.2 other earlier
  | escape site =>
      change WithinAt cells sites l ((v.escape? site).getD v)
      unfold Value.escape?
      split
      · exact within
      · exact within
      · refine ⟨within.1, fun other member => ?_⟩
        rw [SortedSet.mem_singleton.mp member]
        exact allowed
  | invalidate =>
      change WithinAt cells sites l (v.invalidate?.getD v)
      unfold Value.invalidate?
      split
      · exact within
      · exact of_empty within.1 rfl

theorem act {c : Context} {effect : Effect} (allowed : c.Allows cells sites l effect)
    {old : Option Value} (within : ∀ v, old = some v → WithinAt cells sites l v) :
    ∀ w, effect.act old = some w → WithinAt cells sites l w := by
  intro w acted
  rcases Effect.act_eq_some acted with rfl | ⟨v, found, rfl⟩
  · exact of_empty allowed.2.1 (by rcases allowed.2.2 with rfl | rfl <;> rfl)
  · exact (within v found).change allowed

end WithinAt

namespace Context

variable {c : Context}

/-- Finitely many bounded rules have their cells and sites in common finite sets. -/
theorem Bounded.common {α : Type} {sort : Effect → Prop} {rule : α → State → State}
    (items : List α) (each : ∀ a ∈ items, c.Bounded sort (rule a)) :
    ∃ cells sites, cells.Finite ∧ sites.Finite ∧
      ∀ a ∈ items, Acts (fun l effect => c.Allows cells sites l effect ∧ sort effect ∧
        c.oracle.Mentions l) (rule a) := by
  induction items with
  | nil => exact ⟨∅, ∅, Set.finite_empty, Set.finite_empty, nofun⟩
  | cons first rest ih =>
      obtain ⟨cells, sites, cellsFinite, sitesFinite, acts⟩ := each first List.mem_cons_self
      obtain ⟨more, others, moreFinite, othersFinite, actsRest⟩ :=
        ih fun a later => each a (List.mem_cons_of_mem first later)
      refine ⟨cells ∪ more, sites ∪ others, cellsFinite.union moreFinite,
        sitesFinite.union othersFinite, fun a member => ?_⟩
      rcases List.mem_cons.mp member with rfl | later
      · exact acts.mono fun l effect allowed =>
          ⟨allowed.1.mono Set.subset_union_left Set.subset_union_left, allowed.2⟩
      · exact (actsRest a later).mono fun l effect allowed =>
          ⟨allowed.1.mono Set.subset_union_right Set.subset_union_right, allowed.2⟩

theorem exists_within (c : Context) (descend : Option Runner) :
    ∃ cells sites, cells.Finite ∧ sites.Finite ∧
      (c.problem descend).Invariant c.motion fun _ s => s.Each (WithinAt cells sites) := by
  have moves (pair : Block × Edge) : c.Bounded (fun _ => True) fun s =>
      c.motion.along pair.1 pair.2 (c.motion.through pair.1 s) :=
    (c.along_bounded pair.1 pair.2).comp (c.through_bounded pair.1)
  obtain ⟨cells, sites, cellsFinite, sitesFinite, acts⟩ := Bounded.common
    (c.procedure.graph.blocks.flatMap fun block => block.successors.map (block, ·))
    fun pair _ => moves pair
  -- What the entry state has already is added.
  let own : Set Location := { l | l ∈ c.entryState.entries.map Prod.fst }
  let known : Set Site :=
    { site | site ∈ c.entryState.entries.flatMap fun entry => entry.2.evidence.toList }
  refine ⟨cells ∪ own, sites ∪ known, cellsFinite.union (List.finite_toSet _),
    sitesFinite.union (List.finite_toSet _), ?_, ?_, ?_⟩
  · intro l v found
    have entry := SortedMap.mem_entries_iff.mpr found
    refine ⟨.inr (List.mem_map.mpr ⟨(l, v), entry, rfl⟩), fun site member => .inr ?_⟩
    exact List.mem_flatMap.mpr ⟨(l, v), entry, SortedSet.mem_toList.mpr member⟩
  · exact fun _ s t left right => State.Each.merge (fun _ _ _ => WithinAt.merge) left right
  · intro id block edge s found listed within
    have member : (block, edge) ∈
        c.procedure.graph.blocks.flatMap fun block => block.successors.map (block, ·) :=
      List.mem_flatMap.mpr ⟨block, List.mem_of_getElem? found, List.mem_map.mpr ⟨edge, listed, rfl⟩⟩
    refine (acts _ member).each (fun l effect allowed old => ?_) within
    exact WithinAt.act (allowed.1.mono Set.subset_union_left Set.subset_union_left)

theorem finite_edges (c : Context) (descend : Option Runner) (valid : c.procedure.graph.Valid) :
    ∃ states : Set (SortedMap Slot State), states.Finite ∧
      ∀ n, ((c.problem descend).after c.motion n).edges ∈ states := by
  obtain ⟨cells, sites, cellsFinite, sitesFinite, invariant⟩ := c.exists_within descend
  let slots : List Slot := c.procedure.graph.blocks.flatMap fun block =>
    block.successors.zipIdx.map fun pair => ⟨block.id, pair.2⟩
  refine ⟨_, SortedMap.finite_of_within (List.finite_toSet slots)
    (finite_within cellsFinite sitesFinite), fun n slot s onEdge => ?_⟩
  obtain ⟨-, block, edge, stored, listed, within⟩ :=
    Problem.after_edgesHold valid invariant n slot s onEdge
  refine ⟨List.mem_flatMap.mpr ⟨block, List.mem_of_getElem? stored, ?_⟩, within⟩
  refine List.mem_map.mpr ⟨(edge, slot.index), List.mem_zipIdx_iff_getElem?.mpr listed, ?_⟩
  rw [valid.block_id stored]

theorem settles_iff_not_circulates (c : Context) (descend : Option Runner)
    (valid : c.procedure.graph.Valid) :
    (c.problem descend).Settles c.motion ↔ ¬ (c.problem descend).Circulates c.motion := by
  obtain ⟨states, finite, inside⟩ := c.finite_edges descend valid
  exact Problem.settles_iff_not_circulates finite inside

end Context

end PathCompletion
