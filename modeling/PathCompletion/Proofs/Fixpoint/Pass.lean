import PathCompletion.Proofs.Fixpoint.Join
import PathCompletion.Proofs.Step
import PathCompletion.Proofs.Walk

/-!
Passes of the fixpoint computation as functions. Where visits never fail and depend on
nothing but their arguments, a pass is a function on what the passes before it have found,
and a run of the computation is a number of such passes, the last of which changes nothing.
-/

namespace PathCompletion

variable {σ V : Type}

structure Motion (V : Type) where
  through : Block → V → V
  along : Block → Edge → V → V

/-- From a memory of this kind, the visits never fail, give what the functions give, and leave
a memory of this kind. -/
structure Transfer.Computes (t : Transfer σ V) (kind : σ → Prop) (motion : Motion V) : Prop where
  block : ∀ block v, Step.Gives kind (t.visitBlock block v) (motion.through block v)
  edge : ∀ block edge v, Step.Gives kind (t.visitEdge block edge v) (motion.along block edge v)

/-! ### States put on edges -/

namespace Progress

variable [DecidableEq V] {d : Domain V} {p : Progress V} {slot : Slot} {v : V}

theorem get?_record (d : Domain V) (p : Progress V) (slot other : Slot) (v : V) :
    (p.record d slot v).edges.get? other = if slot = other then some v else p.edges.get? other := by
  unfold record
  split
  · simp only [SortedMap.get?_insert, Key.key_eq_iff]
  · next old found =>
    split
    · next same =>
      subst same
      by_cases here : slot = other
      · simp [← here, found]
      · simp [here]
    · simp only [SortedMap.get?_insert, Key.key_eq_iff]

theorem record_of_unchanged (still : (p.record d slot v).changed = false) :
    p.record d slot v = p := by
  unfold record at still ⊢
  split at still
  · simp at still
  · split at still
    · simp_all
    · simp at still

theorem snapshots_record : (p.record d slot v).snapshots = p.snapshots := by
  unfold record
  split
  · rfl
  · split <;> rfl

end Progress

namespace Graph

theorem mem_incomingSlots_iff {g : Graph} (valid : g.Valid) {slot : Slot} {b : BlockId} :
    slot ∈ g.incomingSlots b ↔ ∃ block edge, g.block? slot.source = some block ∧
      block.successors[slot.index]? = some edge ∧ edge.destination = b := by
  simp only [incomingSlots, List.mem_flatMap, List.mem_filterMap]
  constructor
  · rintro ⟨block, member, ⟨edge, index⟩, listed, kept⟩
    obtain ⟨place, found⟩ := List.mem_iff_getElem?.mp member
    have stored : block.id = ⟨place⟩ := valid.block_id found
    split at kept
    · next arrives =>
      cases kept
      exact ⟨block, edge, stored ▸ found, List.mem_zipIdx_iff_getElem?.mp listed, arrives⟩
    · contradiction
  · rintro ⟨block, edge, found, listed, arrives⟩
    refine ⟨block, List.mem_of_getElem? found, (edge, slot.index),
      List.mem_zipIdx_iff_getElem?.mpr listed, ?_⟩
    simp [arrives, valid.block_id found]

end Graph

namespace Problem

variable [DecidableEq V]

/-! ### One pass -/

def send (problem : Problem σ V) (motion : Motion V) (block : Block) (output : V)
    (p : Progress V) : Progress V :=
  block.successors.zipIdx.foldl
    (fun p (edge, index) =>
      p.record problem.domain ⟨block.id, index⟩ (motion.along block edge output)) p

def advance (problem : Problem σ V) (motion : Motion V) (p : Progress V) (id : BlockId) :
    Progress V :=
  match problem.graph.block? id, problem.input? problem.graph.plan p.edges id with
  | some block, some input =>
      let output := motion.through block input
      let left := problem.send motion block output p
      { left with snapshots := left.snapshots.insert id ⟨input, output⟩ }
  | _, _ => p

def round (problem : Problem σ V) (motion : Motion V) (p : Progress V) : Progress V :=
  problem.graph.plan.order.foldl (problem.advance motion) { p with changed := false }

def after (problem : Problem σ V) (motion : Motion V) (n : Nat) : Progress V :=
  (problem.round motion)^[n] {}

variable {problem : Problem σ V} {motion : Motion V}

theorem after_succ (n : Nat) :
    problem.after motion (n + 1) = problem.round motion (problem.after motion n) :=
  Function.iterate_succ_apply' _ n _

/-- What every visit of a listed block keeps, passes keep. -/
theorem rounds_induct (good : Progress V → Prop)
    (reset : ∀ p, good p → good { p with changed := false })
    (visit : ∀ p, good p → ∀ id ∈ problem.graph.plan.order, good (problem.advance motion p id))
    {p : Progress V} (now : good p) (n : Nat) : good ((problem.round motion)^[n] p) := by
  have all (ids : List BlockId) (listed : ∀ id ∈ ids, id ∈ problem.graph.plan.order)
      (p : Progress V) (now : good p) : good (ids.foldl (problem.advance motion) p) := by
    induction ids generalizing p with
    | nil => exact now
    | cons first rest ih =>
        exact ih (fun id later => listed id (List.mem_cons_of_mem first later)) _
          (visit p now first (listed first List.mem_cons_self))
  induction n with
  | zero => exact now
  | succ n ih =>
      rw [Function.iterate_succ_apply']
      exact all _ (fun _ listed => listed) _ (reset _ ih)

theorem after_induct (good : Progress V → Prop) (start : good {})
    (reset : ∀ p, good p → good { p with changed := false })
    (visit : ∀ p, good p → ∀ id ∈ problem.graph.plan.order, good (problem.advance motion p id))
    (n : Nat) : good (problem.after motion n) :=
  rounds_induct good reset visit start n

/-! ### What one visit changes -/

theorem get?_foldl_record_of_absent (d : Domain V) (source : BlockId) (state : Edge → V)
    {slot : Slot} (pairs : List (Edge × Nat)) (absent : ∀ pair ∈ pairs, slot ≠ ⟨source, pair.2⟩)
    (p : Progress V) :
    (pairs.foldl (fun p (edge, index) => p.record d ⟨source, index⟩ (state edge)) p).edges.get?
      slot = p.edges.get? slot := by
  induction pairs generalizing p with
  | nil => rfl
  | cons first rest ih =>
      rw [List.foldl_cons, ih fun pair later => absent pair (List.mem_cons_of_mem first later),
        Progress.get?_record]
      simp [(absent first List.mem_cons_self).symm]

theorem get?_foldl_record_of_listed (d : Domain V) (source : BlockId) (state : Edge → V)
    {successors : List Edge} {i : Nat} {edge : Edge} (listed : successors[i]? = some edge)
    (k : Nat) (p : Progress V) :
    ((successors.zipIdx k).foldl
      (fun p (edge, index) => p.record d ⟨source, index⟩ (state edge)) p).edges.get?
      ⟨source, k + i⟩ = some (state edge) := by
  induction successors generalizing i k p with
  | nil => simp at listed
  | cons first rest ih =>
      rw [List.zipIdx_cons, List.foldl_cons]
      cases i with
      | zero =>
          cases listed
          -- The edges further on have slots of their own.
          rw [get?_foldl_record_of_absent]
          · simp [Progress.get?_record]
          · intro pair member same
            have later := List.le_snd_of_mem_zipIdx member
            have index : k + 0 = pair.2 := congrArg Slot.index same
            omega
      | succ i =>
          have found := ih listed (k + 1) (p.record d ⟨source, k⟩ (state first))
          rwa [Nat.add_right_comm] at found

theorem get?_send_of_listed {block : Block} {i : Nat} {edge : Edge}
    (listed : block.successors[i]? = some edge) (output : V) (p : Progress V) :
    (problem.send motion block output p).edges.get? ⟨block.id, i⟩ =
      some (motion.along block edge output) := by
  have found := get?_foldl_record_of_listed problem.domain block.id
    (fun edge => motion.along block edge output) listed 0 p
  rwa [Nat.zero_add] at found

theorem get?_send_of_absent {block : Block} {slot : Slot}
    (absent : slot.source = block.id → block.successors[slot.index]? = none) (output : V)
    (p : Progress V) :
    (problem.send motion block output p).edges.get? slot = p.edges.get? slot := by
  apply get?_foldl_record_of_absent problem.domain block.id fun edge =>
    motion.along block edge output
  rintro ⟨edge, index⟩ member rfl
  rw [List.mem_zipIdx_iff_getElem?] at member
  simp [absent rfl] at member

theorem send_of_unchanged {block : Block} {output : V} {p : Progress V}
    (still : (problem.send motion block output p).changed = false) :
    problem.send motion block output p = p := by
  unfold send at still ⊢
  generalize block.successors.zipIdx = pairs at still ⊢
  induction pairs generalizing p with
  | nil => rfl
  | cons first rest ih =>
      rw [List.foldl_cons] at still ⊢
      have same := ih still
      rw [same] at still ⊢
      exact Progress.record_of_unchanged still

theorem snapshots_send {block : Block} {output : V} {p : Progress V} :
    (problem.send motion block output p).snapshots = p.snapshots := by
  unfold send
  generalize block.successors.zipIdx = pairs
  induction pairs generalizing p with
  | nil => rfl
  | cons first rest ih => rw [List.foldl_cons, ih, Progress.snapshots_record]

theorem advance_of_input {p : Progress V} {id : BlockId} {block : Block} {input : V}
    (found : problem.graph.block? id = some block)
    (arrived : problem.input? problem.graph.plan p.edges id = some input) :
    problem.advance motion p id =
      { problem.send motion block (motion.through block input) p with
        snapshots := p.snapshots.insert id ⟨input, motion.through block input⟩ } := by
  simp only [advance, found, arrived, snapshots_send]

/-- A visit either does nothing, or sends the block's output along its edges and notes the
snapshot. -/
theorem advance_cases (problem : Problem σ V) (motion : Motion V) (p : Progress V)
    (id : BlockId) :
    ((problem.graph.block? id = none ∨ problem.input? problem.graph.plan p.edges id = none) ∧
      problem.advance motion p id = p) ∨
    ∃ block input, problem.graph.block? id = some block ∧
      problem.input? problem.graph.plan p.edges id = some input ∧
      problem.advance motion p id =
        { problem.send motion block (motion.through block input) p with
          snapshots := p.snapshots.insert id ⟨input, motion.through block input⟩ } := by
  cases found : problem.graph.block? id with
  | none => exact .inl ⟨.inl rfl, by simp [advance, found]⟩
  | some block =>
      cases arrived : problem.input? problem.graph.plan p.edges id with
      | none => exact .inl ⟨.inr rfl, by simp [advance, arrived]⟩
      | some input =>
          exact .inr ⟨block, input, rfl, rfl, advance_of_input found arrived⟩

/-- Sending puts the output on the block's own edges, and leaves all others alone. -/
theorem get?_send (valid : problem.graph.Valid) {id : BlockId} {block : Block}
    (found : problem.graph.block? id = some block) (output : V) (p : Progress V) (slot : Slot) :
    (slot.source = id ∧ ∃ edge, block.successors[slot.index]? = some edge ∧
      (problem.send motion block output p).edges.get? slot =
        some (motion.along block edge output)) ∨
    (problem.send motion block output p).edges.get? slot = p.edges.get? slot := by
  have stored := valid.block_id found
  by_cases own : slot.source = id ∧ ∃ edge, block.successors[slot.index]? = some edge
  · obtain ⟨source, edge, member⟩ := own
    have sent : (problem.send motion block output p).edges.get? _ = _ :=
      get?_send_of_listed member _ p
    rw [stored, ← source] at sent
    exact .inl ⟨source, edge, member, sent⟩
  · refine .inr (get?_send_of_absent (fun source => ?_) _ p)
    cases member : block.successors[slot.index]? with
    | none => rfl
    | some edge => exact absurd ⟨source.trans stored, edge, member⟩ own

theorem get?_advance (valid : problem.graph.Valid) {p : Progress V} {id : BlockId}
    {block : Block} {input : V} (found : problem.graph.block? id = some block)
    (arrived : problem.input? problem.graph.plan p.edges id = some input) (slot : Slot) :
    (slot.source = id ∧ ∃ edge, block.successors[slot.index]? = some edge ∧
      (problem.advance motion p id).edges.get? slot =
        some (motion.along block edge (motion.through block input))) ∨
    (problem.advance motion p id).edges.get? slot = p.edges.get? slot := by
  rw [advance_of_input found arrived]
  exact get?_send valid found _ p slot

theorem advance_of_unchanged {p : Progress V} {id : BlockId}
    (still : (problem.advance motion p id).changed = false) :
    p.changed = false ∧ (problem.advance motion p id).edges = p.edges := by
  rcases problem.advance_cases motion p id with ⟨-, same⟩ | ⟨block, input, -, -, same⟩
  · rw [same] at still ⊢
    exact ⟨still, rfl⟩
  · rw [same] at still ⊢
    have kept := send_of_unchanged still
    rw [kept] at still ⊢
    exact ⟨still, rfl⟩

/-! ### A pass that changes nothing -/

/-- Each listed block that a state has reached has sent its output along its edges. -/
def Settled (problem : Problem σ V) (motion : Motion V) (edges : SortedMap Slot V) : Prop :=
  ∀ id ∈ problem.graph.plan.order, ∀ block input, problem.graph.block? id = some block →
    problem.input? problem.graph.plan edges id = some input → ∀ i edge,
      block.successors[i]? = some edge →
        edges.get? ⟨block.id, i⟩ = some (motion.along block edge (motion.through block input))

/-- The latest snapshots of all listed blocks belong to one assignment of states to edges. -/
def Recorded (problem : Problem σ V) (motion : Motion V) (p : Progress V) : Prop :=
  ∀ id ∈ problem.graph.plan.order, ∀ block input, problem.graph.block? id = some block →
    problem.input? problem.graph.plan p.edges id = some input →
      p.snapshots.get? id = some ⟨input, motion.through block input⟩

theorem foldl_advance_of_unchanged (ids : List BlockId) {p : Progress V}
    (still : (ids.foldl (problem.advance motion) p).changed = false) :
    p.changed = false ∧ (ids.foldl (problem.advance motion) p).edges = p.edges := by
  induction ids generalizing p with
  | nil => exact ⟨still, rfl⟩
  | cons first rest ih =>
      rw [List.foldl_cons] at still ⊢
      obtain ⟨stillFirst, sameRest⟩ := ih still
      obtain ⟨stillStart, sameFirst⟩ := advance_of_unchanged stillFirst
      exact ⟨stillStart, sameRest.trans sameFirst⟩

theorem snapshot_of_not_mem (ids : List BlockId) {id : BlockId} (absent : id ∉ ids)
    (p : Progress V) :
    (ids.foldl (problem.advance motion) p).snapshots.get? id = p.snapshots.get? id := by
  induction ids generalizing p with
  | nil => rfl
  | cons first rest ih =>
      have other : first ≠ id := fun same => absent (same ▸ List.mem_cons_self)
      rw [List.foldl_cons, ih fun later => absent (List.mem_cons_of_mem first later)]
      rcases problem.advance_cases motion p first with ⟨-, same⟩ | ⟨block, input, -, -, same⟩
      · rw [same]
      · rw [same]
        exact SortedMap.get?_insert_of_ne other

theorem foldl_advance_recorded (ids : List BlockId) {p : Progress V}
    (still : (ids.foldl (problem.advance motion) p).changed = false) :
    ∀ id ∈ ids, ∀ block input, problem.graph.block? id = some block →
      problem.input? problem.graph.plan p.edges id = some input →
        (ids.foldl (problem.advance motion) p).snapshots.get? id =
            some ⟨input, motion.through block input⟩ ∧
          ∀ i edge, block.successors[i]? = some edge →
            p.edges.get? ⟨block.id, i⟩ =
              some (motion.along block edge (motion.through block input)) := by
  induction ids generalizing p with
  | nil => exact nofun
  | cons first rest ih =>
      intro id listed block input found arrived
      rw [List.foldl_cons] at still ⊢
      obtain ⟨stillFirst, -⟩ := foldl_advance_of_unchanged rest still
      obtain ⟨-, sameFirst⟩ := advance_of_unchanged stillFirst
      have later := ih still
      rw [sameFirst] at later
      -- The snapshot that counts is that of the last visit.
      by_cases again : id ∈ rest
      · exact later id again block input found arrived
      · have here : id = first := (List.mem_cons.mp listed).resolve_right again
        subst here
        have step : problem.advance motion p id = _ := advance_of_input found arrived
        constructor
        · rw [snapshot_of_not_mem rest again, step]
          exact SortedMap.get?_insert_self _ _ _
        · intro i edge member
          rw [← sameFirst, step]
          exact get?_send_of_listed member _ p

/-- A pass that changes nothing shows that the states on the edges are settled, and leaves
every snapshot up to date. -/
theorem round_of_unchanged {p : Progress V} (still : (problem.round motion p).changed = false) :
    (problem.round motion p).edges = p.edges ∧ problem.Settled motion p.edges ∧
      problem.Recorded motion (problem.round motion p) := by
  have edges : (problem.round motion p).edges = p.edges := (foldl_advance_of_unchanged _ still).2
  have recorded := foldl_advance_recorded _ still
  refine ⟨edges, ?_, ?_⟩
  · intro id listed block input found arrived
    exact (recorded id listed block input found arrived).2
  · intro id listed block input found arrived
    rw [edges] at arrived
    exact (recorded id listed block input found arrived).1

end Problem

end PathCompletion
