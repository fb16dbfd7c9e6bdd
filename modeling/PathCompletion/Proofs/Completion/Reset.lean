import PathCompletion.Proofs.Completion.Reading

/-!
The first pass over a procedure that only reads. No field is tracked at its start, so the first
reference to a field, in the order of visits, resets what is known about the content of the
field. What that leaves on the edges is on its way to every cycle it can come to.
-/

namespace PathCompletion

/-! ### Values that a reset leaves -/

namespace Value

structure Stains (v w : Value) : Prop where
  wellFormed : w.WellFormed
  evidence : w.evidence = ∅ ∨ w.evidence = v.evidence
  kind : w.kind ≤ v.kind ⊔ .notCompleted

variable {v a b : Value}

theorem stains_self (wellFormed : v.WellFormed) : v.Stains v :=
  ⟨wellFormed, .inr rfl, le_sup_left⟩

theorem stains_notCompleted (v : Value) : v.Stains notCompleted :=
  ⟨rfl, .inl rfl, le_sup_right⟩

theorem Stains.merge (left : v.Stains a) (right : v.Stains b) : v.Stains (a.merge b) := by
  refine ⟨left.wellFormed.merge right.wellFormed, ?_, ?_⟩
  · rw [merge_eq left.wellFormed right.wellFormed]
    dsimp only
    split
    · exact .inl rfl
    · rcases left.evidence with first | first <;> rcases right.evidence with second | second <;>
        simp [first, second, SortedSet.empty_union, SortedSet.union_empty, SortedSet.union_self]
  · rw [kind_merge]
    exact sup_le left.kind right.kind

/-- The kind tells how far it has gone. -/
theorem Stains.eq_of_kind (left : v.Stains a) (right : v.Stains b) (same : a.kind = b.kind) :
    a = b := by
  have evidence : a.evidence = b.evidence := by
    cases empty : a.kind.hasEmptyEvidence with
    | true =>
        rw [left.wellFormed.evidence_eq_empty empty,
          right.wellFormed.evidence_eq_empty (same ▸ empty)]
    | false =>
        have some {w : Value} (stains : v.Stains w) (kind : w.kind.hasEmptyEvidence = false) :
            w.evidence = v.evidence := by
          refine stains.evidence.resolve_left fun none => ?_
          have wellFormed : w.kind.hasEmptyEvidence = w.evidence.isEmpty := stains.wellFormed
          rw [kind, none] at wellFormed
          contradiction
        rw [some left empty, some right (same ▸ empty)]
  cases a
  cases b
  simp_all

end Value

namespace Context

/-! ### Resets and cycles -/

def readsAt (c : Context) (id : BlockId) : List Read :=
  match c.procedure.graph.block? id with
  | some block => c.reads block
  | none => []

/-- In the order of visits, the block is the first to refer to a field with this content. -/
def Resets (c : Context) (id : BlockId) (l : Location) : Prop :=
  ∃ done rest, c.procedure.graph.plan.order = done ++ id :: rest ∧
    c.Overwrites (done.flatMap c.readsAt) (c.readsAt id) l

/-- The state has the value, or what came of it by a reset further up. -/
def Stained (c : Context) (l : Location) (v : Value) (id : BlockId) (s : State) : Prop :=
  ∃ w, s.get? l = some w ∧ v.Stains w ∧
    (w.kind ≤ v.kind ∨ ∃ first, c.Resets first l ∧ Reaches c.procedure.graph.successors first id)

variable {c : Context} {l : Location} {v : Value}

theorem Resets.mem_order {id : BlockId} (resets : c.Resets id l) :
    id ∈ c.procedure.graph.plan.order := by
  obtain ⟨done, rest, order, -⟩ := resets
  simp [order]

theorem resets_iff {id : BlockId} {done rest : List BlockId}
    (order : c.procedure.graph.plan.order = done ++ id :: rest) :
    c.Resets id l ↔ c.Overwrites (done.flatMap c.readsAt) (c.readsAt id) l := by
  refine ⟨?_, fun overwrites => ⟨done, rest, order, overwrites⟩⟩
  rintro ⟨other, later, split, overwrites⟩
  obtain ⟨notDone, notLater⟩ := Graph.not_mem_of_reversePostorder order
  obtain ⟨rfl, -⟩ :=
    (List.append_cons_inj_of_notMem notDone notLater).mp (order.symm.trans split)
  exact overwrites

theorem stained_merge (id : BlockId) {s t : State} (left : c.Stained l v id s)
    (right : c.Stained l v id t) : c.Stained l v id (State.domain.merge s t) := by
  obtain ⟨a, foundLeft, stainsLeft, belowLeft⟩ := left
  obtain ⟨b, foundRight, stainsRight, belowRight⟩ := right
  refine ⟨a.merge b, ?_, stainsLeft.merge stainsRight, ?_⟩
  · rw [State.get?_merge, foundLeft, foundRight]
  · rw [Value.kind_merge]
    rcases belowLeft with low | reset
    · exact belowRight.imp_left (sup_le low)
    · exact .inr reset

theorem rereading_carries (wellFormed : v.WellFormed) (given : c.entryState.get? l = some v)
    (descend : Option Runner) :
    (c.problem descend).Carries c.rereading (c.Stained l v) fun s => s.kindAt l where
  invariant :=
    { initial := ⟨v, given, Value.stains_self wellFormed, .inl le_rfl⟩
      merge := fun id _ _ => stained_merge id
      move := by
        rintro id block edge s stored listed ⟨w, found, stains, below⟩
        refine ⟨w, get?_rereading block found, stains, below.imp_right ?_⟩
        rintro ⟨first, resets, reaches⟩
        exact ⟨first, resets, reaches.snoc (Graph.destination_mem_successors stored listed)⟩ }
  sup := by
    intro id s t _ _
    have any (s : State) : s.Each fun _ _ => True := fun _ _ _ => trivial
    have merged : (State.domain.merge s t).view Value.kind =
        s.view Value.kind ⊔ t.view Value.kind :=
      State.view_merge (fun _ a b _ _ => Value.kind_merge a b) (any s) (any t)
    exact congrFun merged l
  kept := by
    rintro id block edge s - - ⟨w, found, -⟩
    rw [State.kindAt_of_get? found]
    exact State.kindAt_of_get? (get?_rereading block found)

/-! ### The first pass -/

def LeadsTo (c : Context) (z id : BlockId) : Prop :=
  Reaches c.procedure.graph.successors c.procedure.graph.entry id ∧
    Reaches c.procedure.graph.successors id z

theorem leadsTo_goesOn (valid : c.procedure.graph.Valid) (descend : Option Runner) {z : BlockId}
    (cycle : OnCycle c.procedure.graph.successors z) :
    (c.problem descend).GoesOn (c.LeadsTo z) where
  listed y leads := (Graph.mem_reversePostorder_iff valid y).mpr leads.1
  onward y leads := by
    obtain ⟨x, successor, onward⟩ := leads.2.onward cycle
    exact ⟨x, successor, leads.1.snoc successor, onward⟩

/-- What a reset has left is on its way to every cycle that it can come to. -/
def ResetsPending (c : Context) (descend : Option Runner) (l : Location) (done : List BlockId)
    (edges : SortedMap Slot State) (rest : List BlockId) : Prop :=
  ∀ first ∈ done, ∀ z, c.Resets first l → Reaches c.procedure.graph.successors first z →
    OnCycle c.procedure.graph.successors z →
      (c.problem descend).Pending (fun s => s.kindAt l) (Kind.notCompleted : WithBot Kind)
        (c.LeadsTo z) edges rest

/-- Where the first pass is, with the blocks it has visited and those it has not: the fields read
so far are tracked, and every block visited has sent a state along each of its edges. -/
structure Begun (c : Context) (descend : Option Runner) (l : Location) (v : Value)
    (done rest : List BlockId) (p : Progress State) (m : Memory) : Prop where
  tracks : ∃ fields, m.fields = some fields ∧ Tracks fields (done.flatMap c.readsAt)
  sent : ∀ id ∈ done, ∀ block, c.procedure.graph.block? id = some block → ∀ i edge,
    block.successors[i]? = some edge → ∃ s, p.edges.get? ⟨id, i⟩ = some s
  good : (c.problem descend).EdgesHold (c.Stained l v) p.edges
  changed : p.changed = false → p.edges = ∅
  listed : (c.problem descend).SnapshotsListed p
  pending : c.ResetsPending descend l done p.edges rest

def Makes (c : Context) (id : BlockId) (l : Location) (input output : State) : Prop :=
  ∀ w, input.get? l = some w →
    (c.Resets id l → output.get? l = some .notCompleted) ∧
    (¬ c.Resets id l → output.get? l = some w)

theorem readsAt_eq {id : BlockId} {block : Block}
    (found : c.procedure.graph.block? id = some block) : c.readsAt id = c.reads block := by
  rw [readsAt, found]

theorem makes_of_reads {id : BlockId} {done rest : List BlockId}
    (order : c.procedure.graph.plan.order = done ++ id :: rest) {block : Block}
    (found : c.procedure.graph.block? id = some block) {fields : TrackedFields}
    (tracks : Tracks fields (done.flatMap c.readsAt)) (input : State) :
    c.Makes id l input ((c.reads block).foldl c.look (input, fields)).1 := by
  intro w now
  rw [resets_iff order, readsAt_eq found]
  exact get?_foldl_look tracks (c.reads block) now

theorem get?_sent (valid : c.procedure.graph.Valid) {descend : Option Runner} {id : BlockId}
    {block : Block} (found : c.procedure.graph.block? id = some block) {i : Nat} {edge : Edge}
    (place : block.successors[i]? = some edge) (output : State) (p : Progress State) :
    ((c.problem descend).send c.rereading block output p).edges.get? ⟨id, i⟩ = some output := by
  rw [← valid.block_id found]
  exact Problem.get?_send_of_listed place output p

theorem Makes.stained {id : BlockId} {input output : State} (makes : c.Makes id l input output)
    {block : Block} {edge : Edge} (found : c.procedure.graph.block? id = some block)
    (listed : edge ∈ block.successors) (stained : c.Stained l v id input) :
    c.Stained l v edge.destination output := by
  obtain ⟨w, now, stains, below⟩ := stained
  have successor := Graph.destination_mem_successors found listed
  by_cases resets : c.Resets id l
  · exact ⟨.notCompleted, (makes w now).1 resets, v.stains_notCompleted,
      .inr ⟨id, resets, .step successor (.refl _)⟩⟩
  · refine ⟨w, (makes w now).2 resets, stains, below.imp_right ?_⟩
    rintro ⟨first, resetsFirst, reaches⟩
    exact ⟨first, resetsFirst, reaches.snoc successor⟩

section

variable {descend : Option Runner} {done rest : List BlockId} {id : BlockId}
  {p q : Progress State} {m after : Memory}
  (valid : c.procedure.graph.Valid)
  (order : c.procedure.graph.plan.order = done ++ id :: rest)

include valid order

/-- Every block is visited after one that leads to it, so there is something to receive. -/
theorem Begun.arrived (begun : c.Begun descend l v done (id :: rest) p m) :
    ∃ input, (c.problem descend).input? c.procedure.graph.plan p.edges id = some input := by
  rcases c.procedure.graph.reversePostorder_led done id rest order with
    rfl | ⟨y, before, successor⟩
  · have arrives : c.entryState ∈ (c.problem descend).arrivals p.edges c.procedure.graph.entry :=
      List.mem_append_left _ (by simp [problem, transfer])
    exact Problem.input_of_arrival _ arrives
  · obtain ⟨block, stored, edge, listed, rfl⟩ := Graph.mem_successors_iff.mp successor
    obtain ⟨i, place⟩ := List.mem_iff_getElem?.mp listed
    obtain ⟨s, onEdge⟩ := begun.sent y before block stored i edge place
    have arrives : s ∈ (c.problem descend).arrivals p.edges edge.destination :=
      Problem.mem_arrivals_of_edge valid stored place onEdge
    exact Problem.input_of_arrival _ arrives

/-- What a block receives is seen in what it sends, and so is what it resets. -/
theorem ResetsPending.visit (wellFormed : v.WellFormed) (given : c.entryState.get? l = some v)
    (good : (c.problem descend).EdgesHold (c.Stained l v) p.edges) {block : Block}
    {input output : State} (found : c.procedure.graph.block? id = some block)
    (arrived : (c.problem descend).input? c.procedure.graph.plan p.edges id = some input)
    (makes : c.Makes id l input output)
    (pending : c.ResetsPending descend l done p.edges (id :: rest)) :
    c.ResetsPending descend l (done ++ [id])
      ((c.problem descend).send c.rereading block output p).edges rest := by
  have carries := rereading_carries wellFormed given descend
  obtain ⟨w, now, -⟩ := Problem.input_holds valid carries.invariant good arrived
  intro first member z resets leads cycle
  have goesOn := leadsTo_goesOn valid descend cycle
  rcases List.mem_append.mp member with before | last
  -- A reset of an earlier block is passed on: this block sends what it receives, or resets again.
  · refine (pending first before z resets leads cycle).visit goesOn order carries.rises valid good
      ?_ ?_
    · intro slot elsewhere
      exact (Problem.get?_send valid found output p slot).resolve_left fun own => elsewhere own.1
    · intro other received foundToo arrivedToo shows i edge place
      cases foundToo.symm.trans found
      cases arrivedToo.symm.trans arrived
      refine ⟨output, get?_sent valid found place output p, ?_⟩
      by_cases here : c.Resets id l
      · exact (State.kindAt_of_get? ((makes w now).1 here)).ge
      · rw [State.kindAt_of_get? ((makes w now).2 here), ← State.kindAt_of_get? now]
        exact shows
  -- A reset of this block is in what the block sends.
  · rw [List.mem_singleton.mp last] at resets leads
    have reached := (Graph.mem_reversePostorder_iff valid id).mp resets.mem_order
    refine Problem.pending_of_sent goesOn order ⟨reached, leads⟩ found fun i edge place => ?_
    exact ⟨output, get?_sent valid found place output p,
      (State.kindAt_of_get? ((makes w now).1 resets)).ge⟩

omit order in
theorem get?_sent_cases {block : Block} (found : c.procedure.graph.block? id = some block)
    (output : State) (slot : Slot) :
    (slot.source = id ∧ ∃ edge, block.successors[slot.index]? = some edge ∧
      ((c.problem descend).send c.rereading block output p).edges.get? slot = some output) ∨
    ((c.problem descend).send c.rereading block output p).edges.get? slot = p.edges.get? slot :=
  Problem.get?_send valid found output p slot

omit order in
theorem Begun.sent_visit (begun : c.Begun descend l v done (id :: rest) p m) {block : Block}
    (found : c.procedure.graph.block? id = some block) (output : State) {other : BlockId}
    (member : other ∈ done ++ [id]) {sender : Block}
    (stored : c.procedure.graph.block? other = some sender) {i : Nat} {edge : Edge}
    (place : sender.successors[i]? = some edge) :
    ∃ s, ((c.problem descend).send c.rereading block output p).edges.get? ⟨other, i⟩ = some s := by
  rcases List.mem_append.mp member with before | last
  · obtain ⟨s, onEdge⟩ := begun.sent other before sender stored i edge place
    rcases get?_sent_cases valid found output ⟨other, i⟩ with ⟨-, _, -, own⟩ | kept
    · exact ⟨_, own⟩
    · exact ⟨s, kept.trans onEdge⟩
  · rw [List.mem_singleton.mp last] at stored ⊢
    cases stored.symm.trans found
    exact ⟨_, get?_sent valid found place output p⟩

theorem Begun.good_visit (wellFormed : v.WellFormed) (given : c.entryState.get? l = some v)
    (begun : c.Begun descend l v done (id :: rest) p m) {block : Block} {input output : State}
    (found : c.procedure.graph.block? id = some block)
    (arrived : (c.problem descend).input? c.procedure.graph.plan p.edges id = some input)
    (makes : c.Makes id l input output) :
    (c.problem descend).EdgesHold (c.Stained l v)
      ((c.problem descend).send c.rereading block output p).edges := by
  have listed : id ∈ c.procedure.graph.plan.order := by simp [order]
  have received := Problem.input_holds valid
    (rereading_carries wellFormed given descend).invariant begun.good arrived
  intro slot s onEdge
  rcases get?_sent_cases valid found output slot with ⟨source, edge, member, own⟩ | kept
  · cases own.symm.trans onEdge
    rw [source]
    exact ⟨listed, block, edge, found, member,
      makes.stained found (List.mem_of_getElem? member) received⟩
  · exact begun.good slot s (kept.symm.trans onEdge)

theorem Begun.visit (callee : c.isCallee = true) (only : c.body.OnlyReads)
    (wellFormed : v.WellFormed) (given : c.entryState.get? l = some v)
    (begun : c.Begun descend l v done (id :: rest) p m)
    (ran : ((c.problem descend).visit c.procedure.graph.plan p id).run m = (.ok q, after)) :
    c.Begun descend l v (done ++ [id]) rest q after := by
  have listed : id ∈ c.procedure.graph.plan.order := by simp [order]
  have reached := (Graph.mem_reversePostorder_iff valid id).mp listed
  obtain ⟨block, found⟩ := valid.reached_block reached
  obtain ⟨input, arrived⟩ := begun.arrived valid order
  obtain ⟨fields, tracked, tracks⟩ := begun.tracks
  obtain ⟨rfl, rfl⟩ := visit_reads only descend callee tracked found arrived ran
  have makes : c.Makes id l input _ := makes_of_reads order found tracks input
  have tracksNext : Tracks _ (done.flatMap c.readsAt ++ c.reads block) :=
    tracks.foldl_look (c := c) (c.reads block) input
  generalize (c.reads block).foldl c.look (input, fields) = made at makes tracksNext
  refine ⟨⟨made.2, rfl, ?tracks⟩, ?sent, ?good, ?changed, ?listed, ?pending⟩
  case tracks => rwa [List.flatMap_append, List.flatMap_singleton, readsAt_eq found]
  case sent => exact fun _ member _ stored _ _ => begun.sent_visit valid found made.1 member stored
  case good => exact begun.good_visit valid order wellFormed given found arrived makes
  case changed =>
    intro still
    have same := Problem.send_of_unchanged still
    rw [same] at still ⊢
    exact begun.changed still
  case listed =>
    intro other snapshot recorded
    by_cases here : id = other
    · exact here ▸ listed
    · exact begun.listed other snapshot (SortedMap.get?_insert_of_ne here ▸ recorded)
  case pending =>
    exact begun.pending.visit valid order wellFormed given begun.good found arrived makes

end

/-- A callee begins with no field tracked. -/
theorem begun_of_pass (valid : c.procedure.graph.Valid) (callee : c.isCallee = true)
    (only : c.body.OnlyReads) (wellFormed : v.WellFormed)
    (given : c.entryState.get? l = some v) {descend : Option Runner} {q : Progress State}
    {m after : Memory} (start : m.fields = some ∅)
    (ran : ((c.problem descend).pass c.procedure.graph.plan {}).run m = (.ok q, after)) :
    c.Begun descend l v c.procedure.graph.plan.order [] q after := by
  have all (done rest : List BlockId) (order : c.procedure.graph.plan.order = done ++ rest)
      (p : Progress State) (m : Memory) (begun : c.Begun descend l v done rest p m)
      (ran : (rest.foldlM ((c.problem descend).visit c.procedure.graph.plan) p).run m =
        (.ok q, after)) : c.Begun descend l v c.procedure.graph.plan.order [] q after := by
    induction rest generalizing done p m with
    | nil =>
        cases ran
        rwa [order, List.append_nil]
    | cons id rest ih =>
        rw [List.foldlM_cons] at ran
        obtain ⟨next, between, ranFirst, ranRest⟩ := Step.run_bind_ok ran
        exact ih (done ++ [id]) (by simp [order]) next between
          (begun.visit valid order callee only wellFormed given ranFirst) ranRest
  apply all [] _ rfl _ m _ ran
  refine ⟨⟨∅, start, fun field => ?_⟩, nofun, nofun, fun _ => rfl, nofun, nofun⟩
  simp [SortedMap.contains]

end Context

end PathCompletion
