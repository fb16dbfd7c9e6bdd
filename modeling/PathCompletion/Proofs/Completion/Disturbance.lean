import PathCompletion.Proofs.Completion.Reset

/-!
What reading disturbs. A callee starts with no field tracked, and so its first pass resets what
the caller knows about fields. Later passes bring the caller's values again, but merge them with
what the first pass has left on the edges: where that can go round a cycle it stays, and if the
cycle leads to the exit the caller gets it back.
-/

namespace PathCompletion.Context

variable {c : Context} {l : Location} {v : Value}

/-- What a reset leaves can go round a cycle, and from there to the exit. -/
def Disturbs (c : Context) (l : Location) : Prop :=
  ∃ first z, c.Resets first l ∧ Reaches c.procedure.graph.successors first z ∧
    OnCycle c.procedure.graph.successors z ∧
    Reaches c.procedure.graph.successors z c.procedure.graph.exit

def Becomes (c : Context) (l : Location) (v w : Value) : Prop :=
  (c.Disturbs l → w = v.merge .notCompleted) ∧ (¬ c.Disturbs l → w = v)

theorem Disturbs.reached (valid : c.procedure.graph.Valid) (disturbs : c.Disturbs l) :
    Reaches c.procedure.graph.successors c.procedure.graph.entry c.procedure.graph.exit := by
  obtain ⟨first, z, resets, leads, -, exits⟩ := disturbs
  have reached := (Graph.mem_reversePostorder_iff valid first).mp resets.mem_order
  exact reached.trans (leads.trans exits)

/-! ### Later passes -/

def ReadsTracked (c : Context) (m : Memory) : Prop :=
  ∃ fields, m.fields = some fields ∧
    ∀ id ∈ c.procedure.graph.plan.order, ∀ r ∈ c.readsAt id, fields.contains r.field = true

theorem Begun.readsTracked {descend : Option Runner} {p : Progress State} {m : Memory}
    (begun : c.Begun descend l v c.procedure.graph.plan.order [] p m) : c.ReadsTracked m := by
  obtain ⟨fields, tracked, tracks⟩ := begun.tracks
  refine ⟨fields, tracked, fun id listed r member => ?_⟩
  exact (tracks r.field).mpr ⟨r, List.mem_flatMap.mpr ⟨id, listed, member⟩, rfl⟩

theorem visit_rereads (callee : c.isCallee = true) (only : c.body.OnlyReads)
    (descend : Option Runner) :
    ∀ id ∈ c.procedure.graph.plan.order, ∀ p q m after, c.ReadsTracked m →
      ((c.problem descend).visit c.procedure.graph.plan p id).run m = (.ok q, after) →
        q = (c.problem descend).advance c.rereading p id ∧ c.ReadsTracked after := by
  rintro id listed p q m after ⟨fields, tracked, known⟩ ran
  rcases (c.problem descend).advance_cases c.rereading p id with
    ⟨nothing, same⟩ | ⟨block, input, found, arrived, same⟩
  · rcases Problem.visit_cases ran with ⟨-, rfl, rfl⟩ | ⟨block, input, _, _, _, found, arrived, -⟩
    · exact ⟨same.symm, fields, tracked, known⟩
    · rcases nothing with missing | missing
      · cases missing.symm.trans found
      · cases missing.symm.trans arrived
  · have here : ∀ r ∈ c.reads block, fields.contains r.field = true := by
      rw [← readsAt_eq found]
      exact known id listed
    obtain ⟨rfl, rfl⟩ := visit_reads only descend callee tracked found arrived ran
    rw [foldl_look_of_tracked block here]
    exact ⟨same.symm, fields, rfl, known⟩

/-- A first pass that changes nothing never leaves the entry. -/
theorem Begun.changed_of_reached (valid : c.procedure.graph.Valid) {descend : Option Runner}
    {p : Progress State} {m : Memory}
    (begun : c.Begun descend l v c.procedure.graph.plan.order [] p m)
    (reached : Reaches c.procedure.graph.successors c.procedure.graph.entry
      c.procedure.graph.exit) : p.changed = true := by
  by_contra still
  have nothing := begun.changed (by simpa using still)
  generalize last : c.procedure.graph.exit = exit at reached
  cases reached with
  | refl => exact valid.entry_ne_exit last.symm
  | step successor _ =>
      obtain ⟨block, stored, edge, listed, -⟩ := Graph.mem_successors_iff.mp successor
      obtain ⟨i, place⟩ := List.mem_iff_getElem?.mp listed
      have first := (Graph.mem_reversePostorder_iff valid _).mpr (.refl _)
      obtain ⟨s, onEdge⟩ := begun.sent _ first block stored i edge place
      rw [nothing] at onEdge
      cases onEdge

section

variable (valid : c.procedure.graph.Valid) (wellFormed : v.WellFormed)
  (given : c.entryState.get? l = some v) {descend : Option Runner}

include valid wellFormed given

section

variable {edges : SortedMap Slot State}
  (good : (c.problem descend).EdgesHold (c.Stained l v) edges)
  (settled : (c.problem descend).Settled c.rereading edges) {input : State} {w : Value}
  (arrived : (c.problem descend).input? c.procedure.graph.plan edges c.procedure.graph.exit =
    some input)
  (now : input.get? l = some w)

include good settled arrived now

theorem reset_of_disturbs
    (pending : c.ResetsPending descend l c.procedure.graph.plan.order edges [])
    (disturbs : c.Disturbs l) : .notCompleted ≤ w.kind := by
  obtain ⟨first, z, resets, leads, cycle, exits⟩ := disturbs
  have carries := rereading_carries wellFormed given descend
  -- It is still on its way somewhere before the cycle, and from there settled states carry it on.
  obtain ⟨y, received, ⟨reached, onward⟩, arrivedThere, shows⟩ :=
    (pending first resets.mem_order z resets leads cycle).input carries.rises valid good
  obtain ⟨other, arrivedLast, low⟩ := carries.le_of_reaches valid good settled reached
    (onward.trans exits) arrivedThere shows
  cases arrivedLast.symm.trans arrived
  have reset : (Kind.notCompleted : WithBot Kind) ≤ input.kindAt l := low
  rwa [State.kindAt_of_get? now, WithBot.coe_le_coe] at reset

/-- What is too high goes round a cycle, and only a reset can have brought it there. -/
theorem le_of_not_disturbs
    (reached : Reaches c.procedure.graph.successors c.procedure.graph.entry
      c.procedure.graph.exit) (undisturbed : ¬ c.Disturbs l) : w.kind ≤ v.kind := by
  by_contra high
  have carries := rereading_carries wellFormed given descend
  have shown : ¬ input.kindAt l ≤ (v.kind : WithBot Kind) := by
    rwa [State.kindAt_of_get? now, WithBot.coe_le_coe]
  obtain ⟨z, other, cycle, leads, arrivedThere, highThere⟩ := carries.exists_onCycle valid good
    settled (State.kindAt_of_get? given).le reached arrived shown
  obtain ⟨u, found, -, low | ⟨first, resets, reaches⟩⟩ :=
    Problem.input_holds valid carries.invariant good arrivedThere
  · apply highThere
    rw [State.kindAt_of_get? found]
    exact WithBot.coe_le_coe.mpr low
  · exact undisturbed ⟨first, z, resets, reaches, cycle, leads⟩

end

/-- Where the passes settle, the exit has the value that was given, merged with that of a reset if
one has left something that leads there by way of a cycle. -/
theorem exit_of_settled {edges : SortedMap Slot State}
    (good : (c.problem descend).EdgesHold (c.Stained l v) edges)
    (settled : (c.problem descend).Settled c.rereading edges)
    (pending : c.ResetsPending descend l c.procedure.graph.plan.order edges [])
    (reached : Reaches c.procedure.graph.successors c.procedure.graph.entry
      c.procedure.graph.exit) :
    ∃ input w, (c.problem descend).input? c.procedure.graph.plan edges c.procedure.graph.exit =
        some input ∧ input.get? l = some w ∧ c.Becomes l v w := by
  have carries := rereading_carries wellFormed given descend
  obtain ⟨input, arrived, above⟩ := carries.input_of_reached valid good settled reached
  obtain ⟨w, now, stains, -⟩ := Problem.input_holds valid carries.invariant good arrived
  have atLeast : v.kind ≤ w.kind := by
    have below : c.entryState.kindAt l ≤ input.kindAt l := above
    rwa [State.kindAt_of_get? given, State.kindAt_of_get? now, WithBot.coe_le_coe] at below
  have self := Value.stains_self wellFormed
  refine ⟨input, w, arrived, now, fun disturbs => ?_, fun undisturbed => ?_⟩
  · have reset := reset_of_disturbs valid wellFormed given good settled arrived now pending disturbs
    apply stains.eq_of_kind (self.merge v.stains_notCompleted)
    rw [Value.kind_merge]
    exact le_antisymm stains.kind (sup_le atLeast reset)
  · have low := le_of_not_disturbs valid wellFormed given good settled arrived now reached
      undisturbed
    exact stains.eq_of_kind self (le_antisymm low atLeast)

/-- Passes that follow the first one leave a snapshot of the exit that belongs to settled
states. -/
theorem Begun.exit_of_rounds {p : Progress State} {m : Memory}
    (begun : c.Begun descend l v c.procedure.graph.plan.order [] p m) {n : Nat}
    (still : (((c.problem descend).round c.rereading)^[n + 1] p).changed = false)
    (reached : Reaches c.procedure.graph.successors c.procedure.graph.entry
      c.procedure.graph.exit) :
    ∃ snapshot w, (((c.problem descend).round c.rereading)^[n + 1] p).snapshots.get?
        c.procedure.graph.exit = some snapshot ∧ snapshot.output.get? l = some w ∧
      c.Becomes l v w := by
  have carries := rereading_carries wellFormed given descend
  have good := Problem.rounds_edgesHold valid carries.invariant begun.good n
  have pending : c.ResetsPending descend l c.procedure.graph.plan.order
      (((c.problem descend).round c.rereading)^[n] p).edges [] :=
    fun first listed z resets leads cycle =>
      (begun.pending first listed z resets leads cycle).rounds (leadsTo_goesOn valid descend cycle)
        carries valid begun.good n
  rw [Function.iterate_succ_apply'] at still ⊢
  obtain ⟨same, settled, recorded⟩ := Problem.round_of_unchanged still
  obtain ⟨input, w, arrived, now, ends⟩ :=
    exit_of_settled valid wellFormed given good settled pending reached
  obtain ⟨block, found⟩ := valid.reached_block reached
  have listed := (Graph.mem_reversePostorder_iff valid _).mpr reached
  rw [← same] at arrived
  exact ⟨_, w, recorded _ listed block input found arrived, get?_rereading block now, ends⟩

/-- An analysis that comes to its exit ends there with the value it was given, merged with that of
a reset where one disturbs it. -/
theorem solve_of_reads (callee : c.isCallee = true) (only : c.body.OnlyReads) {limit : Nat}
    {m after : Memory} {solution : Solution State} (start : m.fields = some ∅)
    (ran : ((c.problem descend).solve limit).run m = (.ok solution, after)) :
    (¬ c.Disturbs l ∧ solution.snapshots.get? c.procedure.graph.exit = none) ∨
    ∃ snapshot w, solution.snapshots.get? c.procedure.graph.exit = some snapshot ∧
      snapshot.output.get? l = some w ∧ c.Becomes l v w := by
  unfold Problem.solve at ran
  rw [show (c.problem descend).graph.fault? = none from valid] at ran
  cases limit with
  | zero => cases ran
  | succ budget =>
      dsimp only at ran
      -- Only the passes after the first one move states by functions.
      rw [Problem.iterate] at ran
      obtain ⟨next, between, ranPass, ranRest⟩ := Step.run_bind_ok ran
      have begun := begun_of_pass valid callee only wellFormed given start ranPass
      have rereads := visit_rereads callee only descend
      by_cases reached : Reaches c.procedure.graph.successors c.procedure.graph.entry
        c.procedure.graph.exit
      · rw [if_pos (begun.changed_of_reached valid reached)] at ranRest
        obtain ⟨n, still, snapshots⟩ :=
          Problem.iterate_of_visits rereads begun.readsTracked ranRest
        rw [snapshots]
        exact .inr (begun.exit_of_rounds valid wellFormed given still reached)
      · refine .inl ⟨fun disturbs => reached (disturbs.reached valid), ?_⟩
        by_contra some
        obtain ⟨snapshot, found⟩ := Option.ne_none_iff_exists'.mp some
        apply reached
        apply (Graph.mem_reversePostorder_iff valid _).mp
        split at ranRest
        · obtain ⟨n, -, snapshots⟩ := Problem.iterate_of_visits rereads begun.readsTracked ranRest
          rw [snapshots] at found
          exact Problem.rounds_snapshotsListed begun.listed (n + 1) _ snapshot found
        · cases ranRest
          exact begun.listed _ snapshot found

end

theorem analyzeWith_of_reads (callee : c.isCallee = true) (only : c.body.OnlyReads)
    (tracking : c.env.config.trackFields = true) (wellFormed : v.WellFormed)
    (given : c.entryState.get? l = some v) {descend : Option Runner} {cancelled after : Bool}
    {result : Result} (ran : analyzeWith descend c cancelled = (.ok result, after)) :
    (¬ c.Disturbs l ∧ result.exitState? = none) ∨
    ∃ exit w, result.exitState? = some exit ∧ exit.get? l = some w ∧ c.Becomes l v w := by
  obtain ⟨solution, m, solved, snapshots⟩ := analyzeWith_ok ran
  have start : (c.initialMemory cancelled).fields = some ∅ := by simp [initialMemory, tracking]
  unfold Result.exitState?
  rw [analyzeWith_exit ran, snapshots]
  rcases solve_of_reads (Problem.valid_of_solve solved) wellFormed given callee only start solved
    with ⟨undisturbed, missing⟩ | ⟨snapshot, w, found, ends⟩
  · rw [missing]
    exact .inl ⟨undisturbed, rfl⟩
  · rw [found]
    exact .inr ⟨snapshot.output, w, rfl, ends⟩

/-! ### Calls -/

variable {s : State}

theorem applyCallee_without_arguments {op : Operation} (unreturned : c.isTarget op.ty = false)
    (callee : Body) (exit s : State) : c.applyCallee op callee [] exit s = adopt exit s := by
  simp only [applyCallee, receive, unreturned, Bool.false_eq_true, ↓reduceIte]
  rfl

/-- What comes back for a location is what the callee's reads have made of it. -/
theorem Enters.get?_of_reads {callee : Body} {levels : Nat} {op : Operation} {method : MethodId}
    {result : Result} (unreturned : c.isTarget op.ty = false)
    (tracking : c.env.config.trackFields = true) (only : callee.OnlyReads)
    (wellFormed : s.Each fun _ v => v.WellFormed)
    (enters : c.Enters (descent levels) method [] s callee result) {t : State}
    (brought : t = (result.exitState?.map fun exit => c.applyCallee op callee [] exit s).getD s)
    (l : Location) :
    ((c.entering callee [] s).Disturbs l →
      t.get? l = (s.get? l).map fun v => v.merge .notCompleted) ∧
    (¬ (c.entering callee [] s).Disturbs l → t.get? l = s.get? l) := by
  obtain ⟨run, cancelled, ended, here, ran⟩ := enters.ran
  obtain ⟨own, rfl⟩ := exists_analyzeWith here
  -- A call without arguments hands back what the exit of the callee has, and nothing else.
  have adopted : t.get? l =
      (s.get? l).map fun v => (result.exitState?.bind fun exit => exit.get? l).getD v := by
    subst brought
    cases result.exitState? with
    | none => cases now : s.get? l <;> simp [now]
    | some exit =>
        simp only [Option.map_some, Option.getD_some, applyCallee_without_arguments unreturned,
          get?_adopt, Option.bind_some]
  rw [adopted]
  cases now : s.get? l with
  | none => exact ⟨fun _ => rfl, fun _ => rfl⟩
  | some v =>
      have given : (c.entering callee [] s).entryState.get? l = some v :=
        get?_entryState_of_some now
      rcases analyzeWith_of_reads (c := c.entering callee [] s) rfl only tracking
        (wellFormed l v now) given ran with
        ⟨undisturbed, missing⟩ | ⟨exit, w, exits, found, ends⟩
      · rw [missing]
        exact ⟨fun disturbs => absurd disturbs undisturbed, fun _ => rfl⟩
      · simp only [exits, Option.bind_some, found, Option.map_some, Option.getD_some,
          Option.some.injEq]
        exact ends

/-- After a call without arguments of a method that only reads, the caller knows what it knew
before, except that what the reads disturb is merged with what nothing has happened to. -/
theorem reading_call_keeps_undisturbed {callee : Body} {levels : Nat} {op : Operation}
    {method : MethodId} {t : State} {m after : Memory} (call : method ≠ c.env.target.completion)
    (unreturned : c.isTarget op.ty = false) (tracking : c.env.config.trackFields = true)
    (body : c.env.provider.body? method = some callee) (only : callee.OnlyReads)
    (wellFormed : s.Each fun _ v => v.WellFormed)
    (ran : (c.enterCall (descent levels) op method [] s).run m = (.ok (t, true), after)) :
    (∀ reachable target,
      (c.visitInvocation (descent levels) reachable op method target [] s).run m =
        (.ok t, after)) ∧
    (∀ l, ((c.entering callee [] s).Disturbs l →
        t.get? l = (s.get? l).map fun v => v.merge .notCompleted) ∧
      (¬ (c.entering callee [] s).Disturbs l → t.get? l = s.get? l)) ∧
    (t = s ↔ ∀ l v, s.get? l = some v → (c.entering callee [] s).Disturbs l →
      v.merge .notCompleted = v) := by
  obtain ⟨other, result, enters, brought⟩ := enterCall_analyzed ran
  cases enters.body.symm.trans body
  have each := enters.get?_of_reads unreturned tracking only wellFormed brought
  refine ⟨?_, each, ?_, ?_⟩
  · intro reachable target
    obtain ⟨shape, visited, ranVisit, same⟩ := run_visitInvocation call ran reachable target
    have nothing : c.create reachable op.ty (c.locations op.id) t = t := by
      simp [create, creates, unreturned]
    rcases same with rfl | rfl
    · exact ranVisit
    · rw [ranVisit]
      exact congrArg (fun t => (Except.ok t, after)) nothing
  · rintro rfl l v now disturbs
    have merged := (each l).1 disturbs
    rw [now] at merged
    exact (Option.some.inj merged).symm
  · intro absorbed
    apply SortedMap.ext
    intro l
    by_cases disturbs : (c.entering callee [] s).Disturbs l
    · rw [(each l).1 disturbs]
      cases now : s.get? l with
      | none => rfl
      | some v => exact congrArg some (absorbed l v now disturbs)
    · exact (each l).2 disturbs

/-! ### Callees with loops -/

def peek : Operation :=
  { id := ⟨4⟩, kind := .invocation ⟨2⟩ (some ⟨3⟩) [], ty := some ⟨2⟩ }

def lookAtField : List Operation :=
  [{ id := ⟨0⟩, kind := .instanceReference, ty := some ⟨1⟩ },
    { id := ⟨1⟩, kind := .fieldReference ⟨0⟩ (some ⟨0⟩), ty := some ⟨0⟩ }]

/-- The content of the field is completed, and then looked at. -/
def holder : Context := oneInstance
  (lookAtField ++
    [{ id := ⟨2⟩, kind := .invocation ⟨1⟩ (some ⟨1⟩) [] },
      { id := ⟨3⟩, kind := .instanceReference, ty := some ⟨1⟩ },
      peek])
  [] (straight [⟨2⟩, ⟨4⟩])

def peeker (blocks : List Block) : Body :=
  let p := { holder.procedure with
    id := ⟨1⟩, method := some ⟨2⟩, operations := lookAtField
    graph := { holder.procedure.graph with blocks } }
  ⟨p, p.localOracle⟩

def holding (callee : Body) : Context :=
  { holder with
    env := { holder.env with
      symbols := { holder.env.symbols with
        typeKind := fun ty => some (if ty = ⟨2⟩ then .object else .classType)
        method := fun _ => some ⟨"Peek", ⟨1⟩, false, false, some ⟨2⟩, []⟩ }
      provider := { body? := (lendingTo callee).body? }
      config := Preset.thorough.config }
    body := ⟨holder.procedure, holder.procedure.localOracle⟩ }

def fieldContent : Location := ⟨.fieldDefault ⟨0⟩, some ⟨0⟩⟩

def completedContent : Value := ⟨.completed, .singleton ⟨⟨0⟩, ⟨2⟩⟩⟩

def completedField : State := .ofList [(fieldContent, completedContent)]

theorem peeker_onlyReads (blocks : List Block) : (peeker blocks).OnlyReads :=
  Body.onlyReads_of_local (by decide : ∀ op ∈ lookAtField, op.kind.onlyReads = true) rfl

theorem completedField_wellFormed : completedField.Each fun _ v => v.WellFormed := by
  intro l v found
  have all : ∀ entry ∈ completedField.entries, entry.2.WellFormed := by decide +kernel
  exact all (l, v) (SortedMap.mem_entries_iff.mpr found)

def loopingBefore : List Block :=
  [{ id := ⟨0⟩, kind := .entry, successors := [⟨⟨0⟩, ⟨3⟩, .always⟩] },
    { id := ⟨1⟩, kind := .exit },
    { id := ⟨2⟩, kind := .block, operations := [⟨1⟩], successors := [⟨⟨2⟩, ⟨1⟩, .always⟩] },
    { id := ⟨3⟩, kind := .block,
      successors := [⟨⟨3⟩, ⟨3⟩, .always⟩, ⟨⟨3⟩, ⟨2⟩, .always⟩] }]

def loopingOver : List Block :=
  [{ id := ⟨0⟩, kind := .entry, successors := [⟨⟨0⟩, ⟨2⟩, .always⟩] },
    { id := ⟨1⟩, kind := .exit },
    { id := ⟨2⟩, kind := .block, operations := [⟨1⟩],
      successors := [⟨⟨2⟩, ⟨2⟩, .always⟩, ⟨⟨2⟩, ⟨1⟩, .always⟩] }]

theorem loopingBefore_disturbs_nothing (l : Location) :
    ¬ ((holding (peeker loopingBefore)).entering (peeker loopingBefore) [] completedField).Disturbs
      l := by
  rintro ⟨first, z, resets, leads, ⟨y, successor, round⟩, -⟩
  have reader : ∀ id ∈ (peeker loopingBefore).procedure.graph.plan.order,
      (((holding (peeker loopingBefore)).entering (peeker loopingBefore) []
        completedField).readsAt id).isEmpty = false → id = ⟨2⟩ := by decide +kernel
  have here := resets.mem_order
  obtain ⟨-, -, -, -, before, r, after, split, -⟩ := resets
  obtain rfl := reader first here (by rw [split]; cases before <;> rfl)
  -- From the reading block there is only the way to the exit.
  have ends : z = ⟨2⟩ ∨ z = ⟨1⟩ := by
    apply leads.induct
    · rintro x (rfl | rfl) w next
      · exact .inr (List.mem_singleton.mp next)
      · cases next
    · exact .inl rfl
  rcases ends with rfl | rfl
  · rw [show y = ⟨1⟩ from List.mem_singleton.mp successor] at round
    cases round with
    | step next _ => cases next
  · cases successor

theorem loopingBefore_call_keeps_undisturbed :
    ∃ after, ((holding (peeker loopingBefore)).enterCall (descent 1) peek ⟨2⟩ []
        completedField).run ((holding (peeker loopingBefore)).initialMemory false) =
      (.ok (completedField, true), after) := by
  have ended : (match ((holding (peeker loopingBefore)).enterCall (descent 1) peek ⟨2⟩ []
        completedField).run ((holding (peeker loopingBefore)).initialMemory false) with
      | (.ok (_, true), _) => true
      | _ => false) = true := by decide +kernel
  split at ended
  · next t after ran =>
    have same := (reading_call_keeps_undisturbed (by decide) (by decide) rfl rfl
      (peeker_onlyReads _) completedField_wellFormed ran).2.2.mpr fun l _ _ disturbs =>
        absurd disturbs (loopingBefore_disturbs_nothing l)
    rw [same] at ran
    exact ⟨after, ran⟩
  · contradiction

/-- What is known to be completed comes back as maybe completed, although it was only read. -/
theorem loopingOver_call_disturbs :
    (peeker loopingOver).OnlyReads ∧
    (holding (peeker loopingOver)).env.config.trackFields = true ∧
    (holding (peeker loopingOver)).env.provider.body? ⟨2⟩ = some (peeker loopingOver) ∧
    (holding (peeker loopingOver)).isTarget peek.ty = false ∧
    fieldContent.isFieldDefault = true ∧ completedField.get? fieldContent = some completedContent ∧
    ∃ t after, ((holding (peeker loopingOver)).enterCall (descent 1) peek ⟨2⟩ []
        completedField).run ((holding (peeker loopingOver)).initialMemory false) =
          (.ok (t, true), after) ∧
      t.get? fieldContent = some ⟨.maybeCompleted, .singleton ⟨⟨0⟩, ⟨2⟩⟩⟩ := by
  refine ⟨peeker_onlyReads _, rfl, rfl, by decide, rfl, by decide +kernel, ?_⟩
  have ended : (match ((holding (peeker loopingOver)).enterCall (descent 1) peek ⟨2⟩ []
        completedField).run ((holding (peeker loopingOver)).initialMemory false) with
      | (.ok (t, true), _) =>
          decide (t.get? fieldContent = some ⟨.maybeCompleted, .singleton ⟨⟨0⟩, ⟨2⟩⟩⟩)
      | _ => false) = true := by decide +kernel
  split at ended
  · next t after ran => exact ⟨t, after, ran, of_decide_eq_true ended⟩
  · contradiction

end PathCompletion.Context
