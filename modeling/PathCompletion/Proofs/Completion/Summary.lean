import PathCompletion.Proofs.Completion.Exactness
import PathCompletion.Proofs.Completion.Frame

/-!
What an analyzed call does to an instance that is passed. Its value goes from the caller to the
parameter, with the parameter through the whole analysis of the callee, and from the parameter
back to the caller; so the caller ends with the join of what the callee does to it along all
paths from entry to exit.
-/

namespace PathCompletion

theorem State.contains_merge {s : State} {l : Location} (known : s.contains l = true) (t : State) :
    (State.domain.merge s t).contains l = true := by
  obtain ⟨v, found⟩ := SortedMap.contains_iff.mp known
  rw [SortedMap.contains, State.get?_merge, found]
  cases t.get? l <;> rfl

theorem State.joinAt?_singleton (s : State) (l : Location) :
    s.joinAt? (.singleton l) = s.get? l := by
  change Value.domain.joinOnto none ([l].filterMap s.get?) = s.get? l
  cases found : s.get? l <;> simp [found, Domain.joinOnto]

namespace Procedure

variable {p : Procedure} {index place : Nat} {held : Parameter}

def parameterLocation (p : Procedure) (index : Nat) (held : Parameter) : Location :=
  ⟨.parameter p.id index, some held.ty⟩

theorem localOracle_parameter (declared : p.parameters[index]? = some held) :
    (p.localOracle.parameter index).locations = .singleton (p.parameterLocation index held) := by
  change (p.parameterEntry index).locations = _
  simp only [parameterEntry, declared]
  rfl

theorem eq_of_mem_parameter
    (member : p.parameterLocation index held ∈ (p.localOracle.parameter place).locations) :
    place = index := by
  cases declared : p.parameters[place]? with
  | none =>
      change _ ∈ (p.parameterEntry place).locations at member
      simp only [parameterEntry, declared] at member
      exact absurd member (SortedSet.not_mem_empty _)
  | some other =>
      rw [localOracle_parameter declared, SortedSet.mem_singleton] at member
      have kinds : LocationKind.parameter p.id index = .parameter p.id place :=
        congrArg Location.kind member
      cases kinds
      rfl

end Procedure

namespace Context

variable {c : Context} {s exit : State} {l : Location} {v : Value}

/-! ### The exit of a callee -/

theorem analyzeWith_exit {descend : Option Runner} {cancelled after : Bool} {result : Result}
    (ran : analyzeWith descend c cancelled = (.ok result, after)) :
    result.exit = c.procedure.graph.exit := by
  obtain ⟨solution, m, solved, rfl⟩ := analyzeWith_ran ran
  exact (c.problem descend).solve_exit _ _ _ _ solved

/-- A procedure that makes no call which is followed, and whose exit is reached, ends with the
join of the kinds along all paths to its exit. -/
theorem exit_kinds_along_paths (inside : ∀ op ∈ c.procedure.operations, c.StaysInside op)
    (untracked : c.env.config.trackFields = false)
    (reached : Reaches c.procedure.graph.successors c.procedure.graph.entry c.procedure.graph.exit)
    {own : Option Runner} {started after : Bool} {result : Result}
    (ran : analyzeWith own c started = (.ok result, after)) (descend : Option Runner)
    (cancelled : Bool) :
    ∃ exit last, result.exitState? = some exit ∧
      c.procedure.graph.block? c.procedure.graph.exit = some last ∧
      (∀ path, ∃ t, c.runPathThrough descend cancelled path last = .ok t) ∧
      ∀ l, IsLUB (c.pathKinds (fun path => c.runPathThrough descend cancelled path last)
        c.procedure.graph.exit l) (exit.kindAt l) := by
  obtain ⟨solution, m, solved, snapshots⟩ := analyzeWith_ok ran
  obtain ⟨valid, edges, fixed⟩ := Problem.solve_fixed (computes_of_inside own started inside)
    (quiet_initialMemory started untracked) solved
  obtain ⟨last, stored⟩ := Graph.Valid.reached_block valid reached
  obtain ⟨input, -, found⟩ := fixed.snapshot_of_reached valid reached stored
  have runs (path : List (Block × Edge)) := runPathThrough_eq_of_computes
    (computes_of_inside descend cancelled inside) (quiet_initialMemory cancelled untracked) path
    last
  refine ⟨c.motion.through last input, last, ?_, stored, fun path => ⟨_, runs path⟩, fun l => ?_⟩
  · unfold Result.exitState?
    rw [analyzeWith_exit ran, snapshots, found]
    rfl
  · rw [pathKinds_eq runs own]
    exact isLUB_pi.mp (fixed.isLUB_output valid (c.problem_distributes own) found stored) l

/-! ### Single locations -/

theorem get?_setAll_singleton (trackable : c.isTrackable l = true) :
    (c.setAll (.singleton l) v s).get? l = some v := by
  change (c.setValue s l v).get? l = some v
  rw [get?_setValue, if_pos ⟨rfl, trackable⟩]

theorem get?_revise_singleton (trackable : c.isTrackable l = true) (known : s.contains l = true) :
    (c.revise (fun _ => some v) (.singleton l) s).get? l = some v := by
  obtain ⟨old, found⟩ := SortedMap.contains_iff.mp known
  have revised : c.revise (fun _ => some v) (.singleton l) s = c.setValue s l v := by
    change List.foldl _ s [l] = c.setValue s l v
    simp only [List.foldl_cons, List.foldl_nil, found, Option.bind_some]
  rw [revised, get?_setValue, if_pos ⟨rfl, trackable⟩]

theorem create_elsewhere {locations : LocationSet} (absent : l ∉ locations) (reachable : Bool)
    (ty : Option TypeId) :
    Acts (fun other _ => other ≠ l) (c.create reachable ty locations) := by
  unfold create
  split
  · refine setAll_acts fun other member _ => ?_
    rintro rfl
    exact absent member
  · exact Acts.id

/-- After an analyzed call only out arguments are left to finish. -/
theorem finishArgument_elsewhere {argument : OperationId}
    (outward : ∀ place value, c.argument? argument = some (place, .out, value) →
      l ∉ c.locations argument) (reachable : Bool) (shape : CallShape) (isLast : Bool) :
    Acts (fun other _ => other ≠ l) (c.finishArgument reachable shape true isLast argument) := by
  unfold finishArgument
  cases found : c.argument? argument with
  | none => exact Acts.id
  | some kind =>
      obtain ⟨place, passing, value⟩ := kind
      cases passing with
      | out => exact create_elsewhere (outward place value found) _ _
      | none => exact Acts.id
      | ref => exact Acts.id

/-! ### Passing an instance -/

/-- Of all arguments that bring something in, this one alone passes the location, and alone
goes to the parameter; it passes nothing else, and no out argument brings the location. -/
structure Passes (c : Context) (arguments : List OperationId) (argument : OperationId)
    (index : Nat) (l : Location) : Prop where
  listed : argument ∈ arguments
  inward : ∃ passing value, c.argument? argument = some (index, passing, value) ∧
    passing ≠ .out ∧ c.locations value = .singleton l
  others : ∀ other ∈ arguments, other ≠ argument → ∀ place passing value,
    c.argument? other = some (place, passing, value) → passing ≠ .out →
      place ≠ index ∧ l ∉ c.locations value
  outward : ∀ other ∈ arguments, ∀ place value,
    c.argument? other = some (place, .out, value) → l ∉ c.locations other

namespace Passes

variable {arguments : List OperationId} {argument : OperationId} {index : Nat}
  (passes : c.Passes arguments argument index l)

include passes

theorem bound : (index, .singleton l) ∈ c.bindings arguments :=
  mem_bindings.mpr ⟨argument, passes.listed, passes.inward⟩

/-- No other binding has the parameter or the location. -/
theorem eq_of_bound {place : Nat} {passed : LocationSet}
    (bound : (place, passed) ∈ c.bindings arguments) (shared : place = index ∨ l ∈ passed) :
    place = index ∧ passed = .singleton l := by
  obtain ⟨other, listed, passing, value, found, inward, rfl⟩ := mem_bindings.mp bound
  by_cases same : other = argument
  · obtain ⟨passing', value', foundToo, -, single⟩ := passes.inward
    rw [same, foundToo] at found
    cases found
    exact ⟨rfl, single⟩
  · obtain ⟨apart, unshared⟩ := passes.others other listed same place passing value found inward
    exact (shared.elim apart unshared).elim

theorem finishArguments (reachable : Bool) (shape : CallShape) (s : State) :
    (c.finishArguments reachable shape true arguments s).get? l = s.get? l := by
  have elsewhere : Acts (fun other _ => other ≠ l)
      (c.finishArguments reachable shape true arguments) := by
    refine Acts.foldl _ fun (other, position) listed => ?_
    exact finishArgument_elsewhere
      (passes.outward other (List.fst_mem_of_mem_zipIdx listed)) reachable shape _
  exact elsewhere.untouched s

section

variable {callee : Body} {held : Parameter} (aliases : callee.oracle = callee.procedure.localOracle)
  (declared : callee.procedure.parameters[index]? = some held)

include aliases declared

/-- The parameter starts with what is passed. -/
theorem get?_seed (trackable : c.isTrackable (callee.procedure.parameterLocation index held) = true)
    (now : s.get? l = some v) :
    (c.seed callee arguments s).get? (callee.procedure.parameterLocation index held) = some v := by
  rw [seed_eq]
  refine Acts.get?_foldl passes.bound (fun t _ => ?_) fun (place, passed) bound =>
    seedAt_acts fun w joined other member _ here => ?_
  · simp only [seedAt, State.joinAt?_singleton, now]
    rw [aliases, Procedure.localOracle_parameter declared]
    exact get?_setAll_singleton trackable
  · subst here
    rw [aliases] at member
    obtain ⟨-, rfl⟩ := passes.eq_of_bound bound (.inl (Procedure.eq_of_mem_parameter member))
    rw [State.joinAt?_singleton, now] at joined
    exact (Option.some.inj joined).symm

/-- What is passed ends with what the parameter ends with. -/
theorem get?_applyCallee {op : Operation} (unreturned : l ∉ c.locations op.id)
    (trackable : c.isTrackable l = true) (known : s.contains l = true)
    (ended : exit.get? (callee.procedure.parameterLocation index held) = some v) :
    (c.applyCallee op callee arguments exit s).get? l = some v := by
  have returns : exit.joinAt? (callee.oracle.parameter index).locations = some v := by
    rw [aliases, Procedure.localOracle_parameter declared, State.joinAt?_singleton, ended]
  have adopted : Acts (fun _ _ => True) (adopt exit) := adopt_acts fun _ _ _ => trivial
  have back : (c.handBack callee arguments exit (adopt exit s)).get? l = some v := by
    rw [handBack_eq]
    refine Acts.get?_foldl passes.bound (fun t still => ?_) fun (place, passed) bound =>
      handBackAt_acts fun w joined other member here => ?_
    · simp only [handBackAt, returns]
      exact get?_revise_singleton trackable (still (adopted.contains known))
    · subst here
      obtain ⟨rfl, -⟩ := passes.eq_of_bound bound (.inr member)
      exact Option.some.inj (joined.symm.trans returns)
  have elsewhere : Acts (fun other _ => other ≠ l) (c.receive op callee exit) := by
    refine receive_acts fun _ _ other member _ => ?_
    rintro rfl
    exact unreturned member
  exact (elsewhere.untouched _).trans back

end

end Passes

/-! ### Calls -/

theorem kept_contains (c : Context) (descend : Option Runner) (l : Location) :
    c.Kept descend fun s => s.contains l = true where
  rule bounded known := by
    obtain ⟨cells, sites, -, -, acts⟩ := bounded
    exact acts.contains known
  call known _ _ := (c.applyCallee_keys _ _ _ _).contains known

structure Leaf (c : Context) (callee : Body) : Prop where
  aliases : callee.oracle = callee.procedure.localOracle
  calls : ∀ op ∈ callee.procedure.operations, ∀ method target arguments,
    op.kind = .invocation method target arguments → method = c.env.target.completion
  exits : Reaches callee.procedure.graph.successors callee.procedure.graph.entry
    callee.procedure.graph.exit

def entering (c : Context) (callee : Body) (arguments : List OperationId) (s : State) : Context :=
  c.forCallee callee (c.seed callee arguments s)

/-- The rest of a call: its arguments, and its result if it is a factory. -/
theorem run_visitInvocation {descend : Option Runner} {op : Operation} {method : MethodId}
    {arguments : List OperationId} {entered : State} {analyzed : Bool} {m between : Memory}
    (call : method ≠ c.env.target.completion)
    (ran : (c.enterCall descend op method arguments s).run m = (.ok (entered, analyzed), between))
    (reachable : Bool) (target : Option OperationId) :
    ∃ shape t, (c.visitInvocation descend reachable op method target arguments s).run m =
        (.ok t, between) ∧
      (t = c.finishArguments reachable shape analyzed arguments entered ∨
        t = c.create reachable op.ty (c.locations op.id)
          (c.finishArguments reachable shape analyzed arguments entered)) := by
  unfold visitInvocation
  simp only [call, ↓reduceIte, Step.run_bind_of_ok ran]
  split
  · exact ⟨_, _, rfl, .inr rfl⟩
  · exact ⟨_, _, rfl, .inl rfl⟩

theorem Passes.get?_visited {arguments : List OperationId} {argument : OperationId} {index : Nat}
    (passes : c.Passes arguments argument index l) {op : Operation}
    (unreturned : l ∉ c.locations op.id) {reachable : Bool} {shape : CallShape} {entered t : State}
    (visited : t = c.finishArguments reachable shape true arguments entered ∨
      t = c.create reachable op.ty (c.locations op.id)
        (c.finishArguments reachable shape true arguments entered)) :
    t.get? l = entered.get? l := by
  have finished := passes.finishArguments reachable shape entered
  rcases visited with rfl | rfl
  · exact finished
  · exact ((create_elsewhere unreturned reachable op.ty).untouched _).trans finished

theorem exists_analyzeWith {levels : Nat} {run : Runner} (here : descent levels = some run) :
    ∃ own, run = analyzeWith own := by
  cases levels with
  | zero => contradiction
  | succ levels =>
      cases here
      exact ⟨descent levels, analyzeWithin_eq levels⟩

/-- Where the entry has a value, the exit has one. -/
theorem exit_contains {own : Option Runner} {started after : Bool} {result : Result} {exit : State}
    (given : c.entryState.get? l = some v)
    (analyzed : analyzeWith own c started = (.ok result, after))
    (exits : result.exitState? = some exit) : ∃ w, exit.get? l = some w := by
  obtain ⟨snapshot, found, rfl⟩ := Option.map_eq_some_iff.mp exits
  have kept := (c.kept_contains own l).snapshots (SortedMap.contains_iff.mpr ⟨v, given⟩)
    (fun s t left _ => State.contains_merge left t) analyzed _ snapshot found
  exact SortedMap.contains_iff.mp kept.2.1

/-- A leaf analyzes no calls of its own, wherever it is called from. -/
theorem Leaf.staysInside {callee : Body} (leaf : c.Leaf callee) (arguments : List OperationId)
    (s : State) : ∀ op ∈ callee.procedure.operations,
      (c.entering callee arguments s).StaysInside op :=
  fun op member method target arguments kind =>
    .inl (leaf.calls op member method target arguments kind)

/-- After an analyzed call, what was passed has the join of the kinds that its parameter has
along all paths of the callee, which start with what was passed. -/
theorem analyzed_call_kinds_along_paths {callee : Body} {levels : Nat} {op : Operation}
    {method : MethodId} {arguments : List OperationId} {entered : State} {m between : Memory}
    (call : method ≠ c.env.target.completion)
    (ran : (c.enterCall (descent levels) op method arguments s).run m =
      (.ok (entered, true), between))
    (body : c.env.provider.body? method = some callee) (leaf : c.Leaf callee)
    (untracked : c.env.config.trackFields = false) {argument : OperationId} {index : Nat}
    (passes : c.Passes arguments argument index l) (known : s.contains l = true)
    (trackable : c.isTrackable l = true) (unreturned : l ∉ c.locations op.id) {held : Parameter}
    (declared : callee.procedure.parameters[index]? = some held)
    (holds : c.isTrackable (callee.procedure.parameterLocation index held) = true)
    (reachable : Bool) (target : Option OperationId) (descend : Option Runner)
    (cancelled : Bool) :
    ∃ t last, (c.visitInvocation (descent levels) reachable op method target arguments s).run m =
        (.ok t, between) ∧
      callee.procedure.graph.block? callee.procedure.graph.exit = some last ∧
      (c.entering callee arguments s).entryState.get?
        (callee.procedure.parameterLocation index held) = s.get? l ∧
      (∀ path, ∃ u, (c.entering callee arguments s).runPathThrough descend cancelled path last =
        .ok u) ∧
      IsLUB ((c.entering callee arguments s).pathKinds
        (fun path => (c.entering callee arguments s).runPathThrough descend cancelled path last)
        callee.procedure.graph.exit (callee.procedure.parameterLocation index held))
        (t.kindAt l) := by
  obtain ⟨other, result, enters, brought⟩ := enterCall_analyzed ran
  cases Option.some.inj (enters.body.symm.trans body)
  obtain ⟨run, started, after, here, analyzed⟩ := enters.ran
  obtain ⟨own, rfl⟩ := exists_analyzeWith here
  -- The way in: the parameter starts with the value of what is passed.
  obtain ⟨v, now⟩ := SortedMap.contains_iff.mp known
  have start : (c.entering callee arguments s).entryState.get?
      (callee.procedure.parameterLocation index held) = some v :=
    get?_entryState_of_some (passes.get?_seed leaf.aliases declared holds now)
  -- The callee: its exit has the join over all paths, and still has the parameter.
  obtain ⟨exit, last, exits, stored, runs, joins⟩ := exit_kinds_along_paths
    (c := c.entering callee arguments s) (leaf.staysInside arguments s) untracked leaf.exits
    analyzed descend cancelled
  obtain ⟨w, ended⟩ := exit_contains start analyzed exits
  -- The way back, and what the call does to its arguments.
  obtain ⟨shape, t, visits, visited⟩ := run_visitInvocation call ran reachable target
  have back : t.get? l = some w := by
    rw [passes.get?_visited unreturned visited, brought, exits]
    exact passes.get?_applyCallee leaf.aliases declared unreturned trackable known ended
  refine ⟨t, last, visits, stored, start.trans now.symm, runs, ?_⟩
  have same : t.kindAt l = exit.kindAt (callee.procedure.parameterLocation index held) := by
    simp only [State.kindAt, State.view, back, ended]
  rw [same]
  exact joins _

/-- The callee completes what it is passed on one of its two paths. -/
def undecided : Body := borrower completing
  [{ id := ⟨0⟩, kind := .entry,
     successors := [⟨⟨0⟩, ⟨1⟩, .always⟩, ⟨⟨0⟩, ⟨2⟩, .always⟩] },
    { id := ⟨1⟩, kind := .exit },
    { id := ⟨2⟩, kind := .block, operations := [⟨1⟩], successors := [⟨⟨2⟩, ⟨1⟩, .always⟩] }]

theorem undecided_leaf : (lending undecided).Leaf undecided where
  aliases := rfl
  calls := by
    intro op member method target arguments kind
    rcases List.mem_cons.mp member with rfl | later
    · cases kind
    · cases List.mem_singleton.mp later
      cases kind
      rfl
  exits := .step (b := ⟨1⟩) (by decide) (.refl _)

theorem undecided_passes : (lending undecided).Passes [⟨1⟩] ⟨1⟩ 0
    ⟨.allocation ⟨⟨0⟩, ⟨0⟩⟩, some ⟨0⟩⟩ where
  listed := List.mem_singleton.mpr rfl
  inward := ⟨.none, ⟨0⟩, rfl, nofun, by decide +kernel⟩
  others other listed apart := absurd (List.mem_singleton.mp listed) apart
  outward other listed place value found := by
    cases List.mem_singleton.mp listed
    cases found

theorem undecided_kinds_along_paths :
    ∃ t last between, ((lending undecided).visitInvocation (descent 1) true lend ⟨2⟩ none [⟨1⟩]
        twoInstances).run {} = (.ok t, between) ∧
      t.kindAt ⟨.allocation ⟨⟨0⟩, ⟨0⟩⟩, some ⟨0⟩⟩ = Kind.maybeCompleted ∧
      IsLUB (((lending undecided).entering undecided [⟨1⟩] twoInstances).pathKinds
        (((lending undecided).entering undecided [⟨1⟩] twoInstances).runPathThrough none false ·
          last) ⟨1⟩ ⟨.parameter ⟨1⟩ 0, some ⟨0⟩⟩) (Kind.maybeCompleted : WithBot Kind) := by
  have entered : (match ((lending undecided).enterCall (descent 1) lend ⟨2⟩ [⟨1⟩]
        twoInstances).run {} with
      | (.ok (_, true), _) => true
      | _ => false) = true := by decide +kernel
  have kinds : (match ((lending undecided).visitInvocation (descent 1) true lend ⟨2⟩ none [⟨1⟩]
        twoInstances).run {} with
      | (.ok t, _) => decide (t.kindAt ⟨.allocation ⟨⟨0⟩, ⟨0⟩⟩, some ⟨0⟩⟩ =
          (Kind.maybeCompleted : WithBot Kind))
      | _ => false) = true := by decide +kernel
  split at entered
  · next state between ran =>
    obtain ⟨t, last, visits, -, -, -, joins⟩ := analyzed_call_kinds_along_paths (by decide) ran rfl
      undecided_leaf rfl undecided_passes (by decide +kernel) (by decide +kernel)
      (by decide +kernel) rfl (by decide +kernel) true none none false
    rw [visits] at kinds
    have kind := of_decide_eq_true kinds
    rw [kind] at joins
    exact ⟨t, last, between, visits, kind, joins⟩
  · contradiction

end Context

end PathCompletion
