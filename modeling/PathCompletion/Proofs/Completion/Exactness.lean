import PathCompletion.Proofs.Completion.Motion

/-!
Kinds along paths. Every effect keeps suprema of kinds, although completion is not even
monotone in the evidence, so the kind that an analysis records for a location at a block is
the join of the kinds the location has along all paths from the entry to the block.
-/

namespace PathCompletion

/-! ### Effects on kinds -/

def Kind.become (k : Kind) : SupHom Kind Kind where
  toFun kind := if kind = .nonTarget then .nonTarget else k
  map_sup' a b := by cases a <;> cases b <;> cases k <;> rfl

def Kind.flee : SupHom Kind Kind where
  toFun kind := if kind = .nonTarget ∨ kind = .unknown then kind else .escaped
  map_sup' a b := by cases a <;> cases b <;> rfl

namespace Effect

def onKinds : Effect → SupHom (WithBot Kind) (WithBot Kind)
  | set v => .const _ (v.kind : WithBot Kind)
  | replace v => (SupHom.const Kind v.kind).withBot.toSupHom
  | complete _ => (Kind.become .completed).withBot.toSupHom
  | escape _ => Kind.flee.withBot.toSupHom
  | invalidate => (Kind.become .invalid).withBot.toSupHom

theorem seen_act (effect : Effect) (old : Option Value) :
    seen Value.kind (effect.act old) = effect.onKinds (seen Value.kind old) := by
  cases old with
  | none => cases effect <;> rfl
  | some v =>
      obtain ⟨kind, evidence⟩ := v
      cases effect <;> cases kind <;> rfl

theorem seen_run (effects : List Effect) :
    ∃ F : SupHom (WithBot Kind) (WithBot Kind),
      ∀ old, seen Value.kind (run effects old) = F (seen Value.kind old) := by
  induction effects with
  | nil => exact ⟨.id _, fun _ => rfl⟩
  | cons first rest ih =>
      obtain ⟨F, ran⟩ := ih
      refine ⟨F.comp first.onKinds, fun old => ?_⟩
      rw [run_cons, ran, seen_act]
      rfl

end Effect

theorem Acts.keeps_sup {allowed : Location → Effect → Prop} {f : State → State}
    (acts : Acts allowed f) :
    ∃ F : SupHom (Location → WithBot Kind) (Location → WithBot Kind),
      ∀ s, (f s).view Value.kind = F (s.view Value.kind) := by
  have each (l : Location) : ∃ F : SupHom (WithBot Kind) (WithBot Kind),
      ∀ s : State, (f s).kindAt l = F (s.kindAt l) := by
    obtain ⟨effects, -, ran⟩ := acts l
    obtain ⟨F, onKinds⟩ := Effect.seen_run effects
    exact ⟨F, fun s => by rw [State.kindAt, State.view, ran, onKinds]; rfl⟩
  choose F onKinds using each
  refine ⟨⟨fun kinds l => F l (kinds l), ?_⟩, fun s => funext fun l => onKinds l s⟩
  intro a b
  funext l
  exact map_sup (F l) (a l) (b l)

namespace Context

theorem Bounded.keeps_sup {c : Context} {sort : Effect → Prop} {f : State → State}
    (bounded : c.Bounded sort f) :
    ∃ F : SupHom (Location → WithBot Kind) (Location → WithBot Kind),
      ∀ s, (f s).view Value.kind = F (s.view Value.kind) := by
  obtain ⟨cells, sites, -, -, acts⟩ := bounded
  exact acts.keeps_sup

theorem problem_distributes (c : Context) (descend : Option Runner) :
    (c.problem descend).Distributes c.motion (State.view Value.kind) where
  merge s t := State.view_merge (fun _ a b _ _ => Value.kind_merge a b)
    (fun l v (_ : s.get? l = some v) => trivial) (fun l v (_ : t.get? l = some v) => trivial)
  through block := (c.through_bounded block).keeps_sup
  along block edge := (c.along_bounded block edge).keeps_sup

end Context

/-! ### Kinds along paths -/

/-- What a result has for the input of a block. Nothing is known where no path leads. -/
def Result.inputAt (r : Result) (id : BlockId) : State :=
  ((r.snapshots.get? id).map Snapshot.input).getD ∅

def Result.outputAt (r : Result) (id : BlockId) : State :=
  ((r.snapshots.get? id).map Snapshot.output).getD ∅

namespace Context

/-- The outcome of visits along one path, which starts with the entry state; nothing is ever
joined. -/
def runPath (c : Context) (descend : Option Runner) (cancelled : Bool)
    (path : List (Block × Edge)) : Except AnalysisError State :=
  (((c.problem descend).follow path c.entryState).run (c.initialMemory cancelled)).1

def runPathThrough (c : Context) (descend : Option Runner) (cancelled : Bool)
    (path : List (Block × Edge)) (last : Block) : Except AnalysisError State :=
  (((c.problem descend).follow path c.entryState >>= c.visitBlock descend last).run
    (c.initialMemory cancelled)).1

def pathKinds (c : Context) (run : List (Block × Edge) → Except AnalysisError State)
    (id : BlockId) (l : Location) : Set (WithBot Kind) :=
  { k | ∃ path s, c.procedure.graph.IsPath c.procedure.graph.entry path id ∧ run path = .ok s ∧
    k = s.kindAt l }

section

variable {c : Context} {descend : Option Runner} {cancelled : Bool}
  (computes : (c.problem descend).transfer.Computes (Quiet cancelled) c.motion)
  (quiet : Quiet cancelled (c.initialMemory cancelled))

include computes quiet

theorem runPath_eq_of_computes (path : List (Block × Edge)) :
    c.runPath descend cancelled path = .ok (c.motion.follow path c.entryState) := by
  obtain ⟨after, ran, -⟩ := Problem.follow_gives computes path c.entryState _ quiet
  unfold runPath
  rw [ran]

theorem runPathThrough_eq_of_computes (path : List (Block × Edge)) (last : Block) :
    c.runPathThrough descend cancelled path last =
      .ok (c.motion.through last (c.motion.follow path c.entryState)) := by
  have followed := (Problem.follow_gives computes path c.entryState).bind (computes.block last _)
  obtain ⟨after, ran, -⟩ := followed _ quiet
  exact congrArg Prod.fst ran

end

section

variable {c : Context} (alone : c.Alone) (descend : Option Runner) (cancelled : Bool)

include alone

theorem runPath_eq (path : List (Block × Edge)) :
    c.runPath descend cancelled path = .ok (c.motion.follow path c.entryState) :=
  runPath_eq_of_computes (problem_computes alone descend cancelled)
    (initialMemory_quiet alone cancelled) path

theorem runPathThrough_eq (path : List (Block × Edge)) (last : Block) :
    c.runPathThrough descend cancelled path last =
      .ok (c.motion.through last (c.motion.follow path c.entryState)) :=
  runPathThrough_eq_of_computes (problem_computes alone descend cancelled)
    (initialMemory_quiet alone cancelled) path last

end

theorem pathKinds_eq {c : Context} {run : List (Block × Edge) → Except AnalysisError State}
    {f : State → State} (runs : ∀ path, run path = .ok (f (c.motion.follow path c.entryState)))
    (descend : Option Runner) (id : BlockId) (l : Location) :
    c.pathKinds run id l = Set.image (Function.eval l)
      (Set.image (fun s => (f s).view Value.kind)
        ((c.problem descend).pathStates c.motion id)) := by
  ext k
  rw [Set.image_image]
  constructor
  · rintro ⟨path, s, isPath, ran, rfl⟩
    rw [runs, Except.ok.injEq] at ran
    exact ⟨_, ⟨path, isPath, rfl⟩, by rw [← ran]; rfl⟩
  · rintro ⟨s, ⟨path, isPath, rfl⟩, rfl⟩
    exact ⟨path, _, isPath, runs path, rfl⟩

/-- In an analysis that ends well, the kind recorded for a location at the input of a block,
and at its output, is the join of the kinds the location has along all paths to the block. -/
theorem analyze_kinds_along_paths {c : Context} (alone : c.Alone) (descend : Option Runner)
    {cancelled after : Bool} {result : Result} (ran : c.analyze cancelled = (.ok result, after))
    (id : BlockId) (l : Location) :
    (∀ path, ∃ s, c.runPath descend cancelled path = .ok s) ∧
    (∀ path last, ∃ s, c.runPathThrough descend cancelled path last = .ok s) ∧
    IsLUB (c.pathKinds (c.runPath descend cancelled) id l) ((result.inputAt id).kindAt l) ∧
    ∀ last, c.procedure.graph.block? id = some last →
      IsLUB (c.pathKinds (fun path => c.runPathThrough descend cancelled path last) id l)
        ((result.outputAt id).kindAt l) := by
  refine ⟨fun path => ⟨_, runPath_eq alone descend cancelled path⟩,
    fun path last => ⟨_, runPathThrough_eq alone descend cancelled path last⟩, ?_⟩
  -- The way to analyze callees that the analysis has, `own`, matters as little as `descend`.
  obtain ⟨own, analyzed⟩ := c.analyze_eq cancelled
  obtain ⟨solution, m, solved, snapshots⟩ := analyzeWith_ok (analyzed ▸ ran)
  obtain ⟨valid, edges, fixed⟩ := Problem.solve_fixed (problem_computes alone own cancelled)
    (initialMemory_quiet alone cancelled) solved
  have distributes := c.problem_distributes own
  rw [pathKinds_eq (f := fun s => s) (runPath_eq alone descend cancelled) own]
  unfold Result.inputAt Result.outputAt
  rw [snapshots]
  cases found : solution.snapshots.get? id with
  | some snapshot =>
      refine ⟨isLUB_pi.mp (fixed.isLUB_input valid distributes found) l, fun last stored => ?_⟩
      rw [pathKinds_eq (runPathThrough_eq alone descend cancelled · last) own]
      exact isLUB_pi.mp (fixed.isLUB_output valid distributes found stored) l
  | none =>
      -- A block without a snapshot is one to which no path leads.
      have nowhere : (c.problem own).pathStates c.motion id = ∅ := by
        apply Problem.pathStates_eq_empty
        intro reached
        obtain ⟨block, stored⟩ := Graph.Valid.reached_block valid reached
        obtain ⟨input, -, recorded⟩ := fixed.snapshot_of_reached valid reached stored
        rw [found] at recorded
        contradiction
      refine ⟨?_, fun last stored => ?_⟩
      · rw [nowhere, Set.image_empty, Set.image_empty]
        exact isLUB_empty
      · rw [pathKinds_eq (runPathThrough_eq alone descend cancelled · last) own, nowhere,
          Set.image_empty, Set.image_empty]
        exact isLUB_empty

def completedInLoop : Context := oneInstance
  [{ id := ⟨0⟩, kind := .objectCreation ⟨0⟩ [], ty := some ⟨0⟩ },
    { id := ⟨1⟩, kind := .localReference ⟨0⟩, ty := some ⟨0⟩ },
    { id := ⟨2⟩, kind := .invocation ⟨1⟩ (some ⟨1⟩) [] }]
  []
  [{ id := ⟨0⟩, kind := .entry, operations := [⟨0⟩], successors := [⟨⟨0⟩, ⟨2⟩, .always⟩] },
    { id := ⟨1⟩, kind := .exit },
    { id := ⟨2⟩, kind := .block,
      successors := [⟨⟨2⟩, ⟨3⟩, .always⟩, ⟨⟨2⟩, ⟨1⟩, .always⟩] },
    { id := ⟨3⟩, kind := .block, operations := [⟨2⟩], successors := [⟨⟨3⟩, ⟨2⟩, .always⟩] }]

theorem completedInLoop_kinds_along_paths :
    completedInLoop.Alone ∧ ∃ result, completedInLoop.analyze false = (.ok result, false) ∧
      IsLUB (completedInLoop.pathKinds (completedInLoop.runPath none false) ⟨1⟩
        ⟨.allocation ⟨⟨0⟩, ⟨0⟩⟩, some ⟨0⟩⟩) (Kind.maybeCompleted : WithBot Kind) := by
  have alone : completedInLoop.Alone := ⟨rfl, rfl⟩
  obtain ⟨result, ran⟩ : ∃ result, completedInLoop.analyze false = (.ok result, false) := ⟨_, rfl⟩
  have recorded : (result.inputAt ⟨1⟩).kindAt ⟨.allocation ⟨⟨0⟩, ⟨0⟩⟩, some ⟨0⟩⟩ =
      Kind.maybeCompleted := by
    cases ran
    rfl
  refine ⟨alone, result, ran, ?_⟩
  rw [← recorded]
  exact (analyze_kinds_along_paths alone none ran ⟨1⟩ _).2.2.1

end Context

end PathCompletion
