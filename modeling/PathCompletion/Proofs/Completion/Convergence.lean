import PathCompletion.Proofs.Completion.Evidence
import PathCompletion.Proofs.Completion.Exactness
import PathCompletion.Proofs.Completion.Universe

/-!
When an analysis converges. Passes settle unless they circulate, and then no limit suffices.
What circulates is evidence alone, kinds stand still; and it can only circulate where some
path completes an instance about which nothing is known, which is the one step that forgets
evidence without being told to.
-/

namespace PathCompletion

theorem Kind.unknown_of_sup_withBot {a b : WithBot Kind}
    (met : a ⊔ b = (Kind.unknown : WithBot Kind)) :
    a = (Kind.unknown : WithBot Kind) ∨ b = (Kind.unknown : WithBot Kind) := by
  cases a with
  | bot => exact .inr ((bot_sup_eq b).symm.trans met)
  | coe a =>
      cases b with
      | bot => exact .inl ((sup_bot_eq _).symm.trans met)
      | coe b =>
          rw [← WithBot.coe_sup] at met
          exact (Kind.unknown_of_sup (WithBot.coe_injective met)).imp (congrArg _) (congrArg _)

theorem Problem.Distributes.rises {σ V K : Type} [SemilatticeSup K] {problem : Problem σ V}
    {motion : Motion V} {view : V → K} (distributes : problem.Distributes motion view) :
    problem.Rises motion (fun _ _ => True) view where
  invariant := ⟨trivial, fun _ _ _ _ _ => trivial, fun _ _ _ _ _ _ _ => trivial⟩
  sup _ a b _ _ := distributes.merge a b
  mono := by
    intro id block edge u v _ _ _ _ below
    obtain ⟨f, through⟩ := distributes.through block
    obtain ⟨g, along⟩ := distributes.along block edge
    rw [along, along, through, through]
    exact OrderHomClass.mono g (OrderHomClass.mono f below)

namespace Context

def limited (c : Context) (limit : Nat) : Context :=
  { c with env := { c.env with config := { c.env.config with maxIterations := limit } } }

/-- All limits from some bound on let the analysis end well. -/
def Converges (c : Context) : Prop :=
  ∃ bound, ∀ limit, bound ≤ limit → ∃ result, (c.limited limit).analyze false = (.ok result, false)

def Circulates (c : Context) : Prop := (c.problem none).Circulates c.motion

/-- From some pass on, the kinds on the edges stay as they are. -/
def KindsStand (c : Context) : Prop :=
  ∃ n, ∀ later slot,
    (((c.problem none).after c.motion (n + later)).edges.get? slot).map (State.view Value.kind) =
      (((c.problem none).after c.motion n).edges.get? slot).map (State.view Value.kind)

/-- On some path, a call of the completion method meets an instance about which nothing is
known. -/
def CompletesUnknown (c : Context) : Prop :=
  ∃ path id block before op later target arguments,
    c.procedure.graph.IsPath c.procedure.graph.entry path id ∧
    c.procedure.graph.block? id = some block ∧
    c.evaluated block = before ++ op :: later ∧
    op.kind = .invocation c.env.target.completion target arguments ∧
    ∃ l ∈ c.completed target,
      (before.foldl (c.operate block.isReachable) (c.motion.follow path c.entryState)).kindAt l =
        (Kind.unknown : WithBot Kind)

/-! ### Analyses that settle, and that do not -/

theorem limited_motion (c : Context) (limit : Nat) : (c.limited limit).motion = c.motion := rfl

theorem limited_entryState (c : Context) (limit : Nat) :
    (c.limited limit).entryState = c.entryState := rfl

theorem limited_after (c : Context) (limit : Nat) (descend : Option Runner) :
    ((c.limited limit).problem descend).after (c.limited limit).motion =
      (c.problem none).after c.motion := by
  have graph : ((c.limited limit).problem descend).graph = (c.problem none).graph := rfl
  have domain : ((c.limited limit).problem descend).domain = (c.problem none).domain := rfl
  rw [limited_motion]
  exact Problem.after_congr graph domain (c.limited_entryState limit) c.motion

section

variable {c : Context}

theorem limited_alone (alone : c.Alone) (limit : Nat) : (c.limited limit).Alone :=
  ⟨alone.calls, alone.fields⟩

theorem analyzeWith_of_run {descend : Option Runner} (valid : c.procedure.graph.Valid)
    {outcome : Except AnalysisError (Solution State)} {m : Memory}
    (ran : ((c.problem descend).solve c.env.config.maxIterations).run (c.initialMemory false) =
      (outcome, m)) (quiet : Quiet false m) :
    (∀ e, outcome = .error e → analyzeWith descend c false = (.error e, false)) ∧
      ∀ solution, outcome = .ok solution →
        ∃ result, analyzeWith descend c false = (.ok result, false) := by
  have stored : c.procedure.graph.blocks.isEmpty = false := by
    obtain ⟨block, found⟩ := valid.entry_block
    cases blocks : c.procedure.graph.blocks with
    | nil => simp [Graph.block?, blocks] at found
    | cons first rest => rfl
  unfold analyzeWith
  rw [stored, ran]
  constructor
  · rintro e rfl
    simp only [Bool.false_eq_true, ↓reduceIte, quiet.cancelled]
  · rintro solution rfl
    simp only [Bool.false_eq_true, ↓reduceIte, quiet.cancelled]
    exact ⟨_, rfl⟩

theorem analyze_of_settling (alone : c.Alone) (valid : c.procedure.graph.Valid) {n limit : Nat}
    (within : n < limit) (still : ((c.problem none).after c.motion (n + 1)).changed = false) :
    ∃ result, (c.limited limit).analyze false = (.ok result, false) := by
  obtain ⟨descend, analyzed⟩ := (c.limited limit).analyze_eq false
  rw [← c.limited_after limit descend] at still
  have computes := problem_computes (limited_alone alone limit) descend false
  obtain ⟨solution, m, ran, quiet⟩ := Problem.solve_of_settling computes
    (fun m quiet => quiet.cancelled) valid within still
    (initialMemory_quiet (limited_alone alone limit) false)
  rw [analyzed]
  exact (analyzeWith_of_run (c := c.limited limit) valid ran quiet).2 solution rfl

theorem analyze_of_changing (alone : c.Alone) (valid : c.procedure.graph.Valid) {limit : Nat}
    (changing : ∀ n, ((c.problem none).after c.motion (n + 1)).changed = true) :
    (c.limited limit).analyze false = (.error (.notConverged c.procedure.name limit), false) := by
  obtain ⟨descend, analyzed⟩ := (c.limited limit).analyze_eq false
  rw [← c.limited_after limit descend] at changing
  have computes := problem_computes (limited_alone alone limit) descend false
  obtain ⟨m, ran, quiet⟩ := Problem.solve_of_changing computes
    (fun m quiet => quiet.cancelled) valid (fun k _ => changing k)
    (initialMemory_quiet (limited_alone alone limit) false)
  rw [analyzed]
  exact (analyzeWith_of_run (c := c.limited limit) valid ran quiet).1 _ rfl

theorem changing_of_circulates (circulates : c.Circulates) (n : Nat) :
    ((c.problem none).after c.motion (n + 1)).changed = true := by
  cases changed : ((c.problem none).after c.motion (n + 1)).changed with
  | true => rfl
  | false => exact absurd ⟨n, changed⟩ circulates.not_settles

theorem converges_iff (alone : c.Alone) (valid : c.procedure.graph.Valid) :
    c.Converges ↔ ¬ c.Circulates := by
  constructor
  · rintro ⟨bound, ends⟩ circulates
    obtain ⟨result, ran⟩ := ends bound (le_refl bound)
    rw [analyze_of_changing alone valid (changing_of_circulates circulates)] at ran
    cases ran
  · intro still
    obtain ⟨n, unchanged⟩ := (c.settles_iff_not_circulates none valid).mpr still
    exact ⟨n + 1, fun limit more => analyze_of_settling alone valid more unchanged⟩

/-! ### What circulates -/

theorem kindsStand_of_circulates (valid : c.procedure.graph.Valid) (circulates : c.Circulates) :
    c.KindsStand := by
  have rises := (c.problem_distributes none).rises
  obtain ⟨n, stands⟩ := rises.view_of_circulates valid circulates
  exact ⟨n, stands⟩

def Assembled (c : Context) (id : BlockId) (s : State) : Prop :=
  c.Sound s ∧ s.view Value.kind ∈
    supClosure (Set.image (State.view Value.kind) ((c.problem none).pathStates c.motion id))

theorem assembled_invariant (seeded : c.Seeded) :
    (c.problem none).Invariant c.motion c.Assembled := by
  have joined := (c.problem_distributes none).invariant
  constructor
  · exact ⟨entryState_sound seeded, joined.initial⟩
  · intro id s t left right
    exact ⟨left.1.merge right.1, joined.merge id s t left.2 right.2⟩
  · intro id block edge s found listed now
    have through := (now.1.acts (c.through_bounded block).keeping).1
    exact ⟨(through.acts (c.along_bounded block edge).keeping).1,
      joined.move id block edge s found listed now.2⟩

theorem Assembled.known (steady : ¬ c.CompletesUnknown) {id : BlockId} {s : State}
    (assembled : c.Assembled id s) {block : Block}
    (stored : c.procedure.graph.block? id = some block) {before later : List Operation}
    {op : Operation} {target : Option OperationId} {arguments : List OperationId}
    (split : c.evaluated block = before ++ op :: later)
    (completes : op.kind = .invocation c.env.target.completion target arguments) :
    ∀ l ∈ c.completed target,
      (before.foldl (c.operate block.isReachable) s).kindAt l ≠ (Kind.unknown : WithBot Kind) := by
  intro l member
  obtain ⟨F, onKinds⟩ := (Bounded.foldl before fun op _ =>
    c.operate_bounded block.isReachable op).keeps_sup
  -- Kinds that do not lead to `unknown` here are closed under joins, and those of paths are such.
  have closed : SupClosed { kinds | F kinds l ≠ (Kind.unknown : WithBot Kind) } := by
    intro a left b right met
    rw [map_sup] at met
    exact (Kind.unknown_of_sup_withBot met).elim left right
  have inside := supClosure_min (t := { kinds | F kinds l ≠ (Kind.unknown : WithBot Kind) })
    (by
      rintro _ ⟨v, ⟨path, isPath, rfl⟩, rfl⟩ vague
      rw [← onKinds] at vague
      exact steady ⟨path, id, block, before, op, later, target, arguments, isPath, stored, split,
        completes, l, member, vague⟩) closed assembled.2
  intro vague
  apply inside
  rw [← onKinds]
  exact vague

theorem view_injective {s t : State} (left : c.Sound s) (right : c.Sound t)
    (same : s.view Value.trace = t.view Value.trace) : s = t := by
  apply SortedMap.ext
  intro l
  have here : seen Value.trace (s.get? l) = seen Value.trace (t.get? l) := congrFun same l
  cases foundLeft : s.get? l with
  | none =>
      cases foundRight : t.get? l with
      | none => rfl
      | some w =>
          rw [foundLeft, foundRight] at here
          contradiction
  | some v =>
      cases foundRight : t.get? l with
      | none =>
          rw [foundLeft, foundRight] at here
          contradiction
      | some w =>
          rw [foundLeft, foundRight] at here
          have values := (left l v foundLeft).2.trace_injective (right l w foundRight).2
            (WithBot.coe_injective here)
          rw [values]

theorem rises_of_steady (seeded : c.Seeded) (steady : ¬ c.CompletesUnknown) :
    (c.problem none).Rises c.motion c.Assembled (State.view Value.trace) where
  invariant := assembled_invariant seeded
  sup := by
    intro id s t left right
    exact State.view_merge (fun l a b soundLeft soundRight =>
      Value.trace_merge soundLeft.2 soundRight.2) left.1 right.1
  mono := by
    intro id block edge s t stored listed left right below
    have visited := foldl_operate_mono_trace block.isReachable (c.evaluated block) left.1 right.1
      below fun before op later target arguments split completes =>
        right.known steady stored split completes
    have sound (s : State) (now : c.Sound s) :
        c.Sound ((c.evaluated block).foldl (c.operate block.isReachable) s) :=
      List.foldlRecOn _ _ now fun s now op _ => operate_sound now op
    have finished := (c.finish_bounded block).mono_trace (sound s left.1) (sound t right.1) visited
    have through (s : State) (now : c.Sound s) : c.Sound (c.motion.through block s) :=
      (now.acts (c.through_bounded block).keeping).1
    exact (c.refineEdge_bounded _ block edge).mono_trace (through s left.1) (through t right.1)
      finished

theorem completesUnknown_of_circulates (seeded : c.Seeded) (valid : c.procedure.graph.Valid)
    (circulates : c.Circulates) : c.CompletesUnknown := by
  by_contra steady
  -- Kinds and evidence together tell sound states apart, so what rises in them cannot circulate.
  refine (rises_of_steady seeded steady).not_circulates valid ?_ circulates
  exact fun id s t left right => view_injective left.1 right.1

/-- An analysis converges exactly when its passes do not circulate. Where they do, no limit
lets it end, although all kinds stand still, and on some path an instance about which nothing
is known is completed. -/
theorem analyze_converges_iff (alone : c.Alone) (valid : c.procedure.graph.Valid)
    (seeded : c.Seeded) :
    (c.Converges ↔ ¬ c.Circulates) ∧
    (c.Circulates → c.CompletesUnknown ∧ c.KindsStand ∧
      ∀ limit, (c.limited limit).analyze false =
        (.error (.notConverged c.procedure.name limit), false)) := by
  refine ⟨converges_iff alone valid, fun circulates => ⟨?_, ?_, fun limit => ?_⟩⟩
  · exact completesUnknown_of_circulates seeded valid circulates
  · exact kindsStand_of_circulates valid circulates
  · exact analyze_of_changing alone valid (changing_of_circulates circulates)

end

/-- Block 2 completes the instance again, after block 3 has made it unknown; blocks 4 and 7
each head a loop, and it escapes in blocks 5 and 9. Evidence of the completion at the entry,
which nothing produces any more, passes from one loop to the other and back. -/
def circling : Context := oneInstance
  [{ id := ⟨0⟩, kind := .objectCreation ⟨0⟩ [], ty := some ⟨0⟩ },
    { id := ⟨1⟩, kind := .localReference ⟨0⟩, ty := some ⟨0⟩ },
    { id := ⟨2⟩, kind := .invocation ⟨1⟩ (some ⟨1⟩) [] },
    { id := ⟨3⟩, kind := .localReference ⟨0⟩, ty := some ⟨0⟩ },
    { id := ⟨4⟩, kind := .invocation ⟨1⟩ (some ⟨3⟩) [] },
    { id := ⟨5⟩, kind := .localReference ⟨0⟩, ty := some ⟨0⟩ },
    { id := ⟨6⟩, kind := .argument 0 .ref ⟨5⟩, ty := some ⟨0⟩ },
    { id := ⟨7⟩, kind := .invocation ⟨2⟩ none [⟨6⟩] },
    { id := ⟨8⟩, kind := .fieldReference ⟨0⟩ none, ty := some ⟨0⟩ },
    { id := ⟨9⟩, kind := .localReference ⟨0⟩, ty := some ⟨0⟩ },
    { id := ⟨10⟩, kind := .assignment ⟨8⟩ ⟨9⟩, ty := some ⟨0⟩ },
    { id := ⟨11⟩, kind := .fieldReference ⟨0⟩ none, ty := some ⟨0⟩ },
    { id := ⟨12⟩, kind := .localReference ⟨0⟩, ty := some ⟨0⟩ },
    { id := ⟨13⟩, kind := .assignment ⟨11⟩ ⟨12⟩, ty := some ⟨0⟩ }]
  [⟨10⟩, ⟨13⟩]
  [{ id := ⟨0⟩, kind := .entry, operations := [⟨0⟩, ⟨2⟩], successors := [⟨⟨0⟩, ⟨2⟩, .always⟩] },
    { id := ⟨1⟩, kind := .exit },
    { id := ⟨2⟩, kind := .block, operations := [⟨4⟩],
      successors := [⟨⟨2⟩, ⟨3⟩, .always⟩, ⟨⟨2⟩, ⟨4⟩, .always⟩] },
    { id := ⟨3⟩, kind := .block, operations := [⟨7⟩], successors := [⟨⟨3⟩, ⟨2⟩, .always⟩] },
    { id := ⟨4⟩, kind := .block, successors := [⟨⟨4⟩, ⟨5⟩, .always⟩, ⟨⟨4⟩, ⟨6⟩, .always⟩] },
    { id := ⟨5⟩, kind := .block, operations := [⟨10⟩], successors := [⟨⟨5⟩, ⟨7⟩, .always⟩] },
    { id := ⟨6⟩, kind := .block, successors := [⟨⟨6⟩, ⟨7⟩, .always⟩] },
    { id := ⟨7⟩, kind := .block, successors := [⟨⟨7⟩, ⟨8⟩, .always⟩, ⟨⟨7⟩, ⟨9⟩, .always⟩] },
    { id := ⟨8⟩, kind := .block, successors := [⟨⟨8⟩, ⟨4⟩, .always⟩, ⟨⟨8⟩, ⟨1⟩, .always⟩] },
    { id := ⟨9⟩, kind := .block, operations := [⟨13⟩], successors := [⟨⟨9⟩, ⟨6⟩, .always⟩] }]

theorem circling_circulates : circling.Circulates := by
  refine ⟨3, 5, by decide, ?_, ?_⟩
  · decide +kernel
  · decide +kernel

theorem circling_converges_iff :
    circling.Circulates ∧ circling.CompletesUnknown ∧ circling.KindsStand ∧
      ¬ circling.Converges := by
  have main := analyze_converges_iff (c := circling) ⟨rfl, rfl⟩ rfl nofun
  obtain ⟨completes, stand, -⟩ := main.2 circling_circulates
  exact ⟨circling_circulates, completes, stand, fun converges =>
    main.1.mp converges circling_circulates⟩

/-- Alone, with a graph that is accepted and no seed, and yet no limit is enough. -/
theorem circling_never_converges :
    circling.Alone ∧ circling.procedure.graph.Valid ∧ circling.callers = [] ∧
      circling.initial = none ∧ ∀ limit, (circling.limited limit).analyze false =
        (.error (.notConverged "Run" limit), false) := by
  have alone : circling.Alone := ⟨rfl, rfl⟩
  have valid : circling.procedure.graph.Valid := rfl
  refine ⟨alone, valid, rfl, rfl, fun limit => ?_⟩
  exact analyze_of_changing alone valid (changing_of_circulates circling_circulates)

end Context

end PathCompletion
