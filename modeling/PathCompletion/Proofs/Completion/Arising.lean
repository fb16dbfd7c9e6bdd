import PathCompletion.Proofs.Completion.Callee

/-!
All states that runs come to, in a procedure and in the callees that its calls lead to. They
are sound, so wherever values are merged, completed or made to escape, the assertions that
belong to these steps hold.
-/

namespace PathCompletion

namespace Value

/-! ### Steps with their assertions -/

def make? (kind : Kind) (evidence : SortedSet Site) : Option Value :=
  if kind.hasEmptyEvidence = evidence.isEmpty then some ⟨kind, evidence⟩ else none

/-- The merged value, unless the two kinds have none together or the evidence does not belong
to it. -/
def assertedMerge? (a b : Value) : Option Value :=
  if a.kind = .invalid then some b
  else if b.kind = .invalid then some a
  else if a.kind = .nonTarget ∨ b.kind = .nonTarget then some nonTarget
  else if a.kind = .unknown ∨ b.kind = .unknown then some unknown
  else if a.kind = .notCompleted ∧ b.kind = .notCompleted then some notCompleted
  else (a.kind.merge? b.kind).bind fun kind => make? kind (a.evidence ∪ b.evidence)

def assertedJoin? (values : List Value) : Option (Option Value) :=
  values.foldlM
    (fun joined value => match joined with
      | some v => (v.assertedMerge? value).map some
      | none => some (some value)) none

def assertedComplete? (v : Value) (site : Site) : Option Value :=
  if v.kind = .nonTarget then none else make? .completed (v.evidence.insert site)

def assertedEscape? (v : Value) (site : Site) : Option Value :=
  if v.kind = .nonTarget ∨ v.kind = .unknown then none else make? .escaped (.singleton site)

theorem make?_eq {v : Value} (wellFormed : v.WellFormed) : make? v.kind v.evidence = some v :=
  if_pos wellFormed

theorem assertedMerge?_of_wellFormed {a b : Value} (left : a.WellFormed)
    (right : b.WellFormed) : a.assertedMerge? b = some (a.merge b) := by
  have wellFormed := left.merge right
  unfold assertedMerge? merge at *
  -- Five cases are decided as in `merge`; in the last one both assertions stand.
  split
  · rfl
  split
  · rfl
  split
  · rfl
  split
  · rfl
  split
  · rfl
  · next invalidLeft invalidRight targets known fresh =>
    obtain ⟨kind, merged, -⟩ :=
      Kind.hasEmptyEvidence_merge? invalidLeft invalidRight targets known fresh
    simp only [invalidLeft, invalidRight, targets, known, fresh, ↓reduceIte, merged]
      at wellFormed ⊢
    exact make?_eq wellFormed

theorem assertedMerge?_eq {a b : Value} (left : a.Sound) (right : b.Sound) :
    a.assertedMerge? b = some (a.merge b) :=
  assertedMerge?_of_wellFormed left.wellFormed right.wellFormed

theorem assertedJoin?_eq {values : List Value} (sound : ∀ v ∈ values, v.Sound) :
    assertedJoin? values = some (Value.domain.joinOnto none values) := by
  have all (start : Option Value) (first : ∀ v, start = some v → v.Sound) :
      values.foldlM (fun joined value => match joined with
        | some v => (v.assertedMerge? value).map some
        | none => some (some value)) start = some (Value.domain.joinOnto start values) := by
    induction values generalizing start with
    | nil => rfl
    | cons head rest ih =>
        have here := sound head List.mem_cons_self
        have later := ih fun v member => sound v (List.mem_cons_of_mem head member)
        rw [List.foldlM_cons]
        cases start with
        | none => exact later (some head) fun v same => by cases same; exact here
        | some v =>
            have step := assertedMerge?_eq (first v rfl) here
            simp only [step, Option.map_some]
            exact later _ fun w same => by cases same; exact (first v rfl).merge here
  exact all none nofun

theorem assertedComplete?_eq (v : Value) (site : Site) :
    v.assertedComplete? site = v.complete? site := by
  unfold assertedComplete?
  split
  · next refused => simp [complete?, refused]
  · next isTarget =>
    have completed := complete?_eq site isTarget
    rw [completed]
    exact make?_eq (complete?_sound completed).wellFormed

theorem assertedEscape?_eq (v : Value) (site : Site) :
    v.assertedEscape? site = v.escape? site := by
  unfold assertedEscape?
  split
  · next refused => rcases refused with kind | kind <;> simp [escape?, kind]
  · next escapes =>
    have escaped := escape?_eq site (escapes ∘ .inl) (escapes ∘ .inr)
    rw [escaped]
    exact make?_eq (escape?_sound escaped).wellFormed

end Value

namespace Context

def descent : Nat → Option Runner
  | 0 => none
  | levels + 1 => some (analyzeWithin levels)

theorem analyzeWithin_eq (levels : Nat) : analyzeWithin levels = analyzeWith (descent levels) := by
  cases levels <;> rfl

theorem descent_induct {good : Runner → Prop} (all : ∀ levels, good (analyzeWithin levels))
    (levels : Nat) : ∀ run, descent levels = some run → good run := by
  cases levels with
  | zero => exact nofun
  | succ levels =>
      intro run same
      cases same
      exact all levels

theorem descent_sound (levels : Nat) : ∀ run, descent levels = some run → run.Sound :=
  descent_induct analyzeWithin_sound levels

/-- The states that runs come to: in the given context, and in those of the callees that its
calls lead to. Whatever the order of the steps, a state may meet any other of its context. -/
inductive Arises (root : Context) : Context → State → Prop where
  | entry : Arises root root root.entryState
  | meeting {c : Context} {s t : State} (first : Arises root c s) (second : Arises root c t) :
      Arises root c (State.domain.merge s t)
  | operation {c : Context} {s t : State} {levels : Nat} {reachable : Bool} {op : Operation}
      {m after : Memory} (before : Arises root c s)
      (ran : (c.visitOperation (descent levels) reachable s op).run m = (.ok t, after)) :
      Arises root c t
  | release {c : Context} {s : State} (before : Arises root c s) : Arises root c (c.release s)
  | edge {c : Context} {s t : State} {block : Block} {edge : Edge} {m after : Memory}
      (before : Arises root c s) (ran : (c.visitEdge block edge s).run m = (.ok t, after)) :
      Arises root c t
  | call {c : Context} {s : State} (callee : Body) (arguments : List OperationId)
      (before : Arises root c s) :
      Arises root (c.forCallee callee (c.seed callee arguments s))
        (c.forCallee callee (c.seed callee arguments s)).entryState

variable {root c : Context} {s : State}

theorem Arises.sound (seeded : root.Seeded) (arises : Arises root c s) :
    c.Seeded ∧ c.Sound s := by
  induction arises with
  | entry => exact ⟨seeded, entryState_sound seeded⟩
  | meeting _ _ ihFirst ihSecond => exact ⟨ihFirst.1, ihFirst.2.merge ihSecond.2⟩
  | operation _ ran ih =>
      exact ⟨ih.1, (visitOperation_ensures (descent_sound _) ih.2 _ _ _ _ _ ran).1⟩
  | release _ ih => exact ⟨ih.1, (ih.2.acts (release_bounded _).keeping).1⟩
  | edge _ ran ih => exact ⟨ih.1, visitEdge_ensures ih.2 _ _ _ _ _ ran⟩
  | call callee arguments _ ih =>
      have child := forCallee_seeded ih.2 callee arguments
      exact ⟨child, entryState_sound child⟩

theorem Arises.snapshots {levels : Nat} {cancelled after : Bool} {result : Result}
    (start : Arises root c c.entryState)
    (ran : analyzeWithin levels c cancelled = (.ok result, after)) :
    Problem.Snapshots (Arises root c) (fun _ _ => True) result.snapshots := by
  rw [analyzeWithin_eq] at ran
  obtain ⟨solution, m, solved, snapshots⟩ := analyzeWith_ok ran
  rw [snapshots]
  -- To arise is kept by every step of the fixpoint computation, one constructor for each.
  have safe : (c.problem (descent levels)).Safe (Arises root c) fun _ _ => True := by
    refine ⟨start, fun _ _ => .meeting, fun block s arises => ?_, fun block edge s arises => ?_⟩
    · have visited : Step.Ensures ((c.evaluated block).foldlM
          (c.visitOperation (descent levels) block.isReachable) s) (Arises root c) :=
        .foldlM _ (fun t before op _ m u after ran => .operation before ran) arises
      refine visited.bind fun t now => .pure ⟨?_, trivial⟩
      split
      · exact .release now
      · exact now
    · exact fun m t after ran => .edge arises ran
  exact Problem.solve_ensures safe _ _ _ _ solved

/-- Every analysis that ends well, of the given procedure or of a callee, to any depth, records
sound states only, and from the input of a block to its output no location is lost. In all
states that arise, the assertions of merging, completing and escaping hold. -/
theorem runs_keep_states_sound (seeded : root.Seeded) :
    (∀ c levels cancelled result after, Arises root c c.entryState →
      analyzeWithin levels c cancelled = (.ok result, after) →
        ∀ id snapshot, result.snapshots.get? id = some snapshot →
          c.Sound snapshot.input ∧ c.Sound snapshot.output ∧
          (∀ l, snapshot.input.contains l = true → snapshot.output.contains l = true) ∧
          Arises root c snapshot.input ∧ Arises root c snapshot.output) ∧
    (∀ c s, Arises root c s → c.Sound s ∧
      (∀ t, Arises root c t → ∀ l a b, s.get? l = some a → t.get? l = some b →
        a.assertedMerge? b = some (a.merge b)) ∧
      ∀ locations : LocationSet,
        Value.assertedJoin? (locations.toList.filterMap s.get?) = some (s.joinAt? locations)) ∧
    ∀ (v : Value) site, v.assertedComplete? site = v.complete? site ∧
      v.assertedEscape? site = v.escape? site := by
  refine ⟨?_, ?_, fun v site => ⟨v.assertedComplete?_eq site, v.assertedEscape?_eq site⟩⟩
  · intro c levels cancelled result after start ran id snapshot found
    obtain ⟨seededToo, -⟩ := start.sound seeded
    obtain ⟨input, output, grown⟩ :=
      analyzeWithin_sound levels c cancelled result after seededToo ran id snapshot found
    obtain ⟨inputArises, outputArises, -⟩ := start.snapshots ran id snapshot found
    exact ⟨input, output, grown, inputArises, outputArises⟩
  · intro c s arises
    have sound := (arises.sound seeded).2
    refine ⟨sound, ?_, ?_⟩
    · intro t arisesToo l a b foundLeft foundRight
      have soundToo := (arisesToo.sound seeded).2
      exact Value.assertedMerge?_eq (sound l a foundLeft).2 (soundToo l b foundRight).2
    · intro locations
      apply Value.assertedJoin?_eq
      intro v member
      obtain ⟨l, -, found⟩ := List.mem_filterMap.mp member
      exact (sound l v found).2

def completedByCallee : Context :=
  let caller := oneInstance
    [{ id := ⟨0⟩, kind := .objectCreation ⟨0⟩ [], ty := some ⟨0⟩ },
      { id := ⟨1⟩, kind := .localReference ⟨0⟩, ty := some ⟨0⟩ },
      { id := ⟨2⟩, kind := .argument 0 .none ⟨1⟩, ty := some ⟨0⟩ },
      { id := ⟨3⟩, kind := .invocation ⟨2⟩ none [⟨2⟩] }]
    []
    [{ id := ⟨0⟩, kind := .entry, operations := [⟨0⟩, ⟨3⟩],
       successors := [⟨⟨0⟩, ⟨1⟩, .always⟩] },
      { id := ⟨1⟩, kind := .exit }]
  let parameter := PointsTo.single ⟨.parameter ⟨1⟩ 0, some ⟨0⟩⟩ .notNull
  let callee : Body :=
    { procedure :=
        { caller.procedure with
          id := ⟨1⟩, method := some ⟨2⟩, parameters := [⟨"scope", ⟨0⟩, .none⟩]
          operations :=
            [{ id := ⟨0⟩, kind := .parameterReference 0, ty := some ⟨0⟩ },
              { id := ⟨1⟩, kind := .invocation ⟨1⟩ (some ⟨0⟩) [] }]
          graph := { caller.procedure.graph with blocks :=
            [{ id := ⟨0⟩, kind := .entry, operations := [⟨1⟩],
               successors := [⟨⟨0⟩, ⟨1⟩, .always⟩] },
              { id := ⟨1⟩, kind := .exit }] } }
      oracle :=
        { pointsTo := fun _ => parameter, escaped := fun _ => ∅, parameter := fun _ => parameter } }
  { caller with env := { caller.env with
      symbols := { caller.env.symbols with
        method := fun _ => some ⟨"Finish", ⟨1⟩, true, false, none, [⟨0⟩]⟩ }
      provider := { body? := fun _ => some callee }
      config := Preset.thorough.config } }

theorem completedByCallee_keeps_states_sound :
    completedByCallee.Seeded ∧ ∃ result, completedByCallee.analyze false = (.ok result, false) ∧
      result.valueAtExit? ⟨.allocation ⟨⟨0⟩, ⟨0⟩⟩, some ⟨0⟩⟩ =
        some ⟨.completed, .singleton ⟨⟨1⟩, ⟨1⟩⟩⟩ ∧
      ∀ id snapshot, result.snapshots.get? id = some snapshot →
        completedByCallee.Sound snapshot.output := by
  have seeded : completedByCallee.Seeded := nofun
  have ended : (match completedByCallee.analyze false with
      | (.ok result, false) => decide (result.valueAtExit? ⟨.allocation ⟨⟨0⟩, ⟨0⟩⟩, some ⟨0⟩⟩ =
          some ⟨.completed, .singleton ⟨⟨1⟩, ⟨1⟩⟩⟩)
      | _ => false) = true := by decide +kernel
  split at ended
  · next result ran =>
    refine ⟨seeded, result, ran, of_decide_eq_true ended, fun id snapshot found => ?_⟩
    have recorded := (runs_keep_states_sound seeded).1 _ _ false result false .entry ran
    exact (recorded id snapshot found).2.1
  · contradiction

end Context

end PathCompletion
