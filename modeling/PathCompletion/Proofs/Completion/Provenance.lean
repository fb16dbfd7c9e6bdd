import PathCompletion.Proofs.Completion.Exactness
import PathCompletion.Proofs.Completion.Sound

/-!
Where evidence comes from. Evidence is not monotone: an escape drops what was there before it,
and a state that once went round a loop may hold sites that later passes no longer send. Yet
each site recorded for a location has a path behind it, along which the location gets that
site. There is a path for each site and location by itself; no single path need account for
all the evidence of a value.
-/

namespace PathCompletion

variable {site : Site}

/-! ### Values that account for a site -/

namespace Value

/-- The first value has the site if the second has it, and refuses the changes that the second
refuses. -/
structure Backs (site : Site) (w v : Value) : Prop where
  nonTarget : w.kind = .nonTarget ↔ v.kind = .nonTarget
  unknown : w.kind = .unknown ↔ v.kind = .unknown
  evidence : site ∈ v.evidence → site ∈ w.evidence

variable {u w v : Value}

theorem Backs.refl (v : Value) : Backs site v v := ⟨.rfl, .rfl, id⟩

theorem Backs.trans (first : Backs site u w) (second : Backs site w v) : Backs site u v :=
  ⟨first.nonTarget.trans second.nonTarget, first.unknown.trans second.unknown,
    first.evidence ∘ second.evidence⟩

theorem Backs.of_kind (same : w.kind = v.kind) (empty : v.evidence = ∅) : Backs site w v := by
  refine ⟨by rw [same], by rw [same], fun member => ?_⟩
  rw [empty] at member
  exact absurd member (SortedSet.not_mem_empty site)

/-- Where two values meet, one of them accounts for the site. -/
theorem backs_merge (site : Site) (a b : Value) :
    Backs site a (a.merge b) ∨ Backs site b (a.merge b) := by
  unfold Value.merge
  split
  · exact .inr (.refl b)
  split
  · exact .inl (.refl a)
  split
  · next either => exact either.imp (.of_kind · rfl) (.of_kind · rfl)
  split
  · next either => exact either.imp (.of_kind · rfl) (.of_kind · rfl)
  split
  · next both => exact .inl (.of_kind both.1 rfl)
  · next invalidLeft invalidRight targets known fresh =>
    obtain ⟨kind, merged, isTarget, isKnown, -⟩ :=
      Kind.hasEmptyEvidence_merge? invalidLeft invalidRight targets known fresh
    rw [merged]
    -- Neither value refuses a change here, so the one that has the site will do.
    by_cases member : site ∈ a.evidence
    · exact .inl ⟨iff_of_false (targets ∘ .inl) isTarget, iff_of_false (known ∘ .inl) isKnown,
        fun _ => member⟩
    · refine .inr ⟨iff_of_false (targets ∘ .inr) isTarget, iff_of_false (known ∘ .inr) isKnown,
        fun either => ?_⟩
      exact (SortedSet.mem_union.mp either).resolve_left member

theorem Backs.change (effect : Effect) (backs : Backs site w v) :
    Backs site (effect.change w) (effect.change v) := by
  cases effect with
  | set new => exact .refl new
  | replace new => exact .refl new
  -- The kinds agree on what is refused, so an effect is refused on both sides or on neither.
  | complete other =>
      change Backs site ((w.complete? other).getD w) ((v.complete? other).getD v)
      by_cases refused : v.kind = .nonTarget
      · simpa [complete?, refused, backs.nonTarget.mpr refused] using backs
      · rw [complete?_eq other refused, complete?_eq other (refused ∘ backs.nonTarget.mp)]
        refine ⟨.rfl, .rfl, fun member => SortedSet.mem_insert.mpr ?_⟩
        exact (SortedSet.mem_insert.mp member).imp_right backs.evidence
  | escape other =>
      change Backs site ((w.escape? other).getD w) ((v.escape? other).getD v)
      by_cases refused : v.kind = .nonTarget
      · simpa [escape?, refused, backs.nonTarget.mpr refused] using backs
      by_cases vague : v.kind = .unknown
      · simpa [escape?, vague, backs.unknown.mpr vague] using backs
      · rw [escape?_eq other refused vague,
          escape?_eq other (refused ∘ backs.nonTarget.mp) (vague ∘ backs.unknown.mp)]
        exact .refl _
  | invalidate =>
      change Backs site (w.invalidate?.getD w) (v.invalidate?.getD v)
      by_cases refused : v.kind = .nonTarget
      · simpa [invalidate?, refused, backs.nonTarget.mpr refused] using backs
      · rw [invalidate?_eq refused, invalidate?_eq (refused ∘ backs.nonTarget.mp)]
        exact .refl _

end Value

/-! ### States that account for a site -/

def State.Backs (site : Site) (l : Location) (s t : State) : Prop :=
  ∀ v, t.get? l = some v → ∃ w, s.get? l = some w ∧ w.Backs site v

theorem Effect.run_backs (effects : List Effect) {new old : Option Value}
    (backs : ∀ v, old = some v → ∃ w, new = some w ∧ w.Backs site v) :
    ∀ v, run effects old = some v → ∃ w, run effects new = some w ∧ w.Backs site v := by
  induction effects generalizing new old with
  | nil => exact backs
  | cons first rest ih =>
      rw [run_cons, run_cons]
      apply ih
      intro v acted
      rcases act_eq_some acted with rfl | ⟨before, found, rfl⟩
      · exact ⟨v, by cases new <;> rfl, .refl v⟩
      · obtain ⟨w, foundToo, backed⟩ := backs before found
        exact ⟨first.change w, by rw [foundToo, act_some], backed.change first⟩

theorem Acts.backs {allowed : Location → Effect → Prop} {f : State → State}
    (acts : Acts allowed f) {l : Location} {s t : State} (backs : s.Backs site l t) :
    (f s).Backs site l (f t) := by
  obtain ⟨effects, -, ran⟩ := acts l
  unfold State.Backs
  rw [ran s, ran t]
  exact Effect.run_backs effects backs

theorem State.backs_merge (site : Site) (l : Location) (a b : State) :
    a.Backs site l (State.domain.merge a b) ∨ b.Backs site l (State.domain.merge a b) := by
  unfold State.Backs
  rw [State.get?_merge]
  cases foundLeft : a.get? l with
  | none => exact .inr fun v found => ⟨v, found, .refl v⟩
  | some x =>
      cases foundRight : b.get? l with
      | none => exact .inl fun v found => ⟨v, found, .refl v⟩
      | some y =>
          refine (Value.backs_merge site x y).imp ?_ ?_
          all_goals
            rintro backs _ ⟨⟩
            exact ⟨_, rfl, backs⟩

theorem State.Backs.trans {l : Location} {s t u : State} (first : s.Backs site l t)
    (second : t.Backs site l u) : s.Backs site l u := by
  intro v found
  obtain ⟨w, between, backed⟩ := second v found
  obtain ⟨x, last, backs⟩ := first w between
  exact ⟨x, last, backs.trans backed⟩

namespace Context

variable {c : Context}

theorem Bounded.backs {sort : Effect → Prop} {f : State → State} (bounded : c.Bounded sort f)
    {l : Location} {s t : State} (backs : s.Backs site l t) : (f s).Backs site l (f t) := by
  obtain ⟨cells, sites, -, -, acts⟩ := bounded
  exact acts.backs backs

/-- In all passes, every state on an edge is accounted for by the state along some path. -/
theorem backed_invariant (c : Context) (descend : Option Runner) (site : Site) (l : Location) :
    (c.problem descend).Invariant c.motion fun id t =>
      ∃ s ∈ (c.problem descend).pathStates c.motion id, s.Backs site l t where
  initial := ⟨_, Problem.pathStates_initial, fun v found => ⟨v, found, .refl v⟩⟩
  merge := by
    rintro id a b ⟨s, arrives, backs⟩ ⟨t, arrivesToo, backsToo⟩
    rcases State.backs_merge site l a b with left | right
    · exact ⟨s, arrives, backs.trans left⟩
    · exact ⟨t, arrivesToo, backsToo.trans right⟩
  move := by
    rintro id block edge t found listed ⟨s, arrives, backs⟩
    refine ⟨_, Problem.pathStates_move found listed arrives, ?_⟩
    exact (c.along_bounded block edge).backs ((c.through_bounded block).backs backs)

/-- In an analysis that ends well, every site in the evidence recorded for a location at the
input of a block, or at its output, is in the evidence that the location has there along some
path from the entry. -/
theorem analyze_evidence_along_paths (alone : c.Alone) (descend : Option Runner)
    {cancelled after : Bool} {result : Result} (ran : c.analyze cancelled = (.ok result, after))
    (id : BlockId) (l : Location) (v : Value) (site : Site) (recorded : site ∈ v.evidence) :
    ((result.inputAt id).get? l = some v →
      ∃ path s w, c.procedure.graph.IsPath c.procedure.graph.entry path id ∧
        c.runPath descend cancelled path = .ok s ∧
        s.get? l = some w ∧ site ∈ w.evidence) ∧
    ((result.outputAt id).get? l = some v →
      ∃ last path s w, c.procedure.graph.block? id = some last ∧
        c.procedure.graph.IsPath c.procedure.graph.entry path id ∧
        c.runPathThrough descend cancelled path last = .ok s ∧
        s.get? l = some w ∧ site ∈ w.evidence) := by
  obtain ⟨own, analyzed⟩ := c.analyze_eq cancelled
  obtain ⟨solution, m, solved, snapshots⟩ := analyzeWith_ok (analyzed ▸ ran)
  obtain ⟨valid, edges, fixed⟩ := Problem.solve_fixed (problem_computes alone own cancelled)
    (initialMemory_quiet alone cancelled) solved
  unfold Result.inputAt Result.outputAt
  rw [snapshots]
  cases found : solution.snapshots.get? id with
  | none => exact ⟨nofun, nofun⟩
  | some snapshot =>
      obtain ⟨⟨_, ⟨path, isPath, rfl⟩, backs⟩, last, stored, output⟩ :=
        fixed.recorded_of_invariant valid (c.backed_invariant own site l) found
      constructor
      · intro here
        obtain ⟨w, followed, backed⟩ := backs v here
        exact ⟨path, _, w, isPath, runPath_eq alone descend cancelled path, followed,
          backed.evidence recorded⟩
      · intro here
        change snapshot.output.get? l = some v at here
        rw [output] at here
        obtain ⟨w, followed, backed⟩ := (c.through_bounded last).backs backs v here
        exact ⟨last, path, _, w, stored, isPath,
          runPathThrough_eq alone descend cancelled path last, followed,
          backed.evidence recorded⟩

def completedOrEscaped : Context := oneInstance
  [{ id := ⟨0⟩, kind := .objectCreation ⟨0⟩ [], ty := some ⟨0⟩ },
    { id := ⟨1⟩, kind := .localReference ⟨0⟩, ty := some ⟨0⟩ },
    { id := ⟨2⟩, kind := .invocation ⟨1⟩ (some ⟨1⟩) [] },
    { id := ⟨3⟩, kind := .returned (some ⟨1⟩) }]
  [⟨3⟩]
  [{ id := ⟨0⟩, kind := .entry, operations := [⟨0⟩],
      successors := [⟨⟨0⟩, ⟨2⟩, .always⟩, ⟨⟨0⟩, ⟨3⟩, .always⟩] },
    { id := ⟨1⟩, kind := .exit },
    { id := ⟨2⟩, kind := .block, operations := [⟨2⟩], successors := [⟨⟨2⟩, ⟨1⟩, .always⟩] },
    { id := ⟨3⟩, kind := .block, operations := [⟨3⟩], successors := [⟨⟨3⟩, ⟨1⟩, .always⟩] }]

/-- Both sites are recorded at the exit, each with a path of its own behind it. -/
theorem completedOrEscaped_evidence_along_paths :
    completedOrEscaped.Alone ∧
      ∃ result v, completedOrEscaped.analyze false = (.ok result, false) ∧
        (result.inputAt ⟨1⟩).get? ⟨.allocation ⟨⟨0⟩, ⟨0⟩⟩, some ⟨0⟩⟩ = some v ∧
        v.evidence.toList = [⟨⟨0⟩, ⟨2⟩⟩, ⟨⟨0⟩, ⟨3⟩⟩] ∧
        ∀ site ∈ v.evidence, ∃ path s w,
          completedOrEscaped.procedure.graph.IsPath ⟨0⟩ path ⟨1⟩ ∧
          completedOrEscaped.runPath none false path = .ok s ∧
          s.get? ⟨.allocation ⟨⟨0⟩, ⟨0⟩⟩, some ⟨0⟩⟩ = some w ∧ site ∈ w.evidence := by
  have alone : completedOrEscaped.Alone := ⟨rfl, rfl⟩
  obtain ⟨result, ran⟩ : ∃ result, completedOrEscaped.analyze false = (.ok result, false) :=
    ⟨_, rfl⟩
  obtain ⟨v, recorded, sites⟩ : ∃ v : Value,
      (result.inputAt ⟨1⟩).get? ⟨.allocation ⟨⟨0⟩, ⟨0⟩⟩, some ⟨0⟩⟩ = some v ∧
        v.evidence.toList = [⟨⟨0⟩, ⟨2⟩⟩, ⟨⟨0⟩, ⟨3⟩⟩] := by
    cases ran
    exact ⟨_, rfl, rfl⟩
  refine ⟨alone, result, v, ran, recorded, sites, fun site member => ?_⟩
  exact (analyze_evidence_along_paths alone none ran ⟨1⟩ _ v site member).1 recorded

end Context

end PathCompletion
