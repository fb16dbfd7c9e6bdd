import PathCompletion.Proofs.Completion.Comparison
import PathCompletion.Proofs.Completion.Convergence
import PathCompletion.Proofs.Fixpoint.Monotone

/-!
What counts as a regression. In a procedure by itself the kinds on the edges only ever rise,
from visit to visit, although completion is not monotone in the evidence. And where nothing was
given to the entry, everything that a state holds is there to be completed. So a state that counts
as a regression from the one it replaces has lost evidence somewhere.
-/

namespace PathCompletion

/-! ### Counting -/

def Progress.falls {V : Type} (d : Domain V) (p q : Progress V) (slot : Slot) : Bool :=
  match p.edges.get? slot, q.edges.get? slot with
  | some old, some new => d.compare old new = .gt
  | _, _ => false

namespace Problem

variable {σ V : Type} [DecidableEq V] {problem : Problem σ V} {motion : Motion V}

theorem regressions_foldl_record {d : Domain V} (same : ∀ v, d.compare v v ≠ .gt)
    (source : BlockId) (state : Edge → V) (successors : List Edge) (k : Nat) (p : Progress V) :
    ((successors.zipIdx k).foldl
      (fun p (edge, index) => p.record d ⟨source, index⟩ (state edge)) p).regressions =
      p.regressions + (successors.zipIdx k).countP fun pair =>
        (p.edges.get? ⟨source, pair.2⟩).any fun old => d.compare old (state pair.1) = .gt := by
  induction successors generalizing k p with
  | nil => rfl
  | cons first rest ih =>
      have here : (p.record d ⟨source, k⟩ (state first)).regressions = p.regressions +
          if ((p.edges.get? ⟨source, k⟩).any fun old => d.compare old (state first) = .gt) = true
          then 1 else 0 := by
        unfold Progress.record
        cases found : p.edges.get? ⟨source, k⟩ with
        | none => rfl
        | some old =>
            by_cases unchanged : old = state first
            · simp [unchanged, same]
            · simp [unchanged]
      -- The edges further on still have the states they had.
      have later : ∀ pair ∈ rest.zipIdx (k + 1),
          (p.record d ⟨source, k⟩ (state first)).edges.get? ⟨source, pair.2⟩ =
            p.edges.get? ⟨source, pair.2⟩ := by
        intro pair member
        have further := List.le_snd_of_mem_zipIdx member
        rw [Progress.get?_record, if_neg]
        intro index
        have place : k = pair.2 := congrArg Slot.index index
        omega
      have onward : (rest.zipIdx (k + 1)).countP (fun pair =>
          ((p.record d ⟨source, k⟩ (state first)).edges.get? ⟨source, pair.2⟩).any fun old =>
            d.compare old (state pair.1) = .gt) =
          (rest.zipIdx (k + 1)).countP fun pair =>
            (p.edges.get? ⟨source, pair.2⟩).any fun old => d.compare old (state pair.1) = .gt := by
        apply List.countP_congr
        intro pair member
        rw [later pair member]
      rw [List.zipIdx_cons, List.foldl_cons, ih, onward, here, List.countP_cons]
      dsimp only
      omega

/-- A visit counts, for its block, the edges whose new state is a regression. -/
theorem regressions_advance (same : ∀ v, problem.domain.compare v v ≠ .gt)
    (valid : problem.graph.Valid) (p : Progress V) (id : BlockId) :
    (problem.advance motion p id).regressions = p.regressions +
      (((problem.graph.block? id).map Block.successors).getD []).zipIdx.countP fun pair =>
        p.falls problem.domain (problem.advance motion p id) ⟨id, pair.2⟩ := by
  rcases problem.advance_cases motion p id with ⟨-, kept⟩ | ⟨block, input, found, arrived, -⟩
  · rw [kept]
    have none (slot : Slot) : p.falls problem.domain p slot = false := by
      unfold Progress.falls
      cases p.edges.get? slot with
      | none => rfl
      | some v => simpa using same v
    simp [none]
  · have stored := valid.block_id found
    have sent := regressions_foldl_record same block.id
      (fun edge => motion.along block edge (motion.through block input)) block.successors 0 p
    rw [advance_of_input found arrived, found, Option.map_some, Option.getD_some]
    refine sent.trans ?_
    congr 1
    apply List.countP_congr
    rintro ⟨edge, i⟩ member
    -- Each edge is written once, so the state on it now is the one compared with the old one.
    have onEdge : (problem.send motion block (motion.through block input) p).edges.get? ⟨id, i⟩ =
        some (motion.along block edge (motion.through block input)) :=
      stored ▸ get?_send_of_listed (List.mem_zipIdx_iff_getElem?.mp member) _ p
    unfold Progress.falls
    rw [stored]
    dsimp only
    rw [onEdge]
    cases p.edges.get? ⟨id, i⟩ <;> simp

end Problem

/-! ### Kinds on edges -/

/-- A kind that merging does not raise, and that others may not fall to, needs no completion. -/
theorem Kind.nonTarget_of_rank_lt {a b : Kind} (below : a ⊔ b = b) (falls : b.rank < a.rank) :
    b = .nonTarget := by
  cases a <;> cases b <;> first | rfl | contradiction

namespace State

variable {old new : State}

/-- No location is lost, and every kind stays or rises: merged with the old one, the new one
stays as it is. -/
def KindsRise (old new : State) : Prop :=
  ∀ l v, old.get? l = some v → ∃ w, new.get? l = some w ∧ (v.merge w).kind = w.kind

def LosesEvidence (old new : State) (l : Location) : Prop :=
  ∃ v w, old.get? l = some v ∧ new.get? l = some w ∧ v.kind = w.kind ∧
    ∃ site ∈ v.evidence, site ∉ w.evidence

theorem kindsRise_of_le (below : old.view Value.kind ≤ new.view Value.kind) :
    old.KindsRise new := by
  intro l v found
  have here : seen Value.kind (old.get? l) ≤ seen Value.kind (new.get? l) := below l
  rw [found] at here
  cases later : new.get? l with
  | none =>
      rw [later] at here
      exact absurd here (WithBot.not_coe_le_bot _)
  | some w =>
      rw [later] at here
      refine ⟨w, rfl, ?_⟩
      rw [Value.kind_merge]
      exact sup_eq_right.mpr (WithBot.coe_le_coe.mp here)

/-- Where kinds rise and all locations are there to be completed, a regression is a loss of
evidence. -/
theorem KindsRise.regresses_iff (rises : old.KindsRise new)
    (targets : new.Each fun _ v => v.kind ≠ .nonTarget) :
    State.domain.compare old new = .gt ↔ ∃ l, old.LosesEvidence new l := by
  refine Domain.compareMaps_eq_gt_iff.trans ⟨?_, ?_⟩
  · rintro ⟨l, v, found, lost⟩
    obtain ⟨w, later, above⟩ := rises l v found
    rw [Value.kind_merge] at above
    rw [later] at lost
    obtain ⟨_, here, verdict⟩ := lost.resolve_left nofun
    cases here
    rcases Value.compare_eq_gt_iff.mp verdict with ⟨same, gone⟩ | ⟨falls, -⟩
    · exact ⟨l, v, w, found, later, same, gone⟩
    · exact absurd (Kind.nonTarget_of_rank_lt above falls) (targets l w later)
  · rintro ⟨l, v, w, found, later, same, gone⟩
    exact ⟨l, v, found, .inr ⟨w, later, Value.compare_eq_gt_iff.mpr (.inl ⟨same, gone⟩)⟩⟩

end State

/-! ### Locations to be completed -/

namespace Context

variable {c : Context}

def Outstanding (_ : Location) (v : Value) : Prop := v.kind ≠ .nonTarget

theorem Outstanding.merge {l : Location} {a b : Value} (left : Outstanding l a)
    (right : Outstanding l b) : Outstanding l (a.merge b) := by
  intro harmless
  rw [Value.kind_merge] at harmless
  exact (Kind.nonTarget_of_sup harmless).elim left right

/-- No effect takes away what there is to complete. -/
theorem Outstanding.act {cells : Set Location} {sites : Set Site} {l : Location} {effect : Effect}
    (allowed : c.Allows cells sites l effect) {old : Option Value}
    (now : ∀ v, old = some v → Outstanding l v) {w : Value} (acted : effect.act old = some w) :
    Outstanding l w := by
  rcases Effect.act_eq_some acted with rfl | ⟨v, here, rfl⟩
  · rcases allowed.2.2 with rfl | rfl <;> nofun
  · have target : v.kind ≠ .nonTarget := now v here
    cases effect with
    | set u => rcases allowed.2.2 with rfl | rfl <;> nofun
    | replace u =>
        cases allowed
        nofun
    | complete site => simp [Outstanding, Effect.change, Value.complete?_eq site target]
    | escape site =>
        by_cases known : v.kind = .unknown
        · simp [Outstanding, Effect.change, Value.escape?, known]
        · simp [Outstanding, Effect.change, Value.escape?_eq site target known]
    | invalidate =>
        simp [Outstanding, Effect.change, Value.invalidate?_eq target, Value.invalid]

theorem outstanding_invariant (fresh : c.initial = none) (descend : Option Runner) :
    (c.problem descend).Invariant c.motion fun _ s => s.Each Outstanding := by
  have kept {f : State → State} (bounded : c.Bounded (fun _ => True) f) {s : State}
      (now : s.Each Outstanding) : (f s).Each Outstanding := by
    obtain ⟨cells, sites, -, -, acts⟩ := bounded
    exact acts.each (fun l effect allowed old now w => Outstanding.act allowed.1 now) now
  refine ⟨?_, fun id a b left right => left.merge (fun _ _ _ => Outstanding.merge) right, ?_⟩
  · refine entryState_each (fun s given => ?_) fun l _ => nofun
    rw [fresh] at given
    contradiction
  · intro id block edge s _ _ now
    exact kept (c.along_bounded block edge) (kept (c.through_bounded block) now)

theorem outstanding_rises (fresh : c.initial = none) (descend : Option Runner) :
    (c.problem descend).Rises c.motion (fun _ s => s.Each Outstanding)
      (State.view Value.kind) := by
  have rises := (c.problem_distributes descend).rises
  refine ⟨outstanding_invariant fresh descend, fun id s t _ _ => rises.sup id s t trivial trivial,
    ?_⟩
  intro id block edge s t stored listed _ _ below
  exact rises.mono id block edge s t stored listed trivial trivial below

/-- At every visit of a run of a procedure by itself, with nothing given to the entry, the states
on the edges lose no location and no kind falls. The visit counts as regressions just the edges on
which some location keeps its kind and loses evidence. -/
theorem kinds_never_regress (alone : c.Alone) (fresh : c.initial = none)
    (valid : c.procedure.graph.Valid) (descend : Option Runner) (cancelled : Bool)
    {m after : Memory} {p q : Progress State} {id : BlockId} {rest : List BlockId}
    (comes : (c.problem descend).Comes (c.initialMemory cancelled) m p (id :: rest))
    (visited : ((c.problem descend).visit c.procedure.graph.plan p id).run m = (.ok q, after)) :
    (∀ slot old, p.edges.get? slot = some old → ∃ new, q.edges.get? slot = some new ∧
      old.KindsRise new ∧
      (State.domain.compare old new = .gt ↔ ∃ l, old.LosesEvidence new l)) ∧
    q.regressions = p.regressions +
      (((c.procedure.graph.block? id).map Block.successors).getD []).zipIdx.countP fun pair =>
        p.falls State.domain q ⟨id, pair.2⟩ := by
  have computes := problem_computes alone descend cancelled
  have quiet := initialMemory_quiet alone cancelled
  have rises := outstanding_rises fresh descend
  obtain ⟨now, listed, good, -⟩ := comes.bounded computes valid rises quiet
  have lifts := comes.lifts computes valid rises quiet visited
  obtain ⟨rfl, -⟩ := Problem.visit_ok computes now visited
  have goodNext := Problem.advance_edgesHold valid rises.invariant good
    (listed id List.mem_cons_self)
  constructor
  · intro slot old found
    obtain ⟨new, later, below⟩ := lifts slot old found
    have kinds := State.kindsRise_of_le below
    obtain ⟨-, block, edge, -, -, targets⟩ := goodNext slot new later
    exact ⟨new, later, kinds, kinds.regresses_iff targets⟩
  · have same (s : State) : State.domain.compare s s ≠ .gt := by
      have equal : State.domain.compare s s = .eq := (Value.domain_comparesOn.map.tells s s).mpr rfl
      rw [equal]
      nofun
    exact Problem.regressions_advance same valid p id

/-! ### Second passes -/

theorem visit_quiet (alone : c.Alone) (p : Progress State) (id : BlockId) {m : Memory}
    (now : Quiet false m) :
    ∃ after, ((c.problem none).visit c.procedure.graph.plan p id).run m =
      (.ok ((c.problem none).advance c.motion p id), after) ∧ Quiet false after := by
  rcases Problem.visit_run (problem_computes alone none false) p id now with ⟨cancelled, -⟩ | done
  · rw [show (c.problem none).transfer.isCancelled m = false from now.cancelled] at cancelled
    contradiction
  · exact done

/-- The visits of a pass come one after the other, where nothing is cancelled. -/
theorem comes_visits (alone : c.Alone) (ids : List BlockId) {rest : List BlockId} {m : Memory}
    {p : Progress State} (now : Quiet false m)
    (comes : (c.problem none).Comes (c.initialMemory false) m p (ids ++ rest)) :
    ∃ after, Quiet false after ∧ (c.problem none).Comes (c.initialMemory false) after
      (ids.foldl ((c.problem none).advance c.motion) p) rest := by
  induction ids generalizing m p with
  | nil => exact ⟨m, now, comes⟩
  | cons first later ih =>
      obtain ⟨between, ran, kept⟩ := visit_quiet alone p first now
      exact ih kept (comes.visit ran)

/-- A first pass that changes something is followed by a second, which comes to every block. -/
theorem comes_second_pass (alone : c.Alone)
    (changed : ((c.problem none).after c.motion 1).changed = true) (before : List BlockId)
    (id : BlockId) (rest : List BlockId)
    (order : c.procedure.graph.plan.order = before ++ id :: rest) :
    let p := before.foldl ((c.problem none).advance c.motion)
      { (c.problem none).after c.motion 1 with changed := false }
    ∃ m after, (c.problem none).Comes (c.initialMemory false) m p (id :: rest) ∧
      ((c.problem none).visit c.procedure.graph.plan p id).run m =
        (.ok ((c.problem none).advance c.motion p id), after) := by
  obtain ⟨between, quiet, first⟩ := comes_visits alone c.procedure.graph.plan.order
    (initialMemory_quiet alone false) (by rw [List.append_nil]; exact .start)
  have second : (c.problem none).Comes (c.initialMemory false) between
      { (c.problem none).after c.motion 1 with changed := false } (before ++ id :: rest) := by
    rw [← order]
    exact first.again changed
  obtain ⟨m, now, comes⟩ := comes_visits alone before quiet second
  obtain ⟨after, ran, -⟩ := visit_quiet alone _ id now
  exact ⟨m, after, comes, ran⟩

/-- The instance is completed before a loop that completes it again, and becomes unknown within
it. -/
def forgetful : Context := oneInstance
  [{ id := ⟨0⟩, kind := .objectCreation ⟨0⟩ [], ty := some ⟨0⟩ },
    { id := ⟨1⟩, kind := .localReference ⟨0⟩, ty := some ⟨0⟩ },
    { id := ⟨2⟩, kind := .invocation ⟨1⟩ (some ⟨1⟩) [] },
    { id := ⟨3⟩, kind := .localReference ⟨0⟩, ty := some ⟨0⟩ },
    { id := ⟨4⟩, kind := .invocation ⟨1⟩ (some ⟨3⟩) [] },
    { id := ⟨5⟩, kind := .localReference ⟨0⟩, ty := some ⟨0⟩ },
    { id := ⟨6⟩, kind := .argument 0 .ref ⟨5⟩, ty := some ⟨0⟩ },
    { id := ⟨7⟩, kind := .invocation ⟨2⟩ none [⟨6⟩] }]
  []
  [{ id := ⟨0⟩, kind := .entry, operations := [⟨0⟩, ⟨2⟩], successors := [⟨⟨0⟩, ⟨2⟩, .always⟩] },
    { id := ⟨1⟩, kind := .exit },
    { id := ⟨2⟩, kind := .block, operations := [⟨4⟩],
      successors := [⟨⟨2⟩, ⟨3⟩, .always⟩, ⟨⟨2⟩, ⟨1⟩, .always⟩] },
    { id := ⟨3⟩, kind := .block, operations := [⟨7⟩], successors := [⟨⟨3⟩, ⟨2⟩, .always⟩] }]

/-- In the second pass both edges of the loop's head lose the evidence of the first completion. -/
theorem forgetful_kinds_never_regress :
    forgetful.Alone ∧ forgetful.initial = none ∧ ∃ m p after q,
      (forgetful.problem none).Comes (forgetful.initialMemory false) m p [⟨2⟩, ⟨1⟩, ⟨3⟩] ∧
      ((forgetful.problem none).visit forgetful.procedure.graph.plan p ⟨2⟩).run m =
        (.ok q, after) ∧
      q.regressions = 2 ∧
      ∃ old new, p.edges.get? ⟨⟨2⟩, 0⟩ = some old ∧ q.edges.get? ⟨⟨2⟩, 0⟩ = some new ∧
        old.KindsRise new ∧ ∃ l, old.LosesEvidence new l := by
  have alone : forgetful.Alone := ⟨rfl, rfl⟩
  obtain ⟨m, after, comes, ran⟩ := comes_second_pass alone (by decide +kernel) [⟨0⟩] ⟨2⟩
    [⟨1⟩, ⟨3⟩] (by decide +kernel)
  have main := kinds_never_regress alone rfl rfl none false comes ran
  refine ⟨alone, rfl, m, _, after, _, comes, ran, ?_, ?_⟩
  · rw [main.2]
    decide +kernel
  · obtain ⟨new, later, rises, regresses⟩ := main.1 ⟨⟨2⟩, 0⟩
      (.ofList [(⟨.allocation ⟨⟨0⟩, ⟨0⟩⟩, some ⟨0⟩⟩,
        ⟨.completed, .ofList [⟨⟨0⟩, ⟨2⟩⟩, ⟨⟨0⟩, ⟨4⟩⟩]⟩)]) (by decide +kernel)
    have replaced : some new = some (.ofList [(⟨.allocation ⟨⟨0⟩, ⟨0⟩⟩, some ⟨0⟩⟩,
        ⟨.completed, .singleton ⟨⟨0⟩, ⟨4⟩⟩⟩)]) := later.symm.trans (by decide +kernel)
    cases replaced
    exact ⟨_, _, by decide +kernel, later, rises, regresses.mp (by decide +kernel)⟩

end Context

end PathCompletion
