import PathCompletion.Proofs.Completion.Branch
import PathCompletion.Proofs.Completion.Exactness
import PathCompletion.Proofs.Completion.History

/-!
Locality of visits. Where a procedure is analyzed by itself, a visit neither asks nor changes what
is remembered, and what it makes of a location depends on the value there and on no other: rules
never look from one location to another, nor from the evidence to the kind.
-/

namespace PathCompletion

/-- What is made of a location depends on the value there alone, and of its kind, on the kind
there alone. -/
structure LocationWise (f : State → State) : Prop where
  values {l : Location} {s t : State} (same : s.get? l = t.get? l) : (f s).get? l = (f t).get? l
  kinds {l : Location} {s t : State} (same : s.kindAt l = t.kindAt l) :
    (f s).kindAt l = (f t).kindAt l

theorem Acts.locationWise {allowed : Location → Effect → Prop} {f : State → State}
    (acts : Acts allowed f) : LocationWise f where
  values {l s t} same := by
    obtain ⟨effects, -, ran⟩ := acts l
    rw [ran, ran, same]
  kinds {l s t} same := by
    obtain ⟨effects, -, ran⟩ := acts l
    obtain ⟨F, onKinds⟩ := Effect.seen_run effects
    have seenAfter (s : State) : (f s).kindAt l = F (s.kindAt l) := by
      rw [State.kindAt, State.view, ran, onKinds]
      rfl
    rw [seenAfter, seenAfter, same]

namespace Context

variable {c : Context} {descend : Option Runner}

theorem Bounded.locationWise {sort : Effect → Prop} {f : State → State}
    (bounded : c.Bounded sort f) : LocationWise f := by
  obtain ⟨cells, sites, -, -, acts⟩ := bounded
  exact acts.locationWise

/-- A visitor of a procedure by itself never remembers anything. -/
theorem Remembers.quiet (alone : c.Alone) {m : Memory} (remembers : c.Remembers descend m) :
    ∃ cancelled, Quiet cancelled m := by
  induction remembers with
  | start cancelled => exact ⟨cancelled, initialMemory_quiet alone cancelled⟩
  | block _ block s ih =>
      obtain ⟨cancelled, quiet⟩ := ih
      obtain ⟨after, ran, still⟩ := (problem_computes alone descend cancelled).block block s _ quiet
      exact ⟨cancelled, (congrArg Prod.snd ran).symm ▸ still⟩
  | edge _ block edge s ih => exact ih

/-- Where calls are not followed and fields are not tracked, visits of a block and of an edge end
well, and their outputs depend on the inputs alone, whatever was visited before. At a location
where two inputs agree, the outputs agree; and where they agree in presence and kind, the outputs
agree in presence and kind. -/
theorem visits_are_location_wise (alone : c.Alone) (block : Block) (edge : Edge) :
    ∃ through along : State → State,
      (∀ descend m, c.Remembers descend m → ∀ s,
        ((c.visitBlock descend block s).run m).1 = .ok (through s) ∧
        ((c.visitEdge block edge s).run m).1 = .ok (along s)) ∧
      LocationWise through ∧ LocationWise along := by
  refine ⟨c.motion.through block, c.motion.along block edge, ?_,
    (c.through_bounded block).locationWise, (c.along_bounded block edge).locationWise⟩
  intro descend m remembers s
  obtain ⟨cancelled, quiet⟩ := remembers.quiet alone
  have computes := problem_computes alone descend cancelled
  obtain ⟨_, through, -⟩ := computes.block block s m quiet
  obtain ⟨_, along, -⟩ := computes.edge block edge s m quiet
  exact ⟨congrArg Prod.fst through, congrArg Prod.fst along⟩

def loopBody : Block :=
  { id := ⟨3⟩, kind := .block, operations := [⟨2⟩], successors := [⟨⟨3⟩, ⟨2⟩, .always⟩] }

def escapedAt (operation : OperationId) (others : List (Location × Value)) : State :=
  .ofList ((created, ⟨.escaped, .singleton ⟨⟨0⟩, operation⟩⟩) :: others)

/-- Wherever the instance has escaped and whatever else there is, it is completed, by a visitor
that has visited nothing as by one that is here for the second time. -/
theorem loopBody_completes_whatever_escaped :
    completedInLoop.Alone ∧
      (escapedAt ⟨5⟩ []).kindAt created =
        (escapedAt ⟨6⟩ [(.null, .notCompleted)]).kindAt created ∧
      ∃ s t, ((completedInLoop.visitBlock none loopBody (escapedAt ⟨5⟩ [])).run
          (completedInLoop.initialMemory false)).1 = .ok s ∧
        ((completedInLoop.visitBlock none loopBody
          (escapedAt ⟨6⟩ [(.null, .notCompleted)])).run
            ((completedInLoop.visitBlock none loopBody ∅).run
              (completedInLoop.initialMemory true)).2).1 = .ok t ∧
        s.kindAt created = Kind.completed ∧ t.kindAt created = Kind.completed ∧
        s.get? created ≠ t.get? created := by
  have alone : completedInLoop.Alone := ⟨rfl, rfl⟩
  have same : (escapedAt ⟨5⟩ []).kindAt created =
      (escapedAt ⟨6⟩ [(.null, .notCompleted)]).kindAt created := rfl
  obtain ⟨through, _, visits, kept, -⟩ :=
    visits_are_location_wise alone loopBody ⟨⟨3⟩, ⟨2⟩, .always⟩
  have first := (visits none _ (.start false) (escapedAt ⟨5⟩ [])).1
  have second := (visits none _ (.block (.start true) loopBody ∅)
    (escapedAt ⟨6⟩ [(.null, .notCompleted)])).1
  -- The evidence of the escape stays, so the two values are of one kind and yet not the same.
  have completed : (through (escapedAt ⟨5⟩ [])).get? created =
      some ⟨.completed, .ofList [⟨⟨0⟩, ⟨5⟩⟩, ⟨⟨0⟩, ⟨2⟩⟩]⟩ := by
    rw [← Except.ok.inj first]
    decide +kernel
  have completedToo : (through (escapedAt ⟨6⟩ [(.null, .notCompleted)])).get? created =
      some ⟨.completed, .ofList [⟨⟨0⟩, ⟨6⟩⟩, ⟨⟨0⟩, ⟨2⟩⟩]⟩ := by
    rw [← Except.ok.inj second]
    decide +kernel
  have kind := State.kindAt_of_get? completed
  refine ⟨alone, same, _, _, first, second, kind, (kept.kinds same).symm.trans kind, ?_⟩
  rw [completed, completedToo]
  decide +kernel

end Context

end PathCompletion
