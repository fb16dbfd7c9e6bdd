import PathCompletion.Proofs.Completion.Composition

/-!
Analyses do not cancel themselves. Only the host does, when it is asked for the body of a
callee; an analysis that is not cancelled at first, by a host that never cancels when asked,
is not cancelled at last, whether it ends well or fails.
-/

namespace PathCompletion

def Provider.Patient (provider : Provider) : Prop :=
  ∀ method, provider.cancelsOn method = false

/-- Analyses by this runner are not cancelled, as far as it is left to the host. -/
def Runner.Patient (run : Runner) : Prop :=
  ∀ c : Context, c.env.provider.Patient → (run c false).2 = false

def Memory.Uncancelled (m : Memory) : Prop := m.cancelled = false

namespace Context

variable {c : Context} {descend : Option Runner}
  (runs : ∀ run, descend = some run → run.Patient) (patient : c.env.provider.Patient)

theorem runCallee_uncancelled {run : Runner} (goes : run.Patient) (child : Context)
    (patient : child.env.provider.Patient) :
    Step.Leaves Memory.Uncancelled (runCallee run child) := by
  unfold runCallee
  refine .get_bind fun m now => .bind (.modify fun n _ => ?_) fun _ => ?_
  · change (run child m.cancelled).2 = false
    rw [show m.cancelled = false from now]
    exact goes child patient
  · split
    · exact .pure _
    · split
      · exact .pure _
      · exact .throw _

theorem cancelled_visitField (c : Context) (reachable : Bool) (op : Operation) (field : FieldId)
    (target : Option OperationId) (s : State) (m : Memory) :
    (c.visitField reachable op field target s m).2.cancelled = m.cancelled := by
  obtain ⟨fields, noted⟩ := c.memory_visitField reachable op field target s m
  rw [noted]

include runs patient

theorem composed_uncancelled :
    c.Composed descend fun _ => Step.Leaves Memory.Uncancelled where
  toComposes := Step.Leaves.composes Memory.Uncancelled
  refuses _ e _ := .throw e
  cancel method := by
    refine .modify fun m now => ?_
    change (m.cancelled || c.env.provider.cancelsOn method) = false
    rw [show m.cancelled = false from now, patient method]
    rfl
  run run same _ _ := runCallee_uncancelled (runs run same) _ patient
  analyzed _ _ := .modify fun _ now => now
  degraded _ := .modify fun _ now => now
  field _ _ _ _ _ m now := (cancelled_visitField ..).trans now

omit patient in
theorem analyzeWith_patient : Runner.Patient (analyzeWith descend) := by
  intro c patient
  have solves : Step.Leaves Memory.Uncancelled
      ((c.problem descend).solve c.env.config.maxIterations) :=
    (composed_uncancelled runs patient).solve (.throw _)
  have solved := solves (c.initialMemory false) rfl
  unfold analyzeWith
  split
  · rfl
  · rcases ran : ((c.problem descend).solve c.env.config.maxIterations).run
        (c.initialMemory false) with ⟨error | solution, m⟩
    · rwa [ran] at solved
    · rwa [ran] at solved

omit runs patient in
/-- An analysis that is not cancelled at first is not cancelled at last, unless the host cancels
it when asked for a body. -/
theorem analyze_uncancelled (patient : c.env.provider.Patient) : (c.analyze false).2 = false :=
  analyzeWithin_induct (fun _ runs => analyzeWith_patient runs) _ c patient

end Context

end PathCompletion
