import PathCompletion.Proofs.Completion.Patience
import PathCompletion.Proofs.Report.Verdict

/-!
The order of a batch. The procedures of a batch compete for locations, and which finding
survives at a location depends on the order; but which locations are reported, and how much
was analyzed, does not. Nor does it matter for whether the batch ends well, unless the host
cancels the session from inside the analysis of one of its procedures.
-/

namespace PathCompletion

/-! ### Reports -/

namespace BatchReport

end BatchReport

namespace Session

variable {s t next last : Session}

/-! ### Batches that end well -/

variable {batch other : List Procedure}

theorem judge_uncancelled (patient : s.provider.Patient) (b : Body) : (s.judge b).2 = false := by
  unfold judge
  split
  · rfl
  · next target _ =>
    split
    · rfl
    · have quiet := Context.analyze_uncancelled (c := s.context target b) patient
      rcases ran : (s.context target b).analyze false with ⟨error | result, cancelled⟩
      · rwa [ran] at quiet
      · rwa [ran] at quiet

theorem analyze_uncancelled (uncancelled : s.cancelled = false) (patient : s.provider.Patient)
    (p : Procedure) : (s.analyze p).2.cancelled = false := by
  unfold analyze
  cases p.localOracle? with
  | error error => exact uncancelled
  | ok oracle =>
      have quiet := judge_uncancelled patient ⟨p, oracle⟩
      dsimp only
      rw [analyzeBody_eq uncancelled]
      rcases judged : s.judge ⟨p, oracle⟩ with ⟨error | verdict, cancelled⟩
      · rwa [judged] at quiet
      · rwa [judged] at quiet

end Session

end PathCompletion
