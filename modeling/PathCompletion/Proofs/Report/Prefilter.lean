import PathCompletion.Proofs.Completion.Keys
import PathCompletion.Proofs.PointsTo.Local
import PathCompletion.Report.Finding

/-!
Procedures that need no analysis. A finding is about an allocation of the procedure that is
there at its exit; the allocations of a procedure have the types of the operations that make
them; and where no such type is one of targets, no allocation gets a value.
-/

namespace PathCompletion

namespace Procedure

variable {p : Procedure} {symbols : Resolver} {target : TypeId}

theorem not_isTarget_of_not_mayCreateTarget (filtered : p.mayCreateTarget symbols target = false)
    {op : Operation} (member : op ∈ p.operations) (allocates : op.kind.allocates = true)
    {ty : TypeId} (typed : op.ty = some ty) : symbols.isTarget ty target = false := by
  have each := (Bool.or_eq_false_iff.mp filtered).2
  rw [List.any_eq_false] at each
  specialize each op member
  cases kind : op.kind with
  | argument index passing value => cases passing <;> simp_all [OperationKind.allocates]
  | _ => simp_all [OperationKind.allocates]

theorem findings_eq_nil {exit : Option State}
    (foreign : ∀ s, exit = some s → s.Each fun l _ => p.creation? l = none) (rule : String)
    (analysisKind : AnalysisKind) : p.findings exit rule analysisKind = [] := by
  have none : ∀ entry ∈ (exit.map SortedMap.entries).getD [],
      p.finding? rule analysisKind entry.1 entry.2 = none := by
    cases exit with
    | none => simp
    | some s =>
        rintro ⟨l, v⟩ entry
        have absent := foreign s rfl l v (SortedMap.mem_entries_iff.mp entry)
        simp [finding?, absent]
  unfold findings
  rw [List.filterMap_eq_nil_iff.mpr none]
  simp [Finding.sort]

end Procedure

namespace Context

variable {c : Context}

theorem creation?_eq_none
    (filtered : c.procedure.mayCreateTarget c.env.symbols c.env.target.type = false)
    {l : Location} (trackable : c.isTrackable l = true) (made : c.procedure.Makes l) :
    c.procedure.creation? l = none := by
  cases made with
  | @allocation id op found allocates =>
      have isTarget : c.isTarget op.ty = true := (Bool.and_eq_true_iff.mp trackable).2
      cases typed : op.ty with
      | none => simp [typed, Context.isTarget] at isTarget
      | some ty =>
          have never := Procedure.not_isTarget_of_not_mayCreateTarget filtered
            (List.mem_of_getElem? found) allocates typed
          simp [typed, Context.isTarget, never] at isTarget
  | parameter index ty => rfl
  | fieldDefault field ty => rfl

theorem exitState?_without_creation
    (filtered : c.procedure.mayCreateTarget c.env.symbols c.env.target.type = false)
    (aliases : c.oracle = c.procedure.localOracle) (unseeded : c.initial = none)
    {cancelled after : Bool} {result : Result} (ran : c.analyze cancelled = (.ok result, after))
    {exit : State} (exits : result.exitState? = some exit) :
    exit.Each fun l _ => c.procedure.creation? l = none := by
  intro l v found
  obtain ⟨snapshot, here, rfl⟩ := Option.map_eq_some_iff.mp exits
  have seeded : c.Seeded := by simp [Seeded, unseeded]
  have sound := (analyzeWithin_sound _ c cancelled result after seeded ran _ snapshot here).2.1
  have made : snapshot.output.Each fun l _ => c.procedure.Makes l := by
    obtain ⟨descend, analyzed⟩ := c.analyze_eq cancelled
    rw [analyzed] at ran
    have mentions (l : Location) (mentioned : c.oracle.Mentions l) : c.procedure.Makes l :=
      Procedure.makes_of_mentions (aliases ▸ mentioned)
    exact (analyzeWith_keys mentions (by simp [unseeded]) ran _ snapshot here).2.1
  exact creation?_eq_none filtered (sound l v found).1 (made l v found)

/-- An analysis of a procedure in which the test for creations sees none has no findings,
whatever the symbols, the target, the options, the settings and the bodies of callees. -/
theorem analyze_without_creation_finds_nothing (env : Environment) (p : Procedure)
    (filtered : p.mayCreateTarget env.symbols env.target.type = false) {cancelled after : Bool}
    {result : Result}
    (ran : ({ env, body := ⟨p, p.localOracle⟩ } : Context).analyze cancelled = (.ok result, after))
    (rule : String) (analysisKind : AnalysisKind) :
    p.findings result.exitState? rule analysisKind = [] := by
  apply Procedure.findings_eq_nil
  intro exit exits
  exact exitState?_without_creation (c := { env, body := ⟨p, p.localOracle⟩ }) filtered rfl rfl
    ran exits

/-- The only creation is of a type that needs no completion. The instance that is passed by
reference is there at the exit, but it is not the procedure's own. -/
def borrowing : Context :=
  let c := oneInstance
    [{ id := ⟨0⟩, kind := .objectCreation ⟨0⟩ [], ty := some ⟨1⟩ },
      { id := ⟨1⟩, kind := .parameterReference 0, ty := some ⟨0⟩ }]
    []
    [{ id := ⟨0⟩, kind := .entry, operations := [⟨0⟩, ⟨1⟩],
       successors := [⟨⟨0⟩, ⟨1⟩, .always⟩] },
      { id := ⟨1⟩, kind := .exit }]
  let p := { c.procedure with parameters := [⟨"scope", ⟨0⟩, .ref⟩] }
  { env := c.env, body := ⟨p, p.localOracle⟩ }

theorem borrowing_finds_nothing :
    borrowing.procedure.mayCreateTarget borrowing.env.symbols borrowing.env.target.type = false ∧
      ∃ result, borrowing.analyze false = (.ok result, false) ∧
        result.valueAtExit? ⟨.parameter ⟨0⟩ 0, some ⟨0⟩⟩ = some .unknown ∧
        borrowing.procedure.findings result.exitState? "" .nonExceptionPaths = [] := by
  have filtered : borrowing.procedure.mayCreateTarget borrowing.env.symbols
      borrowing.env.target.type = false := by decide
  have ended : (match borrowing.analyze false with
      | (.ok result, false) =>
          decide (result.valueAtExit? ⟨.parameter ⟨0⟩ 0, some ⟨0⟩⟩ = some .unknown)
      | _ => false) = true := by decide +kernel
  split at ended
  · next result ran =>
    refine ⟨filtered, result, ran, of_decide_eq_true ended, ?_⟩
    exact analyze_without_creation_finds_nothing borrowing.env borrowing.procedure filtered ran _ _
  · contradiction

end Context

end PathCompletion
