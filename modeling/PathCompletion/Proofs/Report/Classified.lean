import Mathlib.Data.List.Forall2
import PathCompletion.Proofs.Flow.Region
import PathCompletion.Report.Finding

/-!
The findings of an exit state. Each entry for an allocation of the procedure is rated by its
value: certain to be left uncompleted, uncertain, or of no interest. There is one finding for
each entry that is rated, the certain ones stand first, and each group is sorted by location.
What is certain does not depend on whether the uncertain is asked for, so not to ask for it
takes the uncertain findings out of the list and changes nothing else.
-/

namespace PathCompletion

/-! ### Sorted findings -/

namespace Finding

theorem mem_sort {findings : List Finding} {f : Finding} : f ∈ sort findings ↔ f ∈ findings :=
  (List.mergeSort_perm _ _).mem_iff

theorem sorted_sort (findings : List Finding) :
    (sort findings).Pairwise fun f g => ¬ Key.Before g.location f.location := by
  have sorted : (sort findings).Pairwise fun f g =>
      (!decide (Key.Before g.location f.location)) = true := by
    apply List.pairwise_mergeSort
    · intro f g h first second
      simp only [Bool.not_eq_true', decide_eq_false_iff_not] at first second ⊢
      exact Key.not_before_trans first second
    · intro f g
      simpa using Key.not_before_or f.location g.location
  exact sorted.imp fun ordered => by simpa using ordered

theorem isDefinite_iff {f : Finding} : f.isDefinite = true ↔ f.severity = .definite :=
  decide_eq_true_iff

theorem not_isDefinite_iff {f : Finding} : (!f.isDefinite) = true ↔ f.severity = .maybe := by
  cases h : f.severity <;> simp [isDefinite, h]

/-- Definite findings come before all others, and findings of one severity are in the order of
their locations. -/
def InOrder (f g : Finding) : Prop :=
  (g.severity = .definite → f.severity = .definite) ∧
    (f.severity = g.severity → ¬ Key.Before g.location f.location)

end Finding

theorem AnalysisKind.reportsMaybe_iff {analysisKind : AnalysisKind} :
    analysisKind.reportsMaybe = true ↔ analysisKind = .nonExceptionPaths := by
  cases analysisKind <;> simp [reportsMaybe]

namespace Procedure

variable {p : Procedure} {rule : String} {analysisKind : AnalysisKind} {id : OperationId}
  {v : Value} {severity : Severity}

def entryFindings (p : Procedure) (exit : Option State) (rule : String)
    (analysisKind : AnalysisKind) : List Finding :=
  ((exit.map SortedMap.entries).getD []).filterMap fun (l, v) => p.finding? rule analysisKind l v

theorem findings_eq (p : Procedure) (exit : Option State) (rule : String)
    (analysisKind : AnalysisKind) :
    p.findings exit rule analysisKind =
      Finding.sort ((p.entryFindings exit rule analysisKind).filter Finding.isDefinite) ++
        Finding.sort ((p.entryFindings exit rule analysisKind).filter fun f => !f.isDefinite) :=
  rfl

theorem findings_perm (p : Procedure) (exit : Option State) (rule : String)
    (analysisKind : AnalysisKind) :
    (p.findings exit rule analysisKind).Perm (p.entryFindings exit rule analysisKind) :=
  ((List.mergeSort_perm _ _).append (List.mergeSort_perm _ _)).trans
    (List.filter_append_perm _ _)

theorem findings_inOrder (p : Procedure) (exit : Option State) (rule : String)
    (analysisKind : AnalysisKind) :
    (p.findings exit rule analysisKind).Pairwise Finding.InOrder := by
  have definite {f : Finding} (member : f ∈ Finding.sort
      ((p.entryFindings exit rule analysisKind).filter Finding.isDefinite)) :
      f.severity = .definite :=
    Finding.isDefinite_iff.mp (List.mem_filter.mp (Finding.mem_sort.mp member)).2
  have maybe {f : Finding} (member : f ∈ Finding.sort
      ((p.entryFindings exit rule analysisKind).filter fun f => !f.isDefinite)) :
      f.severity = .maybe :=
    Finding.not_isDefinite_iff.mp (List.mem_filter.mp (Finding.mem_sort.mp member)).2
  rw [findings_eq, List.pairwise_append]
  refine ⟨?_, ?_, ?_⟩
  · refine (Finding.sorted_sort _).imp_of_mem ?_
    exact fun first _ ordered => ⟨fun _ => definite first, fun _ => ordered⟩
  · refine (Finding.sorted_sort _).imp_of_mem ?_
    intro f g _ second ordered
    exact ⟨fun certain => by simp [maybe second] at certain, fun _ => ordered⟩
  · intro f first g second
    exact ⟨fun _ => definite first, fun same => by simp [definite first, maybe second] at same⟩

/-! ### What is certain, and what is not -/

def InHandler (p : Procedure) (id : OperationId) : Prop :=
  ∃ block, p.blockOf? id = some block ∧
    ∃ region, p.graph.Around block region ∧ region.kind.isHandler = true

theorem insideCatch_iff : p.insideCatch id = true ↔ p.InHandler id := by
  unfold insideCatch InHandler
  cases p.blockOf? id with
  | none => simp
  | some block =>
      simp only [Graph.insideCatch, Option.some.injEq, exists_eq_left',
        ← Graph.insideCatch?_eq_true_iff]
      cases p.graph.insideCatch? block <;> simp

/-- There is evidence, all of it in handlers of this procedure, and the creation is in none. -/
structure CaughtOnly (p : Procedure) (creation : OperationId) (v : Value) : Prop where
  evidenced : v.evidence ≠ ∅
  caught : ∀ site ∈ v.evidence, site.procedure = p.id ∧ p.InHandler site.operation
  outside : ¬ p.InHandler creation

theorem onlyInCatch_iff : p.onlyInCatch id v = true ↔ p.CaughtOnly id v := by
  unfold onlyInCatch
  have caught : (v.evidence.toList.all fun site =>
      decide (site.procedure = p.id) && p.insideCatch site.operation) = true ↔
        ∀ site ∈ v.evidence, site.procedure = p.id ∧ p.InHandler site.operation := by
    simp [List.all_eq_true, SortedSet.mem_toList, insideCatch_iff]
  have nonempty : (!v.evidence.isEmpty) = true ↔ v.evidence ≠ ∅ := by
    rw [Ne, ← SortedSet.isEmpty_iff, Bool.not_eq_true', Bool.not_eq_true]
  have outside : (!p.insideCatch id) = true ↔ ¬ p.InHandler id := by
    rw [← insideCatch_iff, Bool.not_eq_true', Bool.not_eq_true]
  rw [Bool.and_eq_true, Bool.and_eq_true, caught, nonempty, outside]
  exact ⟨fun ⟨⟨evidenced, outside⟩, caught⟩ => ⟨evidenced, caught, outside⟩,
    fun ⟨evidenced, caught, outside⟩ => ⟨⟨evidenced, outside⟩, caught⟩⟩

/-- An instance made by the operation is left uncompleted on some path without exceptions. -/
def Missed (p : Procedure) (creation : OperationId) (v : Value) : Prop :=
  v.kind = .notCompleted ∨ p.CaughtOnly creation v

inductive Rates (p : Procedure) (analysisKind : AnalysisKind) (creation : OperationId)
    (v : Value) : Severity → Prop where
  | definite (missed : p.Missed creation v) : Rates p analysisKind creation v .definite
  | maybe (notMissed : ¬ p.Missed creation v)
      (halfway : v.kind = .maybeCompleted ∨ v.kind = .notCompletedOrEscaped)
      (asked : analysisKind = .nonExceptionPaths) : Rates p analysisKind creation v .maybe

/-- The entry is about an allocation that an operation of this procedure has made, whose source
text is known, and this is its finding. -/
inductive Reports (p : Procedure) (rule : String) (analysisKind : AnalysisKind) :
    Location × Value → Finding → Prop where
  | entry {creation : OperationId} {ty : Option TypeId} {op : Operation} {fragment : Fragment}
      {v : Value} {severity : Severity} (made : p.operation? creation = some op)
      (text : op.source = some fragment) (rated : p.Rates analysisKind creation v severity) :
      Reports p rule analysisKind (⟨.allocation ⟨p.id, creation⟩, ty⟩, v)
        { location := ⟨p.file, fragment.span⟩
          snippet := fragment.firstLine
          severity
          rule
          procedure := p.name
          kind := v.kind }

/-- What is no target has no evidence, so no handler can be what completed it. -/
theorem not_missed_of_nonTarget (wellFormed : v.WellFormed) (kind : v.kind = .nonTarget) :
    ¬ p.Missed id v := by
  rintro (uncompleted | caught)
  · rw [kind] at uncompleted
    contradiction
  · apply caught.evidenced
    rw [← SortedSet.isEmpty_iff, ← wellFormed, kind]
    rfl

theorem severity?_eq_some_iff (wellFormed : v.WellFormed) :
    p.severity? analysisKind id v = some severity ↔ p.Rates analysisKind id v severity := by
  have missed : (decide (v.kind = .notCompleted) || p.onlyInCatch id v) = true ↔
      p.Missed id v := by
    rw [Bool.or_eq_true, decide_eq_true_iff, onlyInCatch_iff, Missed]
  have asked : ((decide (v.kind = .maybeCompleted) || decide (v.kind = .notCompletedOrEscaped)) &&
        analysisKind.reportsMaybe) = true ↔
      (v.kind = .maybeCompleted ∨ v.kind = .notCompletedOrEscaped) ∧
        analysisKind = .nonExceptionPaths := by
    rw [Bool.and_eq_true, Bool.or_eq_true, decide_eq_true_iff, decide_eq_true_iff,
      AnalysisKind.reportsMaybe_iff]
  unfold severity?
  constructor
  · intro rated
    split at rated
    · contradiction
    · split at rated
      · next certain =>
        cases rated
        exact .definite (missed.mp certain)
      · next uncertain =>
        split at rated
        · next possible =>
          cases rated
          obtain ⟨halfway, wanted⟩ := asked.mp possible
          exact .maybe (fun certain => uncertain (missed.mpr certain)) halfway wanted
        · contradiction
  · rintro (certain | ⟨uncertain, halfway, wanted⟩)
    · have target : v.kind ≠ .nonTarget := fun kind =>
        not_missed_of_nonTarget wellFormed kind certain
      rw [if_neg target, if_pos (missed.mpr certain)]
    · have target : v.kind ≠ .nonTarget := by rcases halfway with kind | kind <;> simp [kind]
      rw [if_neg target, if_neg fun certain => uncertain (missed.mp certain),
        if_pos (asked.mpr ⟨halfway, wanted⟩)]

theorem creation?_eq_some_iff {l : Location} :
    p.creation? l = some id ↔ ∃ ty, l = ⟨.allocation ⟨p.id, id⟩, ty⟩ := by
  obtain ⟨kind, ty⟩ := l
  cases kind with
  | allocation site =>
      obtain ⟨procedure, operation⟩ := site
      by_cases here : procedure = p.id
      · simp [creation?, Location.creation?, here]
      · simp [creation?, Location.creation?, here]
  | _ => simp [creation?, Location.creation?]

theorem finding?_eq_some_iff (wellFormed : v.WellFormed) {l : Location} {f : Finding} :
    p.finding? rule analysisKind l v = some f ↔ p.Reports rule analysisKind (l, v) f := by
  simp only [finding?, Option.bind_eq_bind, Option.bind_eq_some_iff, Option.pure_def,
    Option.some.injEq]
  constructor
  · rintro ⟨creation, created, severity, rated, op, made, fragment, text, rfl⟩
    obtain ⟨ty, rfl⟩ := creation?_eq_some_iff.mp created
    exact .entry made text ((severity?_eq_some_iff wellFormed).mp rated)
  · rintro ⟨made, text, rated⟩
    exact ⟨_, creation?_eq_some_iff.mpr ⟨_, rfl⟩, _, (severity?_eq_some_iff wellFormed).mpr rated,
      _, made, _, text, rfl⟩

/-! ### One finding for each entry -/

/-- A list of options with a relation that says when each is there: those that are there, and the
elements they come from. -/
theorem forall₂_filterMap {α β : Type} {f : α → Option β} {related : α → β → Prop}
    (items : List α) (each : ∀ a ∈ items, ∀ b, f a = some b ↔ related a b) :
    List.Forall₂ related (items.filter fun a => (f a).isSome) (items.filterMap f) := by
  induction items with
  | nil => exact .nil
  | cons first rest ih =>
      have later := ih fun a member => each a (List.mem_cons_of_mem first member)
      cases found : f first with
      | none => simpa [found] using later
      | some b =>
          have here := (each first List.mem_cons_self b).mp found
          simpa [found] using List.Forall₂.cons here later

theorem severity?_onlyNotCompleted (p : Procedure) (creation : OperationId) (v : Value) :
    p.severity? .onlyNotCompleted creation v =
      (p.severity? .nonExceptionPaths creation v).filter (· = .definite) := by
  simp only [severity?, AnalysisKind.reportsMaybe, Bool.and_false, Bool.and_true,
    Bool.false_eq_true, ↓reduceIte]
  split
  · rfl
  · split
    · rfl
    · split <;> rfl

theorem finding?_onlyNotCompleted (p : Procedure) (rule : String) (l : Location) (v : Value) :
    p.finding? rule .onlyNotCompleted l v =
      (p.finding? rule .nonExceptionPaths l v).filter Finding.isDefinite := by
  unfold finding?
  cases p.creation? l with
  | none => rfl
  | some creation =>
      simp only [Option.bind_eq_bind, Option.bind_some, severity?_onlyNotCompleted]
      cases p.severity? .nonExceptionPaths creation v with
      | none => rfl
      | some severity =>
          cases p.operation? creation with
          | none => cases severity <;> rfl
          | some op =>
              cases text : op.source with
              | none => cases severity <;> simp [text]
              | some fragment =>
                  simp only [Option.bind_some, text]
                  cases severity <;> rfl

/-- The definite findings are the same whatever is asked for. -/
theorem findings_onlyNotCompleted (p : Procedure) (exit : Option State) (rule : String) :
    p.findings exit rule .onlyNotCompleted =
      (p.findings exit rule .nonExceptionPaths).filter Finding.isDefinite := by
  have entries : p.entryFindings exit rule .onlyNotCompleted =
      (p.entryFindings exit rule .nonExceptionPaths).filter Finding.isDefinite := by
    simp only [entryFindings, finding?_onlyNotCompleted, List.filter_filterMap]
  have definite : (Finding.sort ((p.entryFindings exit rule .nonExceptionPaths).filter
      Finding.isDefinite)).filter Finding.isDefinite =
        Finding.sort ((p.entryFindings exit rule .nonExceptionPaths).filter
          Finding.isDefinite) :=
    List.filter_eq_self.mpr fun f member => (List.mem_filter.mp (Finding.mem_sort.mp member)).2
  have maybe : (Finding.sort ((p.entryFindings exit rule .nonExceptionPaths).filter
      fun f => !f.isDefinite)).filter Finding.isDefinite = [] := by
    apply List.filter_eq_nil_iff.mpr
    intro f member
    simpa using (List.mem_filter.mp (Finding.mem_sort.mp member)).2
  rw [findings_eq, findings_eq, List.filter_append, definite, maybe, entries]
  simp [Finding.sort]

/-- One finding for each entry that is rated, the definite ones first, each group by location;
and not to ask for what is uncertain takes out the findings that are not definite. Where no
region is around itself, the rating asks nothing that has no answer. -/
theorem findings_are_the_rated_entries (p : Procedure) (rule : String) {exit : State}
    (acyclic : ∀ region, ¬ OnCycle p.graph.parents region)
    (wellFormed : ∀ l v, exit.get? l = some v → v.WellFormed) :
    (∀ block, ∃ answer, p.graph.insideCatch? block = some answer) ∧
    (∀ analysisKind,
      (∃ entries listed, entries.Sublist exit.entries ∧
        (∀ entry, entry ∈ entries ↔
          entry ∈ exit.entries ∧ ∃ f, p.Reports rule analysisKind entry f) ∧
        List.Forall₂ (p.Reports rule analysisKind) entries listed ∧
        listed.Perm (p.findings (some exit) rule analysisKind)) ∧
      (p.findings (some exit) rule analysisKind).Pairwise Finding.InOrder) ∧
    p.findings (some exit) rule .onlyNotCompleted =
      (p.findings (some exit) rule .nonExceptionPaths).filter Finding.isDefinite := by
  refine ⟨fun block => ?_, fun analysisKind => ⟨?_, p.findings_inOrder _ rule analysisKind⟩,
    p.findings_onlyNotCompleted _ rule⟩
  · cases answered : p.graph.insideCatch? block with
    | some answer => exact ⟨answer, rfl⟩
    | none =>
        obtain ⟨region, -, cycle⟩ := Graph.circle_of_insideCatch? answered
        exact absurd cycle (acyclic region.id)
  · have each (entry : Location × Value) (listed : entry ∈ exit.entries) (f : Finding) :
        p.finding? rule analysisKind entry.1 entry.2 = some f ↔
          p.Reports rule analysisKind entry f :=
      finding?_eq_some_iff (wellFormed _ _ (SortedMap.mem_entries_iff.mp listed))
    refine ⟨_, _, List.filter_sublist, fun entry => ?_, forall₂_filterMap exit.entries each,
      (p.findings_perm (some exit) rule analysisKind).symm⟩
    rw [List.mem_filter, Option.isSome_iff_exists]
    exact and_congr_right fun listed => exists_congr (each entry listed)

/-- Two instances are made in the entry. Of the two completions one is in a handler. -/
def completedInHandler : Procedure where
  id := ⟨7⟩
  method := none
  name := "Run"
  file := "A.cs"
  isConstructor := false
  parameters := []
  operations :=
    [{ id := ⟨0⟩, kind := .objectCreation ⟨1⟩ [], ty := some ⟨0⟩
       source := some ⟨⟨12, 0, 12, 11⟩, "new Scope()"⟩ },
      { id := ⟨1⟩, kind := .objectCreation ⟨1⟩ [], ty := some ⟨0⟩
        source := some ⟨⟨3, 0, 3, 11⟩, "new Scope()"⟩ },
      { id := ⟨2⟩, kind := .invocation ⟨2⟩ none [] },
      { id := ⟨3⟩, kind := .invocation ⟨2⟩ none [] }]
  owners := [some ⟨0⟩, some ⟨0⟩, some ⟨0⟩, some ⟨2⟩]
  graph :=
    { blocks :=
        [{ id := ⟨0⟩, kind := .entry, operations := [⟨0⟩, ⟨1⟩, ⟨2⟩]
           successors := [⟨⟨0⟩, ⟨2⟩, .always⟩] },
          { id := ⟨1⟩, kind := .exit, predecessors := [⟨2⟩] },
          { id := ⟨2⟩, kind := .block, operations := [⟨3⟩], successors := [⟨⟨2⟩, ⟨1⟩, .always⟩]
            predecessors := [⟨0⟩], region := some ⟨0⟩ }]
      regions := [⟨⟨0⟩, .catch, none⟩]
      entry := ⟨0⟩
      exit := ⟨1⟩ }

def handlerExit : State :=
  .ofList
    [(⟨.allocation ⟨⟨7⟩, ⟨0⟩⟩, some ⟨0⟩⟩, ⟨.completed, .singleton ⟨⟨7⟩, ⟨3⟩⟩⟩),
      (⟨.allocation ⟨⟨7⟩, ⟨1⟩⟩, some ⟨0⟩⟩, ⟨.maybeCompleted, .ofList [⟨⟨7⟩, ⟨2⟩⟩, ⟨⟨7⟩, ⟨3⟩⟩]⟩),
      (⟨.parameter ⟨7⟩ 0, some ⟨0⟩⟩, .notCompleted)]

theorem completedInHandler_findings_are_the_rated_entries :
    (∀ region, ¬ OnCycle completedInHandler.graph.parents region) ∧
      (∀ l v, handlerExit.get? l = some v → v.WellFormed) ∧
      (completedInHandler.findings (some handlerExit) "R" .nonExceptionPaths).map
        (fun f => (f.severity, f.kind, f.location.span.startLine)) =
          [(.definite, .completed, 12), (.maybe, .maybeCompleted, 3)] ∧
      (completedInHandler.findings (some handlerExit) "R" .onlyNotCompleted).length = 1 := by
  have acyclic : ∀ region, ¬ OnCycle completedInHandler.graph.parents region := by
    apply Graph.ParentsFirst.not_onCycle
    unfold Graph.ParentsFirst
    decide +kernel
  have wellFormed : ∀ l v, handlerExit.get? l = some v → v.WellFormed := by
    have all : ∀ entry ∈ handlerExit.entries, entry.2.WellFormed := by decide +kernel
    exact fun l v found => all (l, v) (SortedMap.mem_entries_iff.mpr found)
  obtain ⟨-, -, filtered⟩ :=
    findings_are_the_rated_entries completedInHandler "R" acyclic wellFormed
  refine ⟨acyclic, wellFormed, by decide +kernel, ?_⟩
  rw [filtered]
  decide +kernel

end Procedure

end PathCompletion
