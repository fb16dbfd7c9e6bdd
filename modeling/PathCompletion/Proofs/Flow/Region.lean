import PathCompletion.Flow.Draft
import PathCompletion.Proofs.Chain

/-!
Exception regions around a block. The query for a handler climbs from region to parent, and
nothing that a graph is checked for keeps parents from running in a circle. The query finds a
handler exactly if there is one around the block. It never ends exactly if there is none and
the climb comes to a circle, and in every other case it answers that there is none.
-/

namespace PathCompletion.Graph

variable {g : Graph} {n : Nat} {a b : RegionId} {region : Region} {answer : Bool}

def parents (g : Graph) (id : RegionId) : List RegionId :=
  ((g.region? id).bind Region.parent).toList

def regionOf? (g : Graph) (block : BlockId) : Option RegionId :=
  (g.block? block).bind Block.region

/-- The region is the block's own, or the climb from there comes to it. -/
def Around (g : Graph) (block : BlockId) (region : Region) : Prop :=
  ∃ start id, g.regionOf? block = some start ∧ Reaches g.parents start id ∧
    g.region? id = some region

theorem mem_parents_iff :
    b ∈ g.parents a ↔ ∃ region, g.region? a = some region ∧ region.parent = some b := by
  simp [parents, Option.bind_eq_some_iff]

theorem region?_id (found : g.region? a = some region) : region.id = a := by
  simpa using List.find?_some found

theorem mem_ids_of_region? (found : g.region? a = some region) :
    a ∈ g.regions.map Region.id :=
  List.mem_map.mpr ⟨region, List.mem_of_find?_eq_some found, region?_id found⟩

/-! ### The climb -/

theorem climb_none (g : Graph) (n : Nat) : g.climb n none = some false := by
  cases n <;> rfl

/-- What one step of the climb can do: it ends at a region that is not known and at a handler,
and from any other region goes on to the parent. -/
theorem climb_cases (g : Graph) (a : RegionId) :
    (g.region? a = none ∧ ∀ n, g.climb (n + 1) (some a) = some false) ∨
    ∃ region, g.region? a = some region ∧
      (region.kind.isHandler = true ∧ (∀ n, g.climb (n + 1) (some a) = some true) ∨
        region.kind.isHandler = false ∧
          ∀ n, g.climb (n + 1) (some a) = g.climb n region.parent) := by
  cases found : g.region? a with
  | none => exact .inl ⟨rfl, fun n => by simp [climb, found]⟩
  | some region =>
      refine .inr ⟨region, rfl, ?_⟩
      cases handler : region.kind.isHandler with
      | true => exact .inl ⟨rfl, fun n => by simp [climb, found, handler]⟩
      | false => exact .inr ⟨rfl, fun n => by simp [climb, found, handler]⟩

theorem climb_mono {start : Option RegionId} (ended : g.climb n start = some answer) :
    g.climb (n + 1) start = some answer := by
  induction n generalizing start with
  | zero =>
      cases start with
      | none => exact ended
      | some a => cases ended
  | succ n ih =>
      cases start with
      | none => exact ended
      | some a =>
          rcases g.climb_cases a with ⟨-, stops⟩ | ⟨region, -, ⟨-, stops⟩ | ⟨-, goesOn⟩⟩
          · rwa [stops] at ended ⊢
          · rwa [stops] at ended ⊢
          · rw [goesOn] at ended ⊢
            exact ih ended

def AnswersWithin (g : Graph) (answer : Bool) (n : Nat) (a : RegionId) : Prop :=
  (∃ region, g.region? a = some region) ∧ g.climb (n + 1) (some a) = some answer

theorem AnswersWithin.mono (n : Nat) (a : RegionId) (now : g.AnswersWithin answer n a) :
    g.AnswersWithin answer (n + 1) a :=
  ⟨now.1, climb_mono now.2⟩

theorem AnswersWithin.listed (n : Nat) (a : RegionId) (now : g.AnswersWithin answer (n + 1) a) :
    a ∈ g.regions.map Region.id :=
  have ⟨_, found⟩ := now.1
  mem_ids_of_region? found

theorem AnswersWithin.onward (n : Nat) (a : RegionId) (now : g.AnswersWithin answer (n + 2) a)
    (before : ¬ g.AnswersWithin answer (n + 1) a) :
    ∃ b, g.AnswersWithin answer (n + 1) b ∧ ¬ g.AnswersWithin answer n b := by
  obtain ⟨known, now⟩ := now
  have unended : g.climb (n + 2) (some a) ≠ some answer := fun ended => before ⟨known, ended⟩
  rcases g.climb_cases a with ⟨-, stops⟩ | ⟨region, -, ⟨-, stops⟩ | ⟨-, goesOn⟩⟩
  · rw [stops] at now unended
    exact absurd now unended
  · rw [stops] at now unended
    exact absurd now unended
  · rw [goesOn] at now unended
    cases parent : region.parent with
    | none =>
        rw [parent, climb_none] at now unended
        exact absurd now unended
    | some b =>
        rw [parent] at now unended
        refine ⟨b, ⟨?_, now⟩, fun earlier => unended earlier.2⟩
        rcases g.climb_cases b with ⟨-, stops⟩ | ⟨next, found, -⟩
        · rw [stops] at now unended
          exact absurd now unended
        · exact ⟨next, found⟩

/-- A climb that ends takes no more steps than there are regions, and one to find that a region
is not known. -/
theorem climb_within {start : Option RegionId} (ended : g.climb n start = some answer) :
    g.climb (g.regions.length + 1) start = some answer := by
  cases start with
  | none => rwa [climb_none] at ended ⊢
  | some a =>
      rcases g.climb_cases a with ⟨-, stops⟩ | ⟨region, found, -⟩
      · cases n with
        | zero => cases ended
        | succ n => rwa [stops] at ended ⊢
      · have now : g.AnswersWithin answer n a := ⟨⟨region, found⟩, climb_mono ended⟩
        have within := settled_within AnswersWithin.mono AnswersWithin.onward
          AnswersWithin.listed now
        rw [List.length_map] at within
        exact within.2

theorem insideCatch?_eq_some_iff {block : BlockId} :
    g.insideCatch? block = some answer ↔ ∃ n, g.climb n (g.regionOf? block) = some answer :=
  ⟨fun answered => ⟨_, answered⟩, fun ⟨_, ended⟩ => climb_within ended⟩

/-! ### What the climb comes to -/

theorem exists_handler_of_climb (ended : g.climb n (some a) = some true) :
    ∃ id region, Reaches g.parents a id ∧ g.region? id = some region ∧
      region.kind.isHandler = true := by
  induction n generalizing a with
  | zero => cases ended
  | succ n ih =>
      rcases g.climb_cases a with ⟨-, stops⟩ | ⟨region, found, ⟨handler, -⟩ | ⟨-, goesOn⟩⟩
      · rw [stops] at ended
        cases ended
      · exact ⟨a, region, .refl a, found, handler⟩
      · rw [goesOn] at ended
        cases parent : region.parent with
        | none =>
            rw [parent, climb_none] at ended
            cases ended
        | some b =>
            rw [parent] at ended
            obtain ⟨id, other, reaches, foundToo, handler⟩ := ih ended
            exact ⟨id, other, .step (mem_parents_iff.mpr ⟨region, found, parent⟩) reaches,
              foundToo, handler⟩

theorem climb_of_handler (reaches : Reaches g.parents a b) (found : g.region? b = some region)
    (handler : region.kind.isHandler = true) : ∃ n, g.climb n (some a) = some true := by
  induction reaches with
  | refl a => exact ⟨1, by simp [climb, found, handler]⟩
  | @step a c b edge rest ih =>
      obtain ⟨n, ended⟩ := ih found
      obtain ⟨here, foundHere, parent⟩ := mem_parents_iff.mp edge
      rcases g.climb_cases a with ⟨unknown, -⟩ | ⟨other, foundToo, ⟨-, stops⟩ | ⟨-, goesOn⟩⟩
      · rw [unknown] at foundHere
        cases foundHere
      · exact ⟨1, stops 0⟩
      · cases foundHere.symm.trans foundToo
        exact ⟨n + 1, by rw [goesOn, parent, ended]⟩

/-- Where the climb finds no handler, it finds none from any region that it comes to. -/
theorem climb_false_onward (ended : g.climb n (some a) = some false)
    (edge : b ∈ g.parents a) : ∃ m < n, g.climb m (some b) = some false := by
  obtain ⟨region, found, parent⟩ := mem_parents_iff.mp edge
  cases n with
  | zero => cases ended
  | succ n =>
      rcases g.climb_cases a with ⟨unknown, -⟩ | ⟨other, foundToo, ⟨-, stops⟩ | ⟨-, goesOn⟩⟩
      · rw [unknown] at found
        cases found
      · rw [stops] at ended
        cases ended
      · cases found.symm.trans foundToo
        rw [goesOn, parent] at ended
        exact ⟨n, Nat.lt_succ_self n, ended⟩

theorem climb_false_reaches (reaches : Reaches g.parents a b) :
    ∀ {n}, g.climb n (some a) = some false → ∃ m ≤ n, g.climb m (some b) = some false := by
  induction reaches with
  | refl => exact fun {n} ended => ⟨n, le_refl n, ended⟩
  | step edge _ ih =>
      intro n ended
      obtain ⟨m, less, next⟩ := climb_false_onward ended edge
      obtain ⟨k, notMore, last⟩ := ih next
      exact ⟨k, by omega, last⟩

/-- A region on a circle would need fewer steps than itself. -/
theorem not_onCycle_of_climb (ended : g.climb n (some a) = some false) :
    ¬ OnCycle g.parents a := by
  rintro ⟨y, edge, round⟩
  induction n using Nat.strong_induction_on with
  | _ n ih =>
      obtain ⟨m, less, next⟩ := climb_false_onward ended edge
      obtain ⟨k, notMore, again⟩ := climb_false_reaches round next
      exact ih k (by omega) again

/-- A climb that never ends comes to a circle. -/
theorem exists_onCycle_of_climb (endless : ∀ n, g.climb n (some a) = none) :
    ∃ id region, Reaches g.parents a id ∧ g.region? id = some region ∧
      OnCycle g.parents id := by
  -- All regions on the way are regions from which the climb never ends either.
  let among (x : RegionId) : Prop := Reaches g.parents a x ∧ ∀ n, g.climb n (some x) = none
  have known (x : RegionId) (here : among x) : ∃ region, g.region? x = some region ∧
      ∃ y, region.parent = some y ∧ among y := by
    rcases g.climb_cases x with ⟨-, stops⟩ | ⟨region, found, ⟨-, stops⟩ | ⟨-, goesOn⟩⟩
    · cases (stops 0).symm.trans (here.2 1)
    · cases (stops 0).symm.trans (here.2 1)
    · refine ⟨region, found, ?_⟩
      have endlessNext (n : Nat) : g.climb n region.parent = none := by
        rw [← goesOn]
        exact here.2 (n + 1)
      cases parent : region.parent with
      | none =>
          have ended := endlessNext 0
          rw [parent, climb_none] at ended
          cases ended
      | some y =>
          rw [parent] at endlessNext
          exact ⟨y, rfl, here.1.snoc (mem_parents_iff.mpr ⟨region, found, parent⟩), endlessNext⟩
  have listed (x : RegionId) (here : among x) : x ∈ g.regions.map Region.id := by
    obtain ⟨region, found, -⟩ := known x here
    exact mem_ids_of_region? found
  have followed (x : RegionId) (here : among x) : ∃ y ∈ g.parents x, among y := by
    obtain ⟨region, found, y, parent, next⟩ := known x here
    exact ⟨y, mem_parents_iff.mpr ⟨region, found, parent⟩, next⟩
  obtain ⟨z, inside, cycle⟩ := exists_onCycle_of_followed listed followed ⟨.refl a, endless⟩
  obtain ⟨region, found, -⟩ := known z inside
  exact ⟨z, region, inside.1, found, cycle⟩

/-! ### Answers -/

section

variable {block : BlockId}

theorem insideCatch?_eq_true_iff :
    g.insideCatch? block = some true ↔
      ∃ region, g.Around block region ∧ region.kind.isHandler = true := by
  rw [insideCatch?_eq_some_iff]
  constructor
  · rintro ⟨n, ended⟩
    cases start : g.regionOf? block with
    | none =>
        rw [start, climb_none] at ended
        cases ended
    | some a =>
        rw [start] at ended
        obtain ⟨id, region, reaches, found, handler⟩ := exists_handler_of_climb ended
        exact ⟨region, ⟨a, id, start, reaches, found⟩, handler⟩
  · rintro ⟨region, ⟨a, id, start, reaches, found⟩, handler⟩
    rw [start]
    exact climb_of_handler reaches found handler

theorem free_of_insideCatch? (answered : g.insideCatch? block = some false)
    (around : g.Around block region) :
    region.kind.isHandler = false ∧ ¬ OnCycle g.parents region.id := by
  obtain ⟨a, id, start, reaches, found⟩ := around
  obtain ⟨n, ended⟩ := insideCatch?_eq_some_iff.mp answered
  rw [start] at ended
  obtain ⟨m, -, endedToo⟩ := climb_false_reaches reaches ended
  constructor
  · by_contra handler
    have above : ∃ region, g.Around block region ∧ region.kind.isHandler = true :=
      ⟨region, ⟨a, id, start, reaches, found⟩, by simpa using handler⟩
    rw [← insideCatch?_eq_true_iff, answered] at above
    cases above
  · rw [region?_id found]
    exact not_onCycle_of_climb endedToo

theorem circle_of_insideCatch? (unanswered : g.insideCatch? block = none) :
    ∃ region, g.Around block region ∧ OnCycle g.parents region.id := by
  have endless (n : Nat) : g.climb n (g.regionOf? block) = none := by
    cases ended : g.climb n (g.regionOf? block) with
    | none => rfl
    | some answer => cases (insideCatch?_eq_some_iff.mpr ⟨n, ended⟩).symm.trans unanswered
  cases start : g.regionOf? block with
  | none =>
      have ended := endless 0
      rw [start, climb_none] at ended
      cases ended
  | some a =>
      rw [start] at endless
      obtain ⟨id, region, reaches, found, cycle⟩ := exists_onCycle_of_climb endless
      refine ⟨region, ⟨a, id, start, reaches, found⟩, ?_⟩
      rwa [region?_id found]

theorem insideCatch?_eq_false_iff :
    g.insideCatch? block = some false ↔
      ∀ region, g.Around block region →
        region.kind.isHandler = false ∧ ¬ OnCycle g.parents region.id := by
  refine ⟨fun answered region around => free_of_insideCatch? answered around, fun free => ?_⟩
  cases answered : g.insideCatch? block with
  | none =>
      obtain ⟨region, around, cycle⟩ := circle_of_insideCatch? answered
      exact absurd cycle (free region around).2
  | some answer =>
      cases answer with
      | false => rfl
      | true =>
          obtain ⟨region, around, handler⟩ := insideCatch?_eq_true_iff.mp answered
          rw [(free region around).1] at handler
          cases handler

theorem insideCatch?_eq_none_iff :
    g.insideCatch? block = none ↔
      (∀ region, g.Around block region → region.kind.isHandler = false) ∧
        ∃ region, g.Around block region ∧ OnCycle g.parents region.id := by
  constructor
  · intro unanswered
    refine ⟨fun region around => ?_, circle_of_insideCatch? unanswered⟩
    by_contra handler
    have answered := insideCatch?_eq_true_iff.mpr ⟨region, around, by simpa using handler⟩
    cases answered.symm.trans unanswered
  · rintro ⟨unhandled, region, around, cycle⟩
    cases answered : g.insideCatch? block with
    | none => rfl
    | some answer =>
        cases answer with
        | false => exact absurd cycle (free_of_insideCatch? answered around).2
        | true =>
            obtain ⟨other, aroundToo, handler⟩ := insideCatch?_eq_true_iff.mp answered
            rw [unhandled other aroundToo] at handler
            cases handler

end

/-! ### Parents that came first -/

/-- Every region has a number above its parent's, as when a parent is always made first. -/
def ParentsFirst (g : Graph) : Prop :=
  ∀ region ∈ g.regions, ∀ parent ∈ region.parent, parent.index < region.id.index

theorem ParentsFirst.lt (ordered : g.ParentsFirst) (edge : b ∈ g.parents a) :
    b.index < a.index := by
  obtain ⟨region, found, parent⟩ := mem_parents_iff.mp edge
  rw [← region?_id found]
  exact ordered region (List.mem_of_find?_eq_some found) b parent

theorem ParentsFirst.le (ordered : g.ParentsFirst) (reaches : Reaches g.parents a b) :
    b.index ≤ a.index := by
  induction reaches with
  | refl => exact le_refl _
  | step edge _ ih => exact ih.trans (ordered.lt edge).le

theorem ParentsFirst.not_onCycle (ordered : g.ParentsFirst) (a : RegionId) :
    ¬ OnCycle g.parents a := fun ⟨_, edge, round⟩ =>
  absurd (ordered.lt edge) (ordered.le round).not_gt

/-- The query gives the answer at which the climb ends, if it ends at all. The answer is yes
exactly if a handler is around the block, and no exactly if there is no handler and no circle
of parents. Where there is a circle and no handler the climb never ends; parents made before
their regions rule that out. -/
theorem handler_query_ends_but_for_circles (g : Graph) :
    (∀ block,
      (∀ answer, g.insideCatch? block = some answer ↔
        ∃ n, g.climb n (g.regionOf? block) = some answer) ∧
      (g.insideCatch? block = some true ↔
        ∃ region, g.Around block region ∧ region.kind.isHandler = true) ∧
      (g.insideCatch? block = some false ↔
        ∀ region, g.Around block region →
          region.kind.isHandler = false ∧ ¬ OnCycle g.parents region.id) ∧
      (g.insideCatch? block = none ↔
        (∀ region, g.Around block region → region.kind.isHandler = false) ∧
          ∃ region, g.Around block region ∧ OnCycle g.parents region.id)) ∧
    (g.ParentsFirst → ∀ block, ∃ answer, g.insideCatch? block = some answer) := by
  refine ⟨fun block => ⟨fun _ => insideCatch?_eq_some_iff, insideCatch?_eq_true_iff,
    insideCatch?_eq_false_iff, insideCatch?_eq_none_iff⟩, fun ordered block => ?_⟩
  cases answered : g.insideCatch? block with
  | some answer => exact ⟨answer, rfl⟩
  | none =>
      obtain ⟨region, -, cycle⟩ := circle_of_insideCatch? answered
      exact absurd cycle (ordered.not_onCycle region.id)

def tryInHandler : Graph where
  blocks := [{ id := ⟨0⟩, kind := .entry, successors := [⟨⟨0⟩, ⟨1⟩, .always⟩], region := some ⟨1⟩ },
    { id := ⟨1⟩, kind := .exit, predecessors := [⟨0⟩] }]
  regions := [⟨⟨0⟩, .catch, none⟩, ⟨⟨1⟩, .try, some ⟨0⟩⟩]
  entry := ⟨0⟩
  exit := ⟨1⟩

theorem tryInHandler_query_ends :
    tryInHandler.Valid ∧ tryInHandler.ParentsFirst ∧
      (∃ answer, tryInHandler.insideCatch? tryInHandler.exit = some answer) ∧
      tryInHandler.insideCatch? tryInHandler.entry = some true := by
  have ordered : tryInHandler.ParentsFirst := by unfold ParentsFirst; decide
  obtain ⟨queries, ends⟩ := handler_query_ends_but_for_circles tryInHandler
  refine ⟨by decide, ordered, ends ordered _, (queries _).2.1.mpr ?_⟩
  have outward : (⟨0⟩ : RegionId) ∈ tryInHandler.parents ⟨1⟩ := by decide
  exact ⟨⟨⟨0⟩, .catch, none⟩, ⟨⟨1⟩, ⟨0⟩, by decide, .step outward (.refl _), by decide⟩, rfl⟩

/-- A region made with the number that it is about to get as its parent. -/
def enclosedByItself : Draft :=
  ((({ id := ⟨1⟩, name := "Run" } : Draft).addRegion .try (some ⟨0⟩)).setRegion Draft.entry
    ⟨0⟩).addEdge Draft.entry Draft.exit .always

/-- A draft that is built without complaint, and whose entry block is never told whether it is
inside a handler. -/
theorem enclosedByItself_query_never_ends : ∃ p, enclosedByItself.build = .ok p ∧
    p.graph.Valid ∧ (p.graph.block? Draft.entry).isSome ∧
      ∀ n, p.graph.climb n (p.graph.regionOf? Draft.entry) = none := by
  have run : ∃ p ∈ enclosedByItself.build.toOption,
      p.graph.Valid ∧ (p.graph.block? Draft.entry).isSome = true ∧
        p.graph.climb (p.graph.regions.length + 1) (p.graph.regionOf? Draft.entry) = none := by
    decide +kernel
  obtain ⟨p, found, valid, entry, unended⟩ := run
  have built : enclosedByItself.build = .ok p := by
    cases result : enclosedByItself.build <;> simp_all [Except.toOption]
  refine ⟨p, built, valid, entry, fun n => ?_⟩
  cases ended : p.graph.climb n (p.graph.regionOf? Draft.entry) with
  | none => rfl
  | some answer =>
      have within := climb_within ended
      cases within.symm.trans unended

end PathCompletion.Graph
