import Mathlib.Data.List.Nodup
import PathCompletion.Proofs.Completion.Semilattice

/-!
Comparing agrees with merging. A value is equal to itself alone, and what it is merged into
never counts as a regression from it, as long as it is of something that must be completed.
Both facts pass from values to maps.
-/

namespace PathCompletion

namespace SortedMap

variable {κ V : Type} [Key κ]

theorem mem_keys_iff {m : SortedMap κ V} {k : κ} :
    k ∈ m.entries.map Prod.fst ↔ ∃ v, m.get? k = some v := by
  simp only [← mem_entries_iff, List.mem_map, Prod.exists, exists_and_right, exists_eq_right]

theorem nodup_keys (m : SortedMap κ V) : (m.entries.map Prod.fst).Nodup := by
  rw [List.nodup_iff_pairwise_ne, List.pairwise_map]
  exact m.sorted.imp Key.Before.ne

/-- A map that has as many keys as another, and all of the other's keys, has no more. -/
theorem get?_of_size_eq {s t : SortedMap κ V} (size : s.size = t.size)
    (keys : ∀ k v, s.get? k = some v → ∃ w, t.get? k = some w) {k : κ} {w : V}
    (found : t.get? k = some w) : ∃ v, s.get? k = some v := by
  have inside : s.entries.map Prod.fst ⊆ t.entries.map Prod.fst := by
    intro k listed
    obtain ⟨v, here⟩ := mem_keys_iff.mp listed
    exact mem_keys_iff.mpr (keys k v here)
  have same : (s.entries.map Prod.fst).Perm (t.entries.map Prod.fst) := by
    apply (s.nodup_keys.subperm inside).perm_of_length_le
    rw [List.length_map, List.length_map]
    exact Nat.le_of_eq size.symm
  exact mem_keys_iff.mp (same.symm.subset (mem_keys_iff.mpr ⟨w, found⟩))

end SortedMap

/-! ### Comparing maps -/

namespace Domain

variable {κ V : Type} [Key κ] {d : Domain V} {good : V → Prop} {old new : SortedMap κ V}

/-- The new map has lost a key, or the value of a key has regressed. -/
def Regresses (d : Domain V) (old new : SortedMap κ V) : Prop :=
  ∃ k v, old.get? k = some v ∧
    (new.get? k = none ∨ ∃ w, new.get? k = some w ∧ d.compare v w = .gt)

theorem any_lost_iff :
    (old.entries.any fun entry => !new.contains entry.1) = true ↔
      ∃ k v, old.get? k = some v ∧ new.get? k = none := by
  simp only [List.any_eq_true, Prod.exists, SortedMap.mem_entries_iff, SortedMap.contains,
    Bool.not_eq_true', Option.isSome_eq_false_iff, Option.isNone_iff_eq_none]

theorem mem_verdicts_iff {verdict : Ordering} :
    verdict ∈ (old.entries.filterMap fun entry =>
      (new.get? entry.1).map (d.compare entry.2)) ↔
      ∃ k v, old.get? k = some v ∧ ∃ w, new.get? k = some w ∧ d.compare v w = verdict := by
  simp only [List.mem_filterMap, Option.map_eq_some_iff, Prod.exists, SortedMap.mem_entries_iff]

theorem compareMaps_eq_gt_iff : d.compareMaps old new = .gt ↔ d.Regresses old new := by
  unfold compareMaps
  dsimp only
  split
  · next lost =>
    obtain ⟨k, v, found, absent⟩ := any_lost_iff.mp lost
    simp only [true_iff]
    exact ⟨k, v, found, .inl absent⟩
  split
  · next regressed =>
    obtain ⟨k, v, found, later⟩ := mem_verdicts_iff.mp regressed
    simp only [true_iff]
    exact ⟨k, v, found, .inr later⟩
  · next kept steady =>
    have never : ¬ d.Regresses old new := by
      rintro ⟨k, v, found, absent | later⟩
      · exact kept (any_lost_iff.mpr ⟨k, v, found, absent⟩)
      · exact steady (mem_verdicts_iff.mpr ⟨k, v, found, later⟩)
    split <;> simp [never]

theorem alike_of_compareMaps (equal : d.compareMaps old new = .eq) : old.size = new.size ∧
    ∀ k v, old.get? k = some v → ∃ w, new.get? k = some w ∧ d.compare v w = .eq := by
  have steady : ¬ d.Regresses old new := by
    rw [← compareMaps_eq_gt_iff, equal]
    nofun
  unfold compareMaps at equal
  dsimp only at equal
  split at equal
  · contradiction
  split at equal
  · contradiction
  split at equal
  · next alike =>
    refine ⟨alike.1, fun k v found => ?_⟩
    cases later : new.get? k with
    | none => exact absurd ⟨k, v, found, .inl later⟩ steady
    | some w => exact ⟨w, rfl, alike.2 _ (mem_verdicts_iff.mpr ⟨k, v, found, w, later, rfl⟩)⟩
  · contradiction

/-- Maps compare as equal when they have as many keys, none is lost, and all values do. -/
theorem compareMaps_eq_eq_iff :
    d.compareMaps old new = .eq ↔ old.size = new.size ∧
      ∀ k v, old.get? k = some v → ∃ w, new.get? k = some w ∧ d.compare v w = .eq := by
  refine ⟨alike_of_compareMaps, ?_⟩
  rintro ⟨size, alike⟩
  have kept : ¬ (old.entries.any fun entry => !new.contains entry.1) = true := by
    intro lost
    obtain ⟨k, v, found, absent⟩ := any_lost_iff.mp lost
    obtain ⟨w, later, -⟩ := alike k v found
    rw [absent] at later
    contradiction
  have verdicts : ∀ verdict ∈ old.entries.filterMap (fun entry =>
      (new.get? entry.1).map (d.compare entry.2)), verdict = .eq := by
    intro verdict member
    obtain ⟨k, v, found, w, later, told⟩ := mem_verdicts_iff.mp member
    obtain ⟨x, laterToo, equal⟩ := alike k v found
    rw [later, Option.some.injEq] at laterToo
    rw [← told, laterToo, equal]
  have steady : Ordering.gt ∉ old.entries.filterMap fun entry =>
      (new.get? entry.1).map (d.compare entry.2) :=
    fun member => nomatch verdicts _ member
  unfold compareMaps
  dsimp only
  rw [if_neg kept, if_neg steady, if_pos ⟨size, verdicts⟩]

/-- Comparing tells equal values from all others, and never calls it a regression when a value
of this sort is merged with another. -/
structure ComparesOn (d : Domain V) (good : V → Prop) : Prop where
  tells : ∀ a b, d.compare a b = .eq ↔ a = b
  left : ∀ a b, good a → good b → d.compare a (d.merge a b) ≠ .gt
  right : ∀ a b, good a → good b → d.compare b (d.merge a b) ≠ .gt

namespace ComparesOn

variable (compares : d.ComparesOn good)

include compares

theorem compareMaps_tells : d.compareMaps old new = .eq ↔ old = new := by
  rw [compareMaps_eq_eq_iff]
  constructor
  · rintro ⟨size, alike⟩
    apply SortedMap.ext
    intro k
    cases found : old.get? k with
    | some v =>
        obtain ⟨w, later, equal⟩ := alike k v found
        rw [later, (compares.tells v w).mp equal]
    | none =>
        cases later : new.get? k with
        | none => rfl
        | some w =>
            obtain ⟨v, here⟩ := SortedMap.get?_of_size_eq size
              (fun k v found => (alike k v found).imp fun _ both => both.1) later
            rw [found] at here
            contradiction
  · rintro rfl
    exact ⟨rfl, fun k v found => ⟨v, found, (compares.tells v v).mpr rfl⟩⟩

/-- Where a key is in both maps its value is compared with the merged one, and elsewhere with
itself. -/
theorem map : (d.map : Domain (SortedMap κ V)).ComparesOn fun m => m.All good where
  tells _ _ := compares.compareMaps_tells
  left s t goodLeft goodRight regressed := by
    obtain ⟨k, a, found, lost⟩ := compareMaps_eq_gt_iff.mp regressed
    rw [d.get?_merge_map, found] at lost
    cases right : t.get? k with
    | none =>
        simp [right, mergeBackEdge, (compares.tells a a).mpr] at lost
    | some b =>
        have fine := compares.left a b (goodLeft k a found) (goodRight k b right)
        simp [right, mergeBackEdge, fine] at lost
  right s t goodLeft goodRight regressed := by
    obtain ⟨k, b, found, lost⟩ := compareMaps_eq_gt_iff.mp regressed
    rw [d.get?_merge_map, found] at lost
    cases left : s.get? k with
    | none =>
        simp [left, mergeBackEdge, (compares.tells b b).mpr] at lost
    | some a =>
        have fine := compares.right a b (goodLeft k a left) (goodRight k b found)
        simp [left, mergeBackEdge, fine] at lost

end ComparesOn

end Domain

/-! ### Comparing values -/

/-- Merging moves the kind of what must be completed up the order of declaration. -/
theorem Kind.rank_lt_of_sup {a b : Kind} (left : a ≠ .nonTarget) (right : b ≠ .nonTarget)
    (different : a ≠ a ⊔ b) : a.rank < (a ⊔ b).rank := by
  cases a <;> cases b <;> first | contradiction | decide

namespace Value

theorem compare_eq_eq_iff {a b : Value} : a.compare b = .eq ↔ a = b := by
  unfold compare
  split
  · next same => simp [same]
  · next different =>
    simp only [different, iff_false]
    split
    · split <;> nofun
    · split <;> nofun

/-- A value regresses when it keeps its kind and loses evidence, or when it falls in the order
of declaration to a kind that may not follow every other. -/
theorem compare_eq_gt_iff {a b : Value} :
    a.compare b = .gt ↔ (a.kind = b.kind ∧ ∃ site ∈ a.evidence, site ∉ b.evidence) ∨
      (b.kind.rank < a.kind.rank ∧ b.kind ≠ .invalid ∧ b.kind ≠ .completed) := by
  unfold compare
  split
  · next same =>
    subst same
    simp
  split
  · next kinds =>
    have subset : a.evidence.isSubset b.evidence = true ↔
        ¬ ∃ site ∈ a.evidence, site ∉ b.evidence := by
      simp [SortedSet.isSubset_iff]
    simp only [kinds, true_and, Nat.lt_irrefl, false_and, or_false]
    split
    · next inside => simp [subset.mp inside]
    · next outside => simpa [subset] using outside
  · next kinds =>
    have ranks : a.kind.rank ≠ b.kind.rank :=
      fun same => kinds (Key.injective _ _ (congrArg (fun rank => [rank]) same))
    have falls : b.kind.rank < a.kind.rank ↔ ¬ a.kind.rank < b.kind.rank := by omega
    simp only [kinds, false_and, false_or, falls, Ne, ← not_or]
    split <;> simp_all

/-- What a value is merged into has its kind and no less evidence, or a kind further up. -/
theorem compare_merge_ne_gt {a b : Value} (left : a.Sound) (right : b.Sound) :
    a.compare (a.merge b) ≠ .gt := by
  rw [Ne, compare_eq_gt_iff, kind_merge]
  by_cases stays : a.kind = a.kind ⊔ b.kind
  · rw [← stays]
    rintro (⟨-, site, had, gone⟩ | ⟨below, -⟩)
    · rw [merge_eq left.wellFormed right.wellFormed, ← stays] at gone
      split at gone
      · next empty =>
        rw [left.wellFormed.evidence_eq_empty empty] at had
        exact SortedSet.not_mem_empty site had
      · exact gone (SortedSet.mem_union.mpr (.inl had))
    · exact Nat.lt_irrefl _ below
  · have above := Kind.rank_lt_of_sup left.isTarget right.isTarget stays
    rintro (⟨same, -⟩ | ⟨below, -⟩)
    · exact stays same
    · omega

theorem domain_comparesOn : domain.ComparesOn Sound where
  tells _ _ := compare_eq_eq_iff
  left _ _ := compare_merge_ne_gt
  right a b left right := by
    change b.compare (a.merge b) ≠ .gt
    rw [merge_comm left.wellFormed right.wellFormed]
    exact compare_merge_ne_gt right left

/-- Merged values, and merged maps, never count as a regression from what was merged, and
nothing compares as equal to anything but itself. -/
theorem compare_agrees_with_merge :
    (∀ a b : Value, a.Sound → b.Sound →
      domain.compare a (domain.merge a b) ≠ .gt ∧ domain.compare b (domain.merge a b) ≠ .gt) ∧
    (∀ x y : Value, domain.compare x y = .eq ↔ x = y) ∧
    ∀ (κ : Type) [Key κ],
      (∀ s t : SortedMap κ Value, s.All Sound → t.All Sound →
        domain.map.compare s (domain.map.merge s t) ≠ .gt ∧
        domain.map.compare t (domain.map.merge s t) ≠ .gt) ∧
      ∀ s t : SortedMap κ Value, domain.map.compare s t = .eq ↔ s = t := by
  refine ⟨?_, domain_comparesOn.tells, fun κ _ => ?_⟩
  · intro a b left right
    exact ⟨domain_comparesOn.left a b left right, domain_comparesOn.right a b left right⟩
  · have maps : (domain.map : Domain (SortedMap κ Value)).ComparesOn _ := domain_comparesOn.map
    exact ⟨fun s t left right => ⟨maps.left s t left right, maps.right s t left right⟩, maps.tells⟩

/-- Two instances, of which one path completes the first and lets the second escape; on the other
path the first escapes and there is a third. -/
theorem two_paths_compare_agrees_with_merge :
    let escaped : Value := ⟨.escaped, .singleton ⟨⟨0⟩, ⟨1⟩⟩⟩
    let completed : Value := ⟨.completed, .singleton ⟨⟨0⟩, ⟨2⟩⟩⟩
    let s : SortedMap Nat Value := .ofList [(0, completed), (1, escaped)]
    let t : SortedMap Nat Value := .ofList [(0, escaped), (2, notCompleted)]
    escaped.Sound ∧ completed.Sound ∧ s.All Sound ∧ t.All Sound ∧
      domain.compare escaped (domain.merge escaped completed) ≠ .gt ∧
      domain.map.compare s (domain.map.merge s t) ≠ .gt ∧
      domain.map.compare t (domain.map.merge s t) ≠ .gt ∧
      domain.map.compare s t = .gt := by
  intro escaped completed s t
  have soundEscaped : escaped.Sound := ⟨by decide, by decide⟩
  have soundCompleted : completed.Sound := ⟨by decide, by decide⟩
  have soundFirst : s.All Sound := by
    intro k v found
    have member := SortedMap.mem_entries_iff.mpr found
    rcases List.mem_cons.mp member with here | later
    · cases here
      exact soundCompleted
    · cases List.mem_singleton.mp later
      exact soundEscaped
  have soundSecond : t.All Sound := by
    intro k v found
    have member := SortedMap.mem_entries_iff.mpr found
    rcases List.mem_cons.mp member with here | later
    · cases here
      exact soundEscaped
    · cases List.mem_singleton.mp later
      exact sound_notCompleted
  obtain ⟨values, -, maps⟩ := compare_agrees_with_merge
  obtain ⟨left, right⟩ := (maps Nat).1 s t soundFirst soundSecond
  exact ⟨soundEscaped, soundCompleted, soundFirst, soundSecond,
    (values escaped completed soundEscaped soundCompleted).1, left, right, by decide⟩

end Value

end PathCompletion
