import Mathlib.Data.Set.Finite.Lattice
import Mathlib.Data.Fintype.Pi
import PathCompletion.Sorted.Set

/-!
There are finitely many maps with keys and values from finite sets, and finitely many
subsets of a finite set.
-/

namespace PathCompletion

variable {κ ν : Type} [Key κ]

theorem SortedMap.finite_of_within {keys : Set κ} {values : Set ν} (keysFinite : keys.Finite)
    (valuesFinite : values.Finite) :
    { m : SortedMap κ ν | ∀ k v, m.get? k = some v → k ∈ keys ∧ v ∈ values }.Finite := by
  have : Finite keys := keysFinite.to_subtype
  -- A map is determined by what it holds under the keys, where it holds one of the values or none.
  have functions : { f : keys → Option ν | ∀ k, f k ∈ {none} ∪ Set.image some values }.Finite :=
    Set.Finite.pi' fun _ => (Set.finite_singleton none).union (valuesFinite.image some)
  apply Set.Finite.of_injOn (f := fun (m : SortedMap κ ν) (k : keys) => m.get? k) _ _ functions
  · intro m within k
    cases found : m.get? k with
    | none => exact .inl found
    | some v => exact .inr ⟨v, (within k v found).2, found.symm⟩
  · intro a withinLeft b withinRight same
    apply SortedMap.ext
    intro k
    by_cases listed : k ∈ keys
    · exact congrFun same ⟨k, listed⟩
    · have absent (m : SortedMap κ ν) (within : ∀ k v, m.get? k = some v → k ∈ keys ∧ v ∈ values) :
          m.get? k = none := by
        cases found : m.get? k with
        | none => rfl
        | some v => exact absurd (within k v found).1 listed
      rw [absent a withinLeft, absent b withinRight]

theorem SortedSet.finite_of_within {elements : Set κ} (elementsFinite : elements.Finite) :
    { s : SortedSet κ | ∀ a ∈ s, a ∈ elements }.Finite := by
  have maps := SortedMap.finite_of_within (ν := Unit) elementsFinite Set.finite_univ
  apply Set.Finite.of_injOn (f := SortedSet.toMap) _ _ maps
  · intro s within k v found
    exact ⟨within k (SortedSet.mem_iff_get?.mpr found), trivial⟩
  · rintro ⟨a⟩ - ⟨b⟩ - same
    exact congrArg SortedSet.ofMap same

end PathCompletion
