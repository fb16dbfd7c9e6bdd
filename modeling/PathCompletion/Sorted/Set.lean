import PathCompletion.Sorted.Map

/-!
Finite sets in increasing order, as sorted maps to the one-element type. A set is
determined by its members.
-/

namespace PathCompletion

open Key

structure SortedSet (α : Type) [Key α] where
  ofMap ::
  toMap : SortedMap α Unit

namespace SortedSet

variable {α : Type} [Key α]

def contains (s : SortedSet α) (a : α) : Bool := s.toMap.contains a

instance : Membership α (SortedSet α) := ⟨fun s a => s.contains a = true⟩

instance (a : α) (s : SortedSet α) : Decidable (a ∈ s) :=
  inferInstanceAs (Decidable (s.contains a = true))

def toList (s : SortedSet α) : List α := s.toMap.entries.map Prod.fst

def size (s : SortedSet α) : Nat := s.toMap.size

def isEmpty (s : SortedSet α) : Bool := s.toMap.isEmpty

instance : EmptyCollection (SortedSet α) := ⟨⟨∅⟩⟩

instance : Inhabited (SortedSet α) := ⟨∅⟩

def insert (s : SortedSet α) (a : α) : SortedSet α := ⟨s.toMap.insert a ()⟩

def erase (s : SortedSet α) (a : α) : SortedSet α := ⟨s.toMap.erase a⟩

def singleton (a : α) : SortedSet α := insert ∅ a

def ofList (elements : List α) : SortedSet α := elements.foldl insert ∅

def union (s t : SortedSet α) : SortedSet α := ⟨.mergeWith (fun _ _ => ()) s.toMap t.toMap⟩

instance : Union (SortedSet α) := ⟨union⟩

def filter (keep : α → Bool) (s : SortedSet α) : SortedSet α :=
  ⟨⟨s.toMap.entries.filter fun entry => keep entry.1, s.toMap.sorted.filter _⟩⟩

def isSubset (s t : SortedSet α) : Bool := s.toList.all t.contains

instance [DecidableEq α] : DecidableEq (SortedSet α) := fun s t =>
  if same : s.toMap = t.toMap then .isTrue (by cases s; cases t; simp_all)
  else .isFalse fun h => same (h ▸ rfl)

theorem mem_iff_get? {s : SortedSet α} {a : α} : a ∈ s ↔ s.toMap.get? a = some () := by
  change s.toMap.contains a = true ↔ _
  rw [SortedMap.contains_iff]
  constructor
  · rintro ⟨⟨⟩, found⟩
    exact found
  · exact fun found => ⟨(), found⟩

theorem contains_iff {s : SortedSet α} {a : α} : s.contains a = true ↔ a ∈ s := Iff.rfl

theorem mem_toList {s : SortedSet α} {a : α} : a ∈ s.toList ↔ a ∈ s := by
  rw [mem_iff_get?, ← SortedMap.mem_entries_iff, toList, List.mem_map]
  constructor
  · rintro ⟨⟨b, ⟨⟩⟩, member, rfl⟩
    exact member
  · exact fun member => ⟨(a, ()), member, rfl⟩

theorem ext {s t : SortedSet α} (same : ∀ a, a ∈ s ↔ a ∈ t) : s = t := by
  have maps : s.toMap = t.toMap := by
    apply SortedMap.ext
    intro a
    have members := same a
    rw [mem_iff_get?, mem_iff_get?] at members
    cases left : s.toMap.get? a <;> cases right : t.toMap.get? a <;> simp_all
  cases s
  cases t
  simp_all

@[simp] theorem not_mem_empty (a : α) : ¬ a ∈ (∅ : SortedSet α) := by
  rw [mem_iff_get?]
  exact nofun

@[simp] theorem mem_insert {s : SortedSet α} {a b : α} :
    b ∈ s.insert a ↔ b = a ∨ b ∈ s := by
  simp only [mem_iff_get?, insert, SortedMap.get?_insert]
  by_cases here : a = b
  · simp [here]
  · have apart : key a ≠ key b := fun same => here (key_eq_iff.mp same)
    simp [apart, Ne.symm here]

@[simp] theorem mem_singleton {a b : α} : b ∈ singleton a ↔ b = a := by
  simp [singleton]

@[simp] theorem mem_erase {s : SortedSet α} {a b : α} :
    b ∈ s.erase a ↔ b ≠ a ∧ b ∈ s := by
  simp only [mem_iff_get?, erase, SortedMap.get?_erase]
  by_cases here : a = b
  · simp [here]
  · have apart : key a ≠ key b := fun same => here (key_eq_iff.mp same)
    simp [apart, Ne.symm here]

@[simp] theorem mem_union {s t : SortedSet α} {a : α} : a ∈ s ∪ t ↔ a ∈ s ∨ a ∈ t := by
  change a ∈ union s t ↔ _
  simp only [mem_iff_get?, union, SortedMap.get?_mergeWith]
  cases s.toMap.get? a <;> cases t.toMap.get? a <;> simp

theorem mem_ofList {elements : List α} {a : α} : a ∈ ofList elements ↔ a ∈ elements := by
  have general (start : SortedSet α) :
      a ∈ elements.foldl insert start ↔ a ∈ elements ∨ a ∈ start := by
    induction elements generalizing start with
    | nil => simp
    | cons first rest ih =>
        rw [List.foldl_cons, ih, mem_insert, List.mem_cons]
        constructor
        · rintro (later | here | old)
          · exact .inl (.inr later)
          · exact .inl (.inl here)
          · exact .inr old
        · rintro ((here | later) | old)
          · exact .inr (.inl here)
          · exact .inl later
          · exact .inr (.inr old)
  simpa [ofList] using general ∅

@[simp] theorem mem_filter {s : SortedSet α} {keep : α → Bool} {a : α} :
    a ∈ s.filter keep ↔ a ∈ s ∧ keep a = true := by
  rw [← mem_toList, ← mem_toList]
  simp only [toList, filter, List.mem_map, List.mem_filter]
  constructor
  · rintro ⟨entry, ⟨member, kept⟩, rfl⟩
    exact ⟨⟨entry, member, rfl⟩, kept⟩
  · rintro ⟨⟨entry, member, rfl⟩, kept⟩
    exact ⟨entry, ⟨member, kept⟩, rfl⟩

theorem isSubset_iff {s t : SortedSet α} :
    s.isSubset t = true ↔ ∀ a, a ∈ s → a ∈ t := by
  simp only [isSubset, List.all_eq_true, mem_toList, contains_iff]

theorem isEmpty_iff {s : SortedSet α} : s.isEmpty = true ↔ s = ∅ := by
  constructor
  · intro none
    apply ext
    intro a
    rw [← mem_toList]
    have entries : s.toMap.entries = [] := List.isEmpty_iff.mp none
    simp [toList, entries]
  · rintro rfl
    rfl

end SortedSet

end PathCompletion
