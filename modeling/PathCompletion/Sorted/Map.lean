import PathCompletion.Sorted.Key

/-!
Finite maps kept as strictly sorted association lists. A map is determined by its
look-up function `get?`, so equality of maps is equality of what they hold.
-/

namespace PathCompletion

open Key

variable {κ ν : Type} [Key κ]

structure SortedMap (κ ν : Type) [Key κ] where
  entries : List (κ × ν)
  sorted : entries.Pairwise fun a b => Before a.1 b.1

namespace SortedMap

/-! ### Entry lists -/

def lookup (k : κ) : List (κ × ν) → Option ν
  | [] => none
  | (k', v) :: rest => if key k' = key k then some v else lookup k rest

def insertEntry (k : κ) (v : ν) : List (κ × ν) → List (κ × ν)
  | [] => [(k, v)]
  | (k', v') :: rest =>
      if Before k k' then (k, v) :: (k', v') :: rest
      else if Before k' k then (k', v') :: insertEntry k v rest
      else (k, v) :: rest

theorem mem_insertEntry {k : κ} {v : ν} {entry : κ × ν} {l : List (κ × ν)}
    (member : entry ∈ insertEntry k v l) : entry = (k, v) ∨ entry ∈ l := by
  induction l with
  | nil => simpa [insertEntry] using member
  | cons head rest ih =>
      obtain ⟨k', v'⟩ := head
      simp only [insertEntry] at member
      split at member
      · simpa using member
      · split at member
        · rcases List.mem_cons.mp member with first | later
          · exact .inr (by simp [first])
          · rcases ih later with here | there
            · exact .inl here
            · exact .inr (by simp [there])
        · rcases List.mem_cons.mp member with first | later
          · exact .inl first
          · exact .inr (by simp [later])

theorem pairwise_insertEntry (k : κ) (v : ν) {l : List (κ × ν)}
    (sorted : l.Pairwise fun a b => Before a.1 b.1) :
    (insertEntry k v l).Pairwise fun a b => Before a.1 b.1 := by
  induction l with
  | nil => simp [insertEntry]
  | cons head rest ih =>
      obtain ⟨k', v'⟩ := head
      have above := (List.pairwise_cons.mp sorted).1
      have tail := (List.pairwise_cons.mp sorted).2
      simp only [insertEntry]
      split
      · next earlier =>
        refine List.pairwise_cons.mpr ⟨?_, sorted⟩
        intro entry member
        rcases List.mem_cons.mp member with first | later
        · exact first ▸ earlier
        · exact earlier.trans (above entry later)
      · split
        · next later =>
          refine List.pairwise_cons.mpr ⟨?_, ih tail⟩
          intro entry member
          rcases mem_insertEntry member with first | old
          · exact first ▸ later
          · exact above entry old
        · next notEarlier notLater =>
          have same : k = k' := eq_of_not_before notEarlier notLater
          subst same
          exact List.pairwise_cons.mpr ⟨above, tail⟩

theorem lookup_insertEntry (k j : κ) (v : ν) (l : List (κ × ν)) :
    lookup j (insertEntry k v l) = if key k = key j then some v else lookup j l := by
  induction l with
  | nil => simp [insertEntry, lookup]
  | cons head rest ih =>
      obtain ⟨k', v'⟩ := head
      simp only [insertEntry]
      split
      · simp [lookup]
      · split
        · next later =>
          simp only [lookup, ih]
          by_cases old : key k' = key j
          · have fresh : key k ≠ key j := by
              intro same
              exact later.ne (key_eq_iff.mp (old.trans same.symm))
            simp [old, fresh]
          · simp [old]
        · next notEarlier notLater =>
          have same : k = k' := eq_of_not_before notEarlier notLater
          subst same
          by_cases here : key k = key j <;> simp [lookup, here]

theorem lookup_eq_none_of_before {k : κ} {l : List (κ × ν)}
    (above : ∀ entry ∈ l, Before k entry.1) : lookup k l = none := by
  induction l with
  | nil => rfl
  | cons head rest ih =>
      obtain ⟨k', v'⟩ := head
      have different : key k' ≠ key k := by
        intro same
        exact (above _ List.mem_cons_self).ne (key_eq_iff.mp same).symm
      simp only [lookup, different, ↓reduceIte]
      exact ih fun entry member => above entry (List.mem_cons_of_mem _ member)

theorem mem_of_lookup_eq_some {k : κ} {v : ν} {l : List (κ × ν)}
    (found : lookup k l = some v) : (k, v) ∈ l := by
  induction l with
  | nil => simp [lookup] at found
  | cons head rest ih =>
      obtain ⟨k', v'⟩ := head
      simp only [lookup] at found
      split at found
      · next same =>
        have keys := key_eq_iff.mp same
        simp_all
      · exact List.mem_cons_of_mem _ (ih found)

theorem lookup_eq_some_of_mem {k : κ} {v : ν} {l : List (κ × ν)}
    (sorted : l.Pairwise fun a b => Before a.1 b.1) (member : (k, v) ∈ l) :
    lookup k l = some v := by
  induction l with
  | nil => simp at member
  | cons head rest ih =>
      obtain ⟨k', v'⟩ := head
      have above := (List.pairwise_cons.mp sorted).1
      rcases List.mem_cons.mp member with first | later
      · cases first
        simp [lookup]
      · have different : key k' ≠ key k := by
          intro same
          exact (above _ later).ne (key_eq_iff.mp same)
        simp only [lookup, different, ↓reduceIte]
        exact ih (List.pairwise_cons.mp sorted).2 later

theorem lookup_cons_of_before {k : κ} {head : κ × ν} {rest : List (κ × ν)}
    (sorted : (head :: rest).Pairwise fun a b => Before a.1 b.1) (earlier : Before k head.1) :
    lookup k (head :: rest) = none := by
  refine lookup_eq_none_of_before fun entry member => ?_
  rcases List.mem_cons.mp member with rfl | later
  · exact earlier
  · exact earlier.trans ((List.pairwise_cons.mp sorted).1 entry later)

theorem not_before_of_lookup_eq {head head' : κ × ν} {rest rest' : List (κ × ν)}
    (right : (head' :: rest').Pairwise fun a b => Before a.1 b.1)
    (same : ∀ k, lookup k (head :: rest) = lookup k (head' :: rest')) :
    ¬ Before head.1 head'.1 := by
  intro earlier
  have found := same head.1
  rw [lookup_cons_of_before right earlier] at found
  simp [lookup] at found

/-- Without the first entries, which have one key, the lists still hold the same. -/
theorem lookup_tail_eq {k : κ} {v v' : ν} {rest rest' : List (κ × ν)}
    (left : ((k, v) :: rest).Pairwise fun a b => Before a.1 b.1)
    (right : ((k, v') :: rest').Pairwise fun a b => Before a.1 b.1)
    (same : ∀ j, lookup j ((k, v) :: rest) = lookup j ((k, v') :: rest')) (j : κ) :
    lookup j rest = lookup j rest' := by
  by_cases here : key k = key j
  · obtain rfl := key_eq_iff.mp here
    rw [lookup_eq_none_of_before (List.pairwise_cons.mp left).1,
      lookup_eq_none_of_before (List.pairwise_cons.mp right).1]
  · simpa [lookup, here] using same j

theorem eq_of_lookup_eq {l r : List (κ × ν)}
    (left : l.Pairwise fun a b => Before a.1 b.1)
    (right : r.Pairwise fun a b => Before a.1 b.1)
    (same : ∀ k, lookup k l = lookup k r) : l = r := by
  induction l generalizing r with
  | nil =>
      cases r with
      | nil => rfl
      | cons head rest =>
          have absent := same head.1
          simp [lookup] at absent
  | cons head rest ih =>
      cases r with
      | nil =>
          have absent := same head.1
          simp [lookup] at absent
      | cons head' rest' =>
          obtain ⟨k, v⟩ := head
          obtain ⟨k', v'⟩ := head'
          obtain rfl : k = k' := eq_of_not_before (not_before_of_lookup_eq right same)
            (not_before_of_lookup_eq left fun j => (same j).symm)
          obtain rfl : v = v' := by simpa [lookup] using same k
          rw [ih (List.pairwise_cons.mp left).2 (List.pairwise_cons.mp right).2
            (lookup_tail_eq left right same)]

/-! ### Maps -/

def get? (m : SortedMap κ ν) (k : κ) : Option ν := lookup k m.entries

def contains (m : SortedMap κ ν) (k : κ) : Bool := (m.get? k).isSome

def size (m : SortedMap κ ν) : Nat := m.entries.length

def isEmpty (m : SortedMap κ ν) : Bool := m.entries.isEmpty

def empty : SortedMap κ ν := ⟨[], List.Pairwise.nil⟩

instance : EmptyCollection (SortedMap κ ν) := ⟨empty⟩

instance : Inhabited (SortedMap κ ν) := ⟨empty⟩

def insert (m : SortedMap κ ν) (k : κ) (v : ν) : SortedMap κ ν :=
  ⟨insertEntry k v m.entries, pairwise_insertEntry k v m.sorted⟩

def erase (m : SortedMap κ ν) (k : κ) : SortedMap κ ν :=
  ⟨m.entries.filter fun entry => key entry.1 ≠ key k, m.sorted.filter _⟩

def ofList (entries : List (κ × ν)) : SortedMap κ ν :=
  entries.foldl (fun m entry => m.insert entry.1 entry.2) ∅

def mergeWith (f : ν → ν → ν) (a b : SortedMap κ ν) : SortedMap κ ν :=
  b.entries.foldl
    (fun m entry => m.insert entry.1 (match a.get? entry.1 with
      | some v => f v entry.2
      | none => entry.2)) a

theorem entries_injective {a b : SortedMap κ ν} (same : a.entries = b.entries) : a = b := by
  cases a
  cases b
  simp_all

instance [DecidableEq κ] [DecidableEq ν] : DecidableEq (SortedMap κ ν) := fun a b =>
  if same : a.entries = b.entries then .isTrue (entries_injective same)
  else .isFalse fun h => same (h ▸ rfl)

theorem ext {a b : SortedMap κ ν} (same : ∀ k, a.get? k = b.get? k) : a = b :=
  entries_injective (eq_of_lookup_eq a.sorted b.sorted same)

theorem mem_entries_iff {m : SortedMap κ ν} {k : κ} {v : ν} :
    (k, v) ∈ m.entries ↔ m.get? k = some v :=
  ⟨lookup_eq_some_of_mem m.sorted, mem_of_lookup_eq_some⟩

@[simp] theorem get?_empty (k : κ) : (∅ : SortedMap κ ν).get? k = none := rfl

theorem get?_insert (m : SortedMap κ ν) (k j : κ) (v : ν) :
    (m.insert k v).get? j = if key k = key j then some v else m.get? j :=
  lookup_insertEntry k j v m.entries

@[simp] theorem get?_insert_self (m : SortedMap κ ν) (k : κ) (v : ν) :
    (m.insert k v).get? k = some v := by
  simp [get?_insert]

theorem get?_insert_of_ne {m : SortedMap κ ν} {k j : κ} {v : ν} (different : k ≠ j) :
    (m.insert k v).get? j = m.get? j := by
  simp [get?_insert, key_eq_iff, different]

theorem contains_iff {m : SortedMap κ ν} {k : κ} :
    m.contains k = true ↔ ∃ v, m.get? k = some v := by
  simp [contains, Option.isSome_iff_exists]

theorem contains_insert_iff {m : SortedMap κ ν} {k j : κ} {v : ν} :
    (m.insert k v).contains j = true ↔ m.contains j = true ∨ j = k := by
  simp only [contains_iff, get?_insert]
  by_cases here : k = j
  · simp [here]
  · have apart : key k ≠ key j := fun same => here (key_eq_iff.mp same)
    simp [apart, Ne.symm here]

theorem get?_erase (m : SortedMap κ ν) (k j : κ) :
    (m.erase k).get? j = if key k = key j then none else m.get? j := by
  obtain ⟨entries, sorted⟩ := m
  simp only [get?, erase]
  clear sorted
  induction entries with
  | nil => simp [lookup]
  | cons head rest ih =>
      obtain ⟨k', v'⟩ := head
      by_cases dropped : key k' = key k
      · by_cases here : key k = key j
        · simpa [List.filter_cons, dropped, lookup, here] using ih
        · simpa [List.filter_cons, dropped, lookup, here] using ih
      · by_cases here : key k' = key j
        · have apart : key k ≠ key j := fun same => dropped (here.trans same.symm)
          simp [lookup, here, apart, apart.symm]
        · simpa [List.filter_cons, dropped, lookup, here] using ih

theorem get?_foldl_insert (value : κ × ν → ν) (entries : List (κ × ν))
    (sorted : entries.Pairwise fun a b => Before a.1 b.1) (start : SortedMap κ ν) (j : κ) :
    (entries.foldl (fun m entry => m.insert entry.1 (value entry)) start).get? j =
      match lookup j entries with
      | some v => some (value (j, v))
      | none => start.get? j := by
  induction entries generalizing start with
  | nil => rfl
  | cons head rest ih =>
      obtain ⟨k, v⟩ := head
      have above := (List.pairwise_cons.mp sorted).1
      rw [List.foldl_cons, ih (List.pairwise_cons.mp sorted).2]
      by_cases here : key k = key j
      · have keys := key_eq_iff.mp here
        subst keys
        rw [lookup_eq_none_of_before above]
        simp [lookup]
      · simp [lookup, here, get?_insert]

/-- A merged map holds, key by key, the joined value or the only one there is. -/
theorem get?_mergeWith (f : ν → ν → ν) (a b : SortedMap κ ν) (k : κ) :
    (mergeWith f a b).get? k =
      match a.get? k, b.get? k with
      | some x, some y => some (f x y)
      | some x, none => some x
      | none, other => other := by
  unfold mergeWith
  rw [get?_foldl_insert (fun entry => match a.get? entry.1 with
      | some v => f v entry.2
      | none => entry.2) b.entries b.sorted a k]
  change (match b.get? k with | some v => _ | none => _) = _
  cases left : a.get? k <;> cases b.get? k <;> simp [left]

end SortedMap

end PathCompletion
