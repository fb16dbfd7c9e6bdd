import Mathlib.Data.List.Basic
import PathCompletion.Symbol.Table

/-!
Names of types. Types are listed by id and indexed by name. After any calls on a new table the
list and the index are inverse to each other: a name gets the next free id when it is registered
for the first time, and has that id ever after. A call changes the entry of its own type alone,
and of an entry that is there never the name or the kind.
-/

namespace PathCompletion.SymbolTable

variable {t u next : SymbolTable} {call : Call} {name : String} {kind : TypeKind} {id : TypeId}

def Call.registered? : Call → Option (String × TypeKind)
  | .type name kind => some (name, kind)
  | .classType name _ _ => some (name, .classType)
  | .constructor .. | .instanceMethod .. | .staticMethod .. | .method _ => none

def Call.amend : Call → TypeEntry → TypeEntry
  | .classType _ base interfaces, entry => { entry with base, interfaces }
  | _, entry => entry

@[simp] theorem Call.name_amend (call : Call) (entry : TypeEntry) :
    (call.amend entry).name = entry.name := by
  cases call <;> rfl

@[simp] theorem Call.kind_amend (call : Call) (entry : TypeEntry) :
    (call.amend entry).kind = entry.kind := by
  cases call <;> rfl

def registeredNames (calls : List Call) : List String :=
  (calls.filterMap Call.registered?).map Prod.fst

def after (compilation : CompilationId) (calls : List Call) : SymbolTable :=
  (applyAll { compilation } calls).2

def typeNames (t : SymbolTable) : List String := t.types.map TypeEntry.name

theorem typeName?_eq_getElem? (t : SymbolTable) (id : TypeId) :
    t.typeName? id = t.typeNames[id.index]? := by
  rw [typeName?, type?, typeNames, List.getElem?_map]

/-- The index and the list are inverse to each other. -/
def Indexed (t : SymbolTable) : Prop :=
  ∀ name id, t.resolveType? name = some id ↔ t.typeName? id = some name

theorem Indexed.mem_typeNames_iff (indexed : t.Indexed) :
    name ∈ t.typeNames ↔ ∃ id, t.resolveType? name = some id := by
  rw [List.mem_iff_getElem?]
  constructor
  · rintro ⟨i, listed⟩
    exact ⟨⟨i⟩, (indexed name ⟨i⟩).mpr ((t.typeName?_eq_getElem? ⟨i⟩).trans listed)⟩
  · rintro ⟨id, resolved⟩
    exact ⟨id.index, (t.typeName?_eq_getElem? id).symm.trans ((indexed name id).mp resolved)⟩

/-! ### One registration -/

/-- All that a call does to the types of a table when it registers a type and hands out the id. -/
structure Registers (t : SymbolTable) (call : Call) (name : String) (kind : TypeKind)
    (id : TypeId) (next : SymbolTable) : Prop where
  place : t.typeName? id = some name ∨ name ∉ t.typeNames ∧ id.index = t.types.length
  resolves : ∀ other,
    next.resolveType? other = if other = name then some id else t.resolveType? other
  entry : next.type? id = some (call.amend ((t.type? id).getD { name, kind }))
  others : ∀ other, other ≠ id → next.type? other = t.type? other

theorem addType_of_known (known : t.resolveType? name = some id) (kind : TypeKind) :
    t.addType name kind = (id, t) := by
  simp only [addType, known]

theorem addType_of_new (new : t.resolveType? name = none) (kind : TypeKind) :
    t.addType name kind = (⟨t.types.length⟩, { t with
      types := t.types ++ [{ name, kind }], byName := t.byName.insert name ⟨t.types.length⟩ }) := by
  simp only [addType, new]

theorem registers_addType (indexed : t.Indexed) (name : String) (kind : TypeKind) :
    t.Registers (.type name kind) name kind (t.addType name kind).1 (t.addType name kind).2 := by
  cases found : t.resolveType? name with
  | some id =>
      have named := (indexed name id).mp found
      obtain ⟨entry, listed, -⟩ := Option.map_eq_some_iff.mp named
      rw [addType_of_known found]
      refine ⟨.inl named, fun other => ?_, by simp [Call.amend, listed], fun _ _ => rfl⟩
      split
      · next same => rw [same, found]
      · rfl
  | none =>
      have absent : name ∉ t.typeNames := by simp [indexed.mem_typeNames_iff, found]
      rw [addType_of_new found]
      refine ⟨.inr ⟨absent, rfl⟩, fun other => ?_, by simp [type?, Call.amend], ?_⟩
      · simp only [resolveType?, SortedMap.get?_insert, Key.key_eq_iff, eq_comm]
      · intro other elsewhere
        have apart : other.index ≠ t.types.length := fun same => elsewhere (by simp [← same])
        simp only [type?, List.getElem?_append]
        split
        · rfl
        · rw [List.getElem?_eq_none (by simp; omega), List.getElem?_eq_none (by omega)]

theorem type?_addClass (t : SymbolTable) (name : String) (base : Option TypeId)
    (interfaces : List TypeId) (other : TypeId) :
    (t.addClass name base interfaces).2.type? other =
      ((t.addType name .classType).2.type? other).map fun entry =>
        if (t.addClass name base interfaces).1 = other then { entry with base, interfaces }
        else entry := by
  have places (id : TypeId) : id.index = other.index ↔ id = other := by
    cases id
    cases other
    simp
  simp only [addClass, type?, List.getElem?_modify, places]
  rfl

theorem registers_addClass (indexed : t.Indexed) (name : String) (base : Option TypeId)
    (interfaces : List TypeId) :
    t.Registers (.classType name base interfaces) name .classType
      (t.addClass name base interfaces).1 (t.addClass name base interfaces).2 := by
  have added := registers_addType indexed name .classType
  have same : (t.addClass name base interfaces).1 = (t.addType name .classType).1 := rfl
  rw [← same] at added
  refine ⟨added.place, added.resolves, ?_, fun other elsewhere => ?_⟩
  · rw [type?_addClass, added.entry, Option.map_some, if_pos rfl]
    rfl
  · rw [type?_addClass, added.others other elsewhere]
    simp only [if_neg (Ne.symm elsewhere), Option.map_id']

theorem registers_apply (indexed : t.Indexed) (registered : call.registered? = some (name, kind)) :
    t.Registers call name kind ⟨(t.apply call).1⟩ (t.apply call).2 := by
  cases call with
  | type own kind =>
      cases registered
      exact registers_addType indexed name _
  | classType own base interfaces =>
      cases registered
      exact registers_addClass indexed name base interfaces
  | _ => contradiction

theorem apply_of_not_registered (other : call.registered? = none) :
    (t.apply call).2.types = t.types ∧ (t.apply call).2.byName = t.byName := by
  cases call with
  | type | classType => contradiction
  | _ => exact ⟨rfl, rfl⟩

namespace Registers

theorem type?_of_new (registers : t.Registers call name kind id next) (new : name ∉ t.typeNames) :
    t.type? id = none := by
  rcases registers.place with named | ⟨-, past⟩
  · rw [typeName?_eq_getElem?] at named
    exact absurd (List.mem_of_getElem? named) new
  · simp [type?, past]

theorem typeName? (registers : t.Registers call name kind id next) (other : TypeId) :
    next.typeName? other = if other = id then some name else t.typeName? other := by
  split
  · next here =>
    rw [here, SymbolTable.typeName?, registers.entry, Option.map_some, Call.name_amend]
    rcases registers.place with named | ⟨new, -⟩
    · obtain ⟨entry, listed, rfl⟩ := Option.map_eq_some_iff.mp named
      rw [listed]
      rfl
    · rw [registers.type?_of_new new]
      rfl
  · next elsewhere =>
    rw [SymbolTable.typeName?, registers.others other elsewhere, SymbolTable.typeName?]

theorem indexed (registers : t.Registers call name kind id next) (indexed : t.Indexed) :
    next.Indexed := by
  -- Only this name can have had the id before, and only this id the name.
  have own (other : String) (named : t.typeName? id = some other) : other = name := by
    rcases registers.place with known | ⟨new, -⟩
    · exact Option.some.inj (named.symm.trans known)
    · simp [SymbolTable.typeName?, registers.type?_of_new new] at named
  have only (other : TypeId) (named : t.typeName? other = some name) : other = id := by
    rcases registers.place with known | ⟨new, -⟩
    · rw [← indexed] at named known
      exact Option.some.inj (named.symm.trans known)
    · exact absurd (indexed.mem_typeNames_iff.mpr ⟨other, (indexed name other).mpr named⟩) new
  intro other place
  rw [registers.resolves, registers.typeName?]
  by_cases sameName : other = name <;> by_cases sameId : place = id
  · simp [sameName, sameId]
  · simp only [sameName, sameId, ↓reduceIte, Option.some.injEq, Ne.symm sameId, false_iff]
    exact fun named => sameId (only place named)
  · simp only [sameName, sameId, ↓reduceIte, Option.some.injEq, Ne.symm sameName, iff_false]
    exact fun resolved => sameName (own other ((indexed other id).mp resolved))
  · simpa only [sameName, sameId, ↓reduceIte] using indexed other place

theorem typeNames (registers : t.Registers call name kind id next) :
    next.typeNames = if name ∈ t.typeNames then t.typeNames else t.typeNames ++ [name] := by
  obtain ⟨index⟩ := id
  apply List.ext_getElem?
  intro i
  have here : next.typeNames[i]? = if i = index then some name else t.typeNames[i]? := by
    simpa only [typeName?_eq_getElem?, TypeId.mk.injEq] using registers.typeName? ⟨i⟩
  rw [here]
  rcases registers.place with named | ⟨new, rfl⟩
  · rw [typeName?_eq_getElem?] at named
    rw [if_pos (List.mem_of_getElem? named), ite_eq_right_iff]
    rintro rfl
    exact named.symm
  · have length : t.typeNames.length = t.types.length := List.length_map _
    rw [if_neg new, List.getElem?_append, length]
    rcases Nat.lt_trichotomy i t.types.length with before | rfl | beyond
    · rw [if_neg (Nat.ne_of_lt before), if_pos before]
    · simp
    · rw [if_neg (Nat.ne_of_gt beyond), if_neg (by omega), List.getElem?_eq_none (by omega),
        List.getElem?_eq_none (by simp; omega)]

end Registers

/-! ### Any calls -/

theorem Indexed.apply (indexed : t.Indexed) (call : Call) : (t.apply call).2.Indexed := by
  cases registered : call.registered? with
  | some type => exact (registers_apply indexed registered).indexed indexed
  | none =>
      obtain ⟨types, byName⟩ := apply_of_not_registered (t := t) registered
      intro name id
      simpa only [resolveType?, SymbolTable.typeName?, type?, types, byName] using indexed name id

theorem Indexed.applyAll (indexed : t.Indexed) (calls : List Call) :
    (t.applyAll calls).2.Indexed := by
  induction calls generalizing t with
  | nil => exact indexed
  | cons call rest ih => exact ih (indexed.apply call)

theorem indexed_after (compilation : CompilationId) (calls : List Call) :
    (after compilation calls).Indexed := by
  apply Indexed.applyAll
  intro name id
  simp [resolveType?, SymbolTable.typeName?, type?]

theorem after_append (compilation : CompilationId) (calls more : List Call) :
    after compilation (calls ++ more) = ((after compilation calls).applyAll more).2 := by
  have all (t : SymbolTable) :
      (t.applyAll (calls ++ more)).2 = ((t.applyAll calls).2.applyAll more).2 := by
    induction calls generalizing t with
    | nil => rfl
    | cons call rest ih => exact ih (t.apply call).2
  exact all _

def Keeps (t u : SymbolTable) : Prop :=
  ∀ id entry, t.type? id = some entry →
    ∃ later, u.type? id = some later ∧ later.name = entry.name ∧ later.kind = entry.kind

theorem Keeps.refl (t : SymbolTable) : t.Keeps t := fun _ entry listed => ⟨entry, listed, rfl, rfl⟩

theorem Keeps.trans (first : t.Keeps u) (second : u.Keeps next) : t.Keeps next := by
  intro id entry listed
  obtain ⟨between, listed, name, kind⟩ := first id entry listed
  obtain ⟨later, listed, nameLater, kindLater⟩ := second id between listed
  exact ⟨later, listed, nameLater.trans name, kindLater.trans kind⟩

theorem Indexed.keeps_apply (indexed : t.Indexed) (call : Call) : t.Keeps (t.apply call).2 := by
  intro id entry listed
  cases registered : call.registered? with
  | some type =>
      have registers := registers_apply indexed registered
      by_cases here : id = ⟨(t.apply call).1⟩
      · refine ⟨call.amend entry, ?_, call.name_amend entry, call.kind_amend entry⟩
        rw [here, registers.entry, ← here, listed]
        rfl
      · exact ⟨entry, (registers.others id here).trans listed, rfl, rfl⟩
  | none =>
      obtain ⟨types, -⟩ := apply_of_not_registered (t := t) registered
      exact ⟨entry, by rw [type?, types]; exact listed, rfl, rfl⟩

theorem Indexed.keeps_applyAll (indexed : t.Indexed) (calls : List Call) :
    t.Keeps (t.applyAll calls).2 := by
  induction calls generalizing t with
  | nil => exact .refl t
  | cons call rest ih => exact (indexed.keeps_apply call).trans (ih (indexed.apply call))

theorem Keeps.resolves (keeps : t.Keeps u) (indexed : t.Indexed) (later : u.Indexed)
    (resolved : t.resolveType? name = some id) : u.resolveType? name = some id := by
  obtain ⟨entry, listed, rfl⟩ := Option.map_eq_some_iff.mp ((indexed name id).mp resolved)
  obtain ⟨entry, listed, same, -⟩ := keeps id _ listed
  exact (later _ id).mpr (Option.map_eq_some_iff.mpr ⟨entry, listed, same⟩)

/-- Names are listed in the order of their first registrations. -/
theorem Indexed.typeNames_applyAll (indexed : t.Indexed) (names : List String)
    (listed : t.typeNames = names.eraseDups) (calls : List Call) :
    (t.applyAll calls).2.typeNames = (names ++ registeredNames calls).eraseDups := by
  induction calls generalizing t names with
  | nil =>
      rw [registeredNames, List.filterMap_nil, List.map_nil, List.append_nil]
      exact listed
  | cons call rest ih =>
      change ((t.apply call).2.applyAll rest).2.typeNames = _
      cases registered : call.registered? with
      | some type =>
          have next : (t.apply call).2.typeNames = (names ++ [type.1]).eraseDups := by
            rw [(registers_apply indexed registered).typeNames, listed, List.eraseDups_append]
            by_cases known : type.1 ∈ names <;>
              simp [List.removeAll, List.eraseDups_cons, known]
          rw [ih (indexed.apply call) _ next]
          simp [registeredNames, registered]
      | none =>
          obtain ⟨types, -⟩ := apply_of_not_registered (t := t) registered
          have next : (t.apply call).2.typeNames = names.eraseDups := by
            rw [SymbolTable.typeNames, types]
            exact listed
          rw [ih (indexed.apply call) _ next]
          simp [registeredNames, registered]

theorem Registers.id_unique (indexed : t.Indexed) (registers : t.Registers call name kind id next)
    {other : TypeId} (resolved : t.resolveType? name = some other) : id = other := by
  rcases registers.place with named | ⟨new, -⟩
  · exact Option.some.inj (((indexed name id).mpr named).symm.trans resolved)
  · exact absurd (indexed.mem_typeNames_iff.mpr ⟨other, resolved⟩) new

/-- After any calls on a new table the ids are the places of the names, in the order in which
they were first registered, names and ids determine each other, and no later call takes an entry
away or changes its name or kind. A call that registers a name hands out an id to which the name
resolves ever after, and which is handed out when the name is registered again. It changes the
entry of that id alone, and of an entry that is there not the name and the kind. -/
theorem names_and_ids_stay_in_bijection (compilation : CompilationId) (calls : List Call) :
    (after compilation calls).typeNames = (registeredNames calls).eraseDups ∧
    (∀ name id, (after compilation calls).resolveType? name = some id ↔
      (after compilation calls).typeName? id = some name) ∧
    (∀ more, (after compilation calls).Keeps (after compilation (calls ++ more))) ∧
    ∀ call name kind, call.registered? = some (name, kind) →
      ∃ id, ((after compilation calls).apply call).1 = id.index ∧
        (∀ more,
          (after compilation (calls ++ call :: more)).resolveType? name = some id ∧
          ∀ again other, again.registered? = some (name, other) →
            ((after compilation (calls ++ call :: more)).apply again).1 = id.index) ∧
        (after compilation (calls ++ [call])).type? id =
          some (call.amend (((after compilation calls).type? id).getD { name, kind })) ∧
        ∀ other, other ≠ id → (after compilation (calls ++ [call])).type? other =
          (after compilation calls).type? other := by
  have indexed := indexed_after compilation calls
  have empty : Indexed { compilation } := indexed_after compilation []
  refine ⟨empty.typeNames_applyAll [] rfl calls, indexed, fun more => ?_, ?_⟩
  · rw [after_append]
    exact indexed.keeps_applyAll more
  intro call name kind registered
  have registers := registers_apply indexed registered
  have next := indexed.apply call
  have now : ((after compilation calls).apply call).2.resolveType? name =
      some ⟨((after compilation calls).apply call).1⟩ := by simp [registers.resolves]
  -- A name that resolves once resolves to the same id in every later table.
  have ever (more : List Call) : (after compilation (calls ++ call :: more)).resolveType? name =
      some ⟨((after compilation calls).apply call).1⟩ := by
    rw [after_append]
    exact (next.keeps_applyAll more).resolves next (next.applyAll more) now
  refine ⟨⟨((after compilation calls).apply call).1⟩, rfl, fun more => ⟨ever more, ?_⟩, ?_, ?_⟩
  · intro again other registeredAgain
    have later := indexed_after compilation (calls ++ call :: more)
    exact congrArg TypeId.index
      ((registers_apply later registeredAgain).id_unique later (ever more))
  · rw [after_append]
    exact registers.entry
  · rw [after_append]
    exact registers.others

/-- An interface and a class; each is registered again, the interface as a class. -/
def renewed : List Call :=
  [.type "Scope" .interfaceType, .classType "Holder" (some ⟨0⟩) [],
    .classType "Scope" (some ⟨1⟩) [⟨1⟩]]

theorem renewed_names_and_ids :
    (after ⟨1⟩ renewed).typeNames = ["Scope", "Holder"] ∧
      Call.registered? (.type "Holder" .object) = some ("Holder", .object) ∧
      ((after ⟨1⟩ renewed).apply (.type "Holder" .object)).1 = 1 ∧
      (after ⟨1⟩ renewed).type? ⟨0⟩ = some ⟨"Scope", .interfaceType, some ⟨1⟩, [⟨1⟩]⟩ ∧
      (after ⟨1⟩ (renewed ++ [.type "Holder" .object])).type? ⟨0⟩ =
        (after ⟨1⟩ renewed).type? ⟨0⟩ := by
  obtain ⟨names, -, -, registers⟩ := names_and_ids_stay_in_bijection ⟨1⟩ renewed
  obtain ⟨id, number, -, -, others⟩ := registers (.type "Holder" .object) "Holder" .object rfl
  have second : ((after ⟨1⟩ renewed).apply (.type "Holder" .object)).1 = 1 := by decide +kernel
  have apart : (⟨0⟩ : TypeId) ≠ id := by
    rintro rfl
    rw [second] at number
    contradiction
  exact ⟨names.trans (by decide +kernel), rfl, second, by decide +kernel, others ⟨0⟩ apart⟩

end PathCompletion.SymbolTable
