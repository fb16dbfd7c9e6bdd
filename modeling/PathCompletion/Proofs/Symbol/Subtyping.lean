import Mathlib.Logic.Relation
import PathCompletion.Proofs.Worklist
import PathCompletion.Symbol.Table

/-!
Subtyping in a table of types. A type is a target exactly if steps to bases and interfaces lead
from it to the target. That holds of every table: types may be their own supertypes, bases may run
in a circle, and a type that is named as a base need not be in the table.
-/

namespace PathCompletion.SymbolTable

variable {t : SymbolTable} {ty super : TypeId}

inductive Extends (t : SymbolTable) (ty : TypeId) : TypeId → Prop where
  | base {entry : TypeEntry} {super : TypeId} (listed : t.type? ty = some entry)
      (isBase : entry.base = some super) : Extends t ty super
  | implements {entry : TypeEntry} {super : TypeId} (listed : t.type? ty = some entry)
      (isInterface : super ∈ entry.interfaces) : Extends t ty super

theorem mem_supertypes_iff : super ∈ t.supertypes ty ↔ t.Extends ty super := by
  unfold supertypes
  constructor
  · intro member
    split at member
    · next entry listed =>
      rcases List.mem_append.mp member with isBase | isInterface
      · exact .base listed (Option.mem_toList.mp isBase)
      · exact .implements listed isInterface
    · contradiction
  · rintro (⟨listed, isBase⟩ | ⟨listed, isInterface⟩)
    · simp [listed, isBase]
    · simp [listed, isInterface]

theorem reaches_supertypes_iff :
    Reaches t.supertypes ty super ↔ Relation.ReflTransGen t.Extends ty super := by
  constructor
  · intro reaches
    induction reaches with
    | refl => exact .refl
    | step edge _ ih => exact .head (mem_supertypes_iff.mp edge) ih
  · intro chain
    induction chain with
    | refl => exact .refl _
    | tail _ step ih => exact ih.snoc (mem_supertypes_iff.mpr step)

def places (t : SymbolTable) : List TypeId := (List.range t.types.length).map .mk

theorem supertypes_of_not_mem_places (absent : ty ∉ t.places) : t.supertypes ty = [] := by
  have outside : t.types.length ≤ ty.index := by
    by_contra inside
    exact absent (List.mem_map.mpr ⟨ty.index, List.mem_range.mpr (Nat.lt_of_not_le inside), rfl⟩)
  simp [supertypes, type?, outside]

def links (t : SymbolTable) : Nat := (t.places.map fun ty => (t.supertypes ty).length).sum

/-- A chain of supertypes that does not come back leaves the table with its last step only, so the
walk has fuel enough for it. -/
theorem isTarget_iff : t.isTarget ty super = true ↔ Reaches t.supertypes ty super := by
  have enough : t.places.length < t.types.length + 1 := by simp [places]
  rw [isTarget, decide_eq_true_iff,
    Walk.mem_met_visitAll_iff (fun _ => supertypes_of_not_mem_places) enough]
  simp

def search (t : SymbolTable) (ty target : TypeId) (turns : Nat) : Worklist TypeId :=
  (Worklist.turn t.supertypes fun other => other = target)^[turns] { pending := [ty] }

theorem search_ends (t : SymbolTable) (ty target : TypeId) :
    ∃ turns ≤ t.links + 1, (t.search ty target turns).Ended ∧
      (t.search ty target turns).found = t.isTarget ty target := by
  obtain ⟨turns, within, w, ran, ended, found⟩ := Worklist.search_ends t.supertypes
    (fun other => other = target) (fun _ => supertypes_of_not_mem_places) [ty]
  refine ⟨turns, by simpa [links, Nat.add_comm] using within, ?_⟩
  rw [search, ran, Bool.eq_iff_iff, found, isTarget_iff]
  simpa using ended

/-- A type is a target exactly if some number of base and interface steps, none included, lead
there. The search for it with a list of pending types ends in every table, with this answer. So
to be a target is reflexive and transitive. -/
theorem target_iff_steps_lead_there (t : SymbolTable) (ty target : TypeId) :
    (t.isTarget ty target = true ↔ Relation.ReflTransGen t.Extends ty target) ∧
    (∃ turns ≤ t.links + 1, (t.search ty target turns).Ended ∧
      (t.search ty target turns).found = t.isTarget ty target) ∧
    t.isTarget ty ty = true ∧
    ∀ other, t.isTarget ty target = true → t.isTarget target other = true →
      t.isTarget ty other = true := by
  refine ⟨isTarget_iff.trans reaches_supertypes_iff, t.search_ends ty target,
    isTarget_iff.mpr (.refl ty), fun other first second => ?_⟩
  rw [isTarget_iff] at first second ⊢
  exact first.trans second

/-- Two classes that are each other's base, after one of them was registered again. The one has
itself as an interface, the other a type that is not in the table. -/
def entwined : SymbolTable :=
  (applyAll { compilation := ⟨0⟩ }
    [.classType "First" (some ⟨1⟩) [], .type "Other" .interfaceType,
      .classType "Second" (some ⟨0⟩) [⟨7⟩], .classType "First" (some ⟨2⟩) [⟨0⟩]]).2

theorem entwined_target_iff_steps_lead_there :
    Relation.ReflTransGen entwined.Extends ⟨0⟩ ⟨7⟩ ∧
      ¬ Relation.ReflTransGen entwined.Extends ⟨2⟩ ⟨1⟩ ∧
      ∃ turns ≤ 5, (entwined.search ⟨2⟩ ⟨1⟩ turns).Ended ∧
        (entwined.search ⟨2⟩ ⟨1⟩ turns).found = false := by
  have up : entwined.isTarget ⟨0⟩ ⟨7⟩ = true := by decide +kernel
  have apart : entwined.isTarget ⟨2⟩ ⟨1⟩ = false := by decide +kernel
  have links : entwined.links = 4 := by decide +kernel
  obtain ⟨iff, -⟩ := target_iff_steps_lead_there entwined ⟨0⟩ ⟨7⟩
  obtain ⟨iffApart, ends, -⟩ := target_iff_steps_lead_there entwined ⟨2⟩ ⟨1⟩
  rw [links, apart] at ends
  refine ⟨iff.mp up, fun chain => ?_, ends⟩
  rw [iffApart.mpr chain] at apart
  contradiction

end PathCompletion.SymbolTable
