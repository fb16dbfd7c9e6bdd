import PathCompletion.Identifier

/-!
Abstract locations: the storage cells that states are attached to. Each creation, call
result and out argument is a cell of its own; so is each parameter and each default
content of a field.
-/

namespace PathCompletion

inductive LocationKind where
  | null
  /-- What the operation at a site allocates. -/
  | allocation (site : Site)
  /-- What a parameter holds on entry. -/
  | parameter (procedure : ProcedureId) (index : Nat)
  /-- What a field of the current instance holds before it is assigned. -/
  | fieldDefault (field : FieldId)
  deriving DecidableEq

structure Location where
  kind : LocationKind
  ty : Option TypeId := none
  deriving DecidableEq

namespace Location

def null : Location := ⟨.null, none⟩

def isNull (l : Location) : Bool :=
  match l.kind with
  | .null => true
  | _ => false

def isFieldDefault (l : Location) : Bool :=
  match l.kind with
  | .fieldDefault _ => true
  | _ => false

def creation? (l : Location) : Option Site :=
  match l.kind with
  | .allocation site => some site
  | _ => none

def render (l : Location) : String :=
  let cell := match l.kind with
    | .null => "null"
    | .allocation site => "alloc:" ++ site.render
    | .parameter procedure index => "param:" ++ procedure.render ++ s!":{index}"
    | .fieldDefault field => "default:" ++ field.render
  match l.ty with
  | some ty => cell ++ ":" ++ ty.render
  | none => cell

end Location

def LocationKind.numbers : LocationKind → List Nat
  | .null => [0, 0, 0]
  | .allocation site => [1, site.procedure.index, site.operation.index]
  | .parameter procedure index => [2, procedure.index, index]
  | .fieldDefault field => [3, field.index, 0]

def Location.typeNumber : Option TypeId → Nat
  | none => 0
  | some ty => ty.index + 1

theorem LocationKind.numbers_injective {a b : LocationKind} (same : a.numbers = b.numbers) :
    a = b := by
  cases a with
  | null => cases b <;> simp_all [numbers]
  | allocation site =>
      obtain ⟨⟨p⟩, ⟨o⟩⟩ := site
      cases b with
      | allocation site' =>
          obtain ⟨⟨p'⟩, ⟨o'⟩⟩ := site'
          simp_all [numbers]
      | _ => simp [numbers] at same
  | parameter procedure index =>
      obtain ⟨p⟩ := procedure
      cases b with
      | parameter procedure' index' =>
          obtain ⟨p'⟩ := procedure'
          simp_all [numbers]
      | _ => simp [numbers] at same
  | fieldDefault field =>
      obtain ⟨f⟩ := field
      cases b with
      | fieldDefault field' =>
          obtain ⟨f'⟩ := field'
          simp_all [numbers]
      | _ => simp [numbers] at same

theorem Location.typeNumber_injective {a b : Option TypeId}
    (same : typeNumber a = typeNumber b) : a = b := by
  cases a with
  | none => cases b <;> simp_all [typeNumber]
  | some ty =>
      obtain ⟨t⟩ := ty
      cases b with
      | none => simp [typeNumber] at same
      | some ty' =>
          obtain ⟨t'⟩ := ty'
          simp_all [typeNumber]

theorem LocationKind.numbers_length (a : LocationKind) : a.numbers.length = 3 := by
  cases a <;> rfl

/-- Null comes first, then allocations, parameters and field defaults; a cell without a
type comes before the typed ones. -/
instance : Key Location where
  key l := l.kind.numbers ++ [Location.typeNumber l.ty]
  injective := by
    rintro ⟨kind, ty⟩ ⟨kind', ty'⟩ same
    have parts := List.append_inj same (by simp [LocationKind.numbers_length])
    have kinds := LocationKind.numbers_injective parts.1
    have types := Location.typeNumber_injective (List.head_eq_of_cons_eq parts.2)
    simp_all

abbrev LocationSet := SortedSet Location

end PathCompletion
