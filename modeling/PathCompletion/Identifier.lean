import PathCompletion.Sorted.Set

/-!
Identities that a host hands out: symbols, procedures, operations, blocks. The
analysis compares them and prints them, and never looks inside.
-/

namespace PathCompletion

structure TypeId where
  index : Nat
  deriving DecidableEq

structure MethodId where
  index : Nat
  deriving DecidableEq

structure FieldId where
  index : Nat
  deriving DecidableEq

structure LocalId where
  index : Nat
  deriving DecidableEq

structure ProcedureId where
  index : Nat
  deriving DecidableEq

structure CompilationId where
  index : Nat
  deriving DecidableEq

structure OperationId where
  index : Nat
  deriving DecidableEq

structure BlockId where
  index : Nat
  deriving DecidableEq

structure RegionId where
  index : Nat
  deriving DecidableEq

structure Site where
  procedure : ProcedureId
  operation : OperationId
  deriving DecidableEq

/-! ### Text -/

def TypeId.render (id : TypeId) : String := s!"type#{id.index}"

def MethodId.render (id : MethodId) : String := s!"method#{id.index}"

def FieldId.render (id : FieldId) : String := s!"field#{id.index}"

def LocalId.render (id : LocalId) : String := s!"local#{id.index}"

def ProcedureId.render (id : ProcedureId) : String := s!"proc#{id.index}"

def CompilationId.render (id : CompilationId) : String := s!"compilation#{id.index}"

def OperationId.render (id : OperationId) : String := s!"op#{id.index}"

def BlockId.render (id : BlockId) : String := s!"B{id.index}"

def Site.render (site : Site) : String :=
  site.procedure.render ++ ":" ++ site.operation.render

/-! ### Order -/

instance : Key TypeId where
  key id := [id.index]
  injective := by
    rintro ⟨a⟩ ⟨b⟩ same
    simp_all

instance : Key MethodId where
  key id := [id.index]
  injective := by
    rintro ⟨a⟩ ⟨b⟩ same
    simp_all

instance : Key FieldId where
  key id := [id.index]
  injective := by
    rintro ⟨a⟩ ⟨b⟩ same
    simp_all

instance : Key LocalId where
  key id := [id.index]
  injective := by
    rintro ⟨a⟩ ⟨b⟩ same
    simp_all

instance : Key OperationId where
  key id := [id.index]
  injective := by
    rintro ⟨a⟩ ⟨b⟩ same
    simp_all

instance : Key BlockId where
  key id := [id.index]
  injective := by
    rintro ⟨a⟩ ⟨b⟩ same
    simp_all

/-- Sites are ordered by procedure, then by operation. -/
instance : Key Site where
  key site := [site.procedure.index, site.operation.index]
  injective := by
    rintro ⟨⟨p⟩, ⟨o⟩⟩ ⟨⟨p'⟩, ⟨o'⟩⟩ same
    simp_all

end PathCompletion
