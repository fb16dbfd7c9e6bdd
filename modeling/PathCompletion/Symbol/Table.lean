import PathCompletion.Symbol.Resolver
import PathCompletion.Reach

/-!
A table of types and methods. Types have at most one base and any number of interfaces;
ids are places in the table. A name is given to one type only.
-/

namespace PathCompletion

structure TypeEntry where
  name : String
  kind : TypeKind
  base : Option TypeId := none
  interfaces : List TypeId := []
  deriving DecidableEq

structure SymbolTable where
  compilation : CompilationId
  types : List TypeEntry := []
  /-- The place of each name in the list of types. -/
  byName : SortedMap String TypeId := ∅
  methods : List Signature := []
  deriving DecidableEq

namespace SymbolTable

def type? (t : SymbolTable) (ty : TypeId) : Option TypeEntry := t.types[ty.index]?

def typeName? (t : SymbolTable) (ty : TypeId) : Option String := (t.type? ty).map TypeEntry.name

def resolveType? (t : SymbolTable) (name : String) : Option TypeId := t.byName.get? name

/-- The id of a type and the table that has it. A name that is there already keeps its
id, and its entry is left alone. -/
def addType (t : SymbolTable) (name : String) (kind : TypeKind) : TypeId × SymbolTable :=
  match t.resolveType? name with
  | some id => (id, t)
  | none =>
      let id : TypeId := ⟨t.types.length⟩
      (id, { t with types := t.types ++ [{ name, kind }], byName := t.byName.insert name id })

def addClass (t : SymbolTable) (name : String) (base : Option TypeId)
    (interfaces : List TypeId) : TypeId × SymbolTable :=
  let (id, added) := t.addType name .classType
  (id, { added with types := added.types.modify id.index fun entry : TypeEntry =>
    { entry with base, interfaces } })

def addMethod (t : SymbolTable) (signature : Signature) : MethodId × SymbolTable :=
  (⟨t.methods.length⟩, { t with methods := t.methods ++ [signature] })

inductive Call where
  | type (name : String) (kind : TypeKind)
  | classType (name : String) (base : Option TypeId) (interfaces : List TypeId)
  | constructor (containingType : TypeId) (parameterTypes : List TypeId)
  | instanceMethod (containingType : TypeId) (name : String) (parameterTypes : List TypeId)
      (returnType : Option TypeId)
  | staticMethod (containingType : TypeId) (name : String) (parameterTypes : List TypeId)
      (returnType : Option TypeId)
  | method (signature : Signature)

def constructorName : String := ".ctor"

def apply (t : SymbolTable) : Call → Nat × SymbolTable
  | .type name kind =>
      let (id, next) := t.addType name kind
      (id.index, next)
  | .classType name base interfaces =>
      let (id, next) := t.addClass name base interfaces
      (id.index, next)
  | .constructor containingType parameterTypes =>
      let (id, next) := t.addMethod
        ⟨constructorName, containingType, false, true, none, parameterTypes⟩
      (id.index, next)
  | .instanceMethod containingType name parameterTypes returnType =>
      let (id, next) := t.addMethod
        ⟨name, containingType, false, false, returnType, parameterTypes⟩
      (id.index, next)
  | .staticMethod containingType name parameterTypes returnType =>
      let (id, next) := t.addMethod
        ⟨name, containingType, true, false, returnType, parameterTypes⟩
      (id.index, next)
  | .method signature =>
      let (id, next) := t.addMethod signature
      (id.index, next)

def applyAll (t : SymbolTable) : List Call → List Nat × SymbolTable
  | [] => ([], t)
  | call :: rest =>
      let (id, next) := t.apply call
      let (ids, last) := next.applyAll rest
      (id :: ids, last)

def supertypes (t : SymbolTable) (ty : TypeId) : List TypeId :=
  match t.type? ty with
  | some entry => entry.base.toList ++ entry.interfaces
  | none => []

/-- A type is a target when base and interface steps lead to the target. The last type of
a chain need not be in the table. -/
def isTarget (t : SymbolTable) (ty target : TypeId) : Bool :=
  target ∈ (Walk.visitAll t.supertypes (t.types.length + 1) [ty]).met

def method? (t : SymbolTable) (method : MethodId) : Option Signature := t.methods[method.index]?

def findInstanceMethod? (t : SymbolTable) (ty : TypeId) (name : String) : Option MethodId :=
  (t.methods.findIdx? fun m =>
    m.containingType = ty && !m.isStatic && !m.isConstructor && m.name = name).map MethodId.mk

def resolver (t : SymbolTable) : Resolver where
  compilation := t.compilation
  resolveType := t.resolveType?
  findInstanceMethod := t.findInstanceMethod?
  isTarget := t.isTarget
  typeKind ty := (t.type? ty).map TypeEntry.kind
  method := t.method?

end SymbolTable

end PathCompletion
