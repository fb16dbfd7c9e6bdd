import PathCompletion.Identifier

/-!
What the analysis asks about the types and methods of a compilation.
-/

namespace PathCompletion

inductive TypeKind where
  | object
  | delegate
  | boolean
  | valueType
  /-- A struct that is tracked like a reference. -/
  | refLikeValueType
  | classType
  | interfaceType
  deriving DecidableEq

namespace TypeKind

def all : List TypeKind :=
  [.object, .delegate, .boolean, .valueType, .refLikeValueType, .classType, .interfaceType]

def isReferenceLike : TypeKind → Bool
  | .valueType | .boolean => false
  | .object | .delegate | .refLikeValueType | .classType | .interfaceType => true

def name : TypeKind → String
  | .object => "Object"
  | .delegate => "Delegate"
  | .boolean => "Boolean"
  | .valueType => "ValueType"
  | .refLikeValueType => "RefLikeValueType"
  | .classType => "Class"
  | .interfaceType => "Interface"

end TypeKind

structure Signature where
  name : String
  containingType : TypeId
  isStatic : Bool
  isConstructor : Bool
  returnType : Option TypeId
  parameterTypes : List TypeId
  deriving DecidableEq

structure Resolver where
  compilation : CompilationId
  resolveType : String → Option TypeId
  /-- The first instance method of a type with a name. -/
  findInstanceMethod : TypeId → String → Option MethodId
  /-- `isTarget ty target`: `ty` is `target`, derives from it or implements it. -/
  isTarget : TypeId → TypeId → Bool
  typeKind : TypeId → Option TypeKind
  method : MethodId → Option Signature

end PathCompletion
