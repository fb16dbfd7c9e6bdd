import PathCompletion.Symbol.Resolver

/-!
Rules, and the symbols they are about. A rule names a type whose instances must be
completed and the method that completes them.
-/

namespace PathCompletion

structure Rule where
  /-- Appears in findings, and scopes options. -/
  id : String
  targetType : String
  completionMethod : String
  deriving DecidableEq

/-- A transaction scope that is disposed before it is completed rolls back. -/
def Rule.transactionScope : Rule :=
  ⟨"XA0001", "System.Transactions.TransactionScope", "Complete"⟩

structure Target where
  type : TypeId
  completion : MethodId
  deriving DecidableEq

def Rule.resolve? (rule : Rule) (resolver : Resolver) : Option Target := do
  let type ← resolver.resolveType rule.targetType
  let completion ← resolver.findInstanceMethod type rule.completionMethod
  return ⟨type, completion⟩

structure Resolutions where
  entries : List ((CompilationId × String × String) × Option Target) := []

namespace Resolutions

def size (r : Resolutions) : Nat := r.entries.length

def isEmpty (r : Resolutions) : Bool := r.entries.isEmpty

def get (r : Resolutions) (resolver : Resolver) (rule : Rule) : Option Target × Resolutions :=
  let name := (resolver.compilation, rule.targetType, rule.completionMethod)
  match r.entries.lookup name with
  | some target => (target, r)
  | none =>
      let target := rule.resolve? resolver
      (target, ⟨(name, target) :: r.entries⟩)

end Resolutions

end PathCompletion
