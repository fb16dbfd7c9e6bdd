import PathCompletion.Completion.Kind
import PathCompletion.Dataflow.Domain
import PathCompletion.PointsTo.Location

/-!
Completion values: a kind, and as evidence the sites of the completions and escapes that
led to it. Values form a domain; states give a value to each tracked location.
-/

namespace PathCompletion

structure Value where
  kind : Kind
  evidence : SortedSet Site := ∅
  deriving DecidableEq

namespace Value

def nonTarget : Value := ⟨.nonTarget, ∅⟩

def invalid : Value := ⟨.invalid, ∅⟩

def notCompleted : Value := ⟨.notCompleted, ∅⟩

def unknown : Value := ⟨.unknown, ∅⟩

def WellFormed (v : Value) : Prop := v.kind.hasEmptyEvidence = v.evidence.isEmpty

instance (v : Value) : Decidable v.WellFormed := inferInstanceAs (Decidable (_ = _))

def complete? (v : Value) (site : Site) : Option Value :=
  match v.kind with
  | .nonTarget => none
  | _ => some ⟨.completed, v.evidence.insert site⟩

/-- The value after an escape at `site`, which is then its only evidence. What is no
target, or unknown, has none. -/
def escape? (v : Value) (site : Site) : Option Value :=
  match v.kind with
  | .nonTarget | .unknown => none
  | _ => some ⟨.escaped, .singleton site⟩

def invalidate? (v : Value) : Option Value :=
  match v.kind with
  | .nonTarget => none
  | _ => some invalid

def render (v : Value) : String :=
  if v.evidence.isEmpty then v.kind.name
  else v.kind.name ++ "\x7b" ++ ", ".intercalate (v.evidence.toList.map Site.render) ++ "\x7d"

/-- The value where two paths meet. A path on which the instance cannot exist adds
nothing; otherwise what is no target, and then what is unknown, stays so. -/
def merge (a b : Value) : Value :=
  if a.kind = .invalid then b
  else if b.kind = .invalid then a
  else if a.kind = .nonTarget ∨ b.kind = .nonTarget then nonTarget
  else if a.kind = .unknown ∨ b.kind = .unknown then unknown
  else if a.kind = .notCompleted ∧ b.kind = .notCompleted then notCompleted
  else ⟨(a.kind.merge? b.kind).getD .maybeCompleted, a.evidence ∪ b.evidence⟩

/-- Values of one kind grow with their evidence. Between kinds the order of declaration
counts, except that `invalid` and `completed` may follow every kind. -/
def compare (old new : Value) : Ordering :=
  if old = new then .eq
  else if old.kind = new.kind then
    if old.evidence.isSubset new.evidence then .lt else .gt
  else if old.kind.rank < new.kind.rank ∨ new.kind = .invalid ∨ new.kind = .completed then .lt
  else .gt

def domain : Domain Value where
  bottom := nonTarget
  unknown := unknown
  compare := compare
  merge := merge

end Value

abbrev State := SortedMap Location Value

def State.domain : Domain State := Value.domain.map

end PathCompletion
