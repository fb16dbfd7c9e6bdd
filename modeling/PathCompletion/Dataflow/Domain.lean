import PathCompletion.Sorted.Map

/-!
Domains of abstract values: what paths that meet are joined with, and how an old value is
compared with the new one that replaces it. A domain of values lifts to maps key by key.
-/

namespace PathCompletion

/-- `compare old new` is `.gt` when `new` is not a legal successor of `old`. -/
structure Domain (V : Type) where
  bottom : V
  unknown : V
  compare : V → V → Ordering
  merge : V → V → V

namespace Domain

variable {κ V : Type} [Key κ]

def joinOnto (d : Domain V) (start : Option V) (values : List V) : Option V :=
  values.foldl
    (fun joined value => match joined with
      | some v => some (d.merge v value)
      | none => some value) start

/-- Joins what arrives along forward edges with what arrives along back edges. Where only
one side has a value, that value stands. -/
def mergeBackEdge (d : Domain V) : Option V → Option V → Option V
  | some forward, some back => some (d.merge forward back)
  | some forward, none => some forward
  | none, back => back

def compareMaps (d : Domain V) (old new : SortedMap κ V) : Ordering :=
  if old.entries.any fun entry => !new.contains entry.1 then .gt
  else
    let verdicts := old.entries.filterMap fun entry =>
      (new.get? entry.1).map (d.compare entry.2)
    if .gt ∈ verdicts then .gt
    else if old.size = new.size ∧ ∀ verdict ∈ verdicts, verdict = .eq then .eq
    else .lt

def map (d : Domain V) : Domain (SortedMap κ V) where
  bottom := ∅
  unknown := ∅
  compare := d.compareMaps
  merge := .mergeWith d.merge

end Domain

end PathCompletion
