import PathCompletion.Yaml.Property

/-!
Tokens of a document. Anchors are numbered as they come, so that no token holds their names.
-/

namespace PathCompletion.Yaml

/-! ### Scalars -/

inductive Style where
  | plain
  | singleQuoted
  | doubleQuoted
  | literal
  | folded
  deriving DecidableEq

/-! ### Anchors -/

abbrev Anchors := List (List Char × Nat)

namespace Anchors

/-- A new anchor has the number of names before it. Its name goes over to it, even if another
anchor had the name. -/
def declare (anchors : Anchors) (name : List Char) : Nat × Anchors :=
  (anchors.length, (name, anchors.length) :: anchors.filter (·.1 ≠ name))

def find? (anchors : Anchors) (name : List Char) : Option Nat := anchors.lookup name

end Anchors

/-! ### Tokens -/

inductive Token where
  | directive (directive : Directive)
  | documentStart
  | documentEnd
  | blockSequence
  | blockMapping
  | blockEnd
  | flowSequence
  | flowSequenceEnd
  | flowMapping
  | flowMappingEnd
  | blockEntry
  | flowEntry
  | key
  | value
  | anchor (id : Nat)
  | reference (id : Nat)
  | tag (tag : TagName)
  | scalar (style : Style) (text : List Char)
  deriving DecidableEq

end PathCompletion.Yaml
