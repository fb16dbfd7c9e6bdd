import PathCompletion.Yaml.Token

/-!
Nodes: scalars, sequences and mappings, and references to anchored nodes. A text holds one
document, that is one node, or none.
-/

namespace PathCompletion.Yaml

structure Scalar where
  tag : Option (List Char)
  style : Style
  text : List Char
  deriving DecidableEq

inductive Node where
  | reference (id : Nat)
  | scalar (anchor : Option Nat) (content : Scalar)
  | sequence (anchor : Option Nat) (items : List Node)
  | mapping (anchor : Option Nat) (entries : List (Node × Node))

/-! ### Tags -/

abbrev Handles := List (List Char × List Char)

def standardHandles : Handles :=
  [(['!'], ['!']), (['!', '!'], "tag:yaml.org,2002:".toList)]

def TagName.resolve (handles : Handles) (tag : TagName) : Option (List Char) :=
  if tag.handle.isEmpty then some tag.suffix
  else (handles.lookup tag.handle).map (· ++ tag.suffix)

structure Properties where
  anchor : Option Nat
  tag : Option (List Char)

namespace Properties

def read (handles : Handles) : List Token → Option (Properties × List Token)
  | .anchor id :: .tag tag :: rest | .tag tag :: .anchor id :: rest =>
      (tag.resolve handles).map fun tag => (⟨some id, some tag⟩, rest)
  | .anchor id :: rest => some (⟨some id, none⟩, rest)
  | .tag tag :: rest => (tag.resolve handles).map fun tag => (⟨none, some tag⟩, rest)
  | rest => some (⟨none, none⟩, rest)

/-- A scalar with these properties. The tag of a lone exclamation mark says nothing. -/
def scalar (properties : Properties) (style : Style) (text : List Char) : Node :=
  .scalar properties.anchor ⟨properties.tag.filter (· ≠ ['!']), style, text⟩

def bare? (properties : Properties) : Option Node :=
  if properties.anchor.isSome || properties.tag.isSome then
    some (.scalar properties.anchor ⟨properties.tag, .plain, []⟩)
  else none

end Properties

/-! ### Nodes -/

namespace Node

def empty : Node := .scalar none ⟨none, .plain, []⟩

/-- Where a node stands: inside brackets, in a block, or as the key or value of a mapping in
block style. A sequence there need not be deeper than the mapping. -/
inductive Place where
  | flow
  | block
  | entry
  deriving DecidableEq

def omitted (kind : Token → Bool) : List Token → Bool
  | [] => false
  | token :: _ => kind token

def endsBlockItem (token : Token) : Bool := token = .blockEntry || token = .blockEnd

def endsBlockPart (token : Token) : Bool :=
  token = .key || token = .value || token = .blockEnd

def endsFlowItem (token : Token) : Bool := token = .flowEntry || token = .flowSequenceEnd

def endsFlowPair (token : Token) : Bool := token = .flowEntry || token = .flowMappingEnd

def endsLooseItem (token : Token) : Bool := token = .blockEntry || endsBlockPart token

mutual

def parse (handles : Handles) : Nat → Place → List Token → Option (Node × List Token)
  | 0, _, _ => none
  | _ + 1, _, .reference id :: rest => some (.reference id, rest)
  | fuel + 1, place, tokens => do
      let (properties, rest) ← Properties.read handles tokens
      let bare := properties.bare?.map fun node => (node, rest)
      match rest with
      | .scalar style text :: rest => return (properties.scalar style text, rest)
      | .flowSequence :: rest =>
          let (items, rest) ← flowItems handles fuel true rest
          return (.sequence properties.anchor items, rest)
      | .flowMapping :: rest =>
          let (entries, rest) ← flowEntries handles fuel true rest
          return (.mapping properties.anchor entries, rest)
      | .blockEntry :: _ =>
          if place = .entry then
            let (items, rest) ← looseItems handles fuel rest
            return (.sequence properties.anchor items, rest)
          else bare
      | .blockSequence :: rest =>
          if place = .flow then bare
          else
            let (items, rest) ← blockItems handles fuel rest
            return (.sequence properties.anchor items, rest)
      | .blockMapping :: rest =>
          if place = .flow then bare
          else
            let (entries, rest) ← blockEntries handles fuel rest
            return (.mapping properties.anchor entries, rest)
      | _ => bare

def parseUnless (handles : Handles) (kind : Token → Bool) :
    Nat → Place → List Token → Option (Node × List Token)
  | 0, _, _ => none
  | fuel + 1, place, tokens =>
      if omitted kind tokens then some (empty, tokens) else parse handles fuel place tokens

def blockItems (handles : Handles) : Nat → List Token → Option (List Node × List Token)
  | 0, _ => none
  | fuel + 1, .blockEntry :: rest => do
      let (item, rest) ← parseUnless handles endsBlockItem fuel .block rest
      let (items, rest) ← blockItems handles fuel rest
      return (item :: items, rest)
  | _ + 1, .blockEnd :: rest => some ([], rest)
  | _ + 1, _ => none

def looseItems (handles : Handles) : Nat → List Token → Option (List Node × List Token)
  | 0, _ => none
  | fuel + 1, .blockEntry :: rest => do
      let (item, rest) ← parseUnless handles endsLooseItem fuel .block rest
      let (items, rest) ← looseItems handles fuel rest
      return (item :: items, rest)
  | _ + 1, rest => some ([], rest)

def blockEntries (handles : Handles) :
    Nat → List Token → Option (List (Node × Node) × List Token)
  | 0, _ => none
  | fuel + 1, .key :: rest => do
      let (key, rest) ← parseUnless handles endsBlockPart fuel .entry rest
      let (value, rest) ← blockValue handles fuel rest
      let (entries, rest) ← blockEntries handles fuel rest
      return ((key, value) :: entries, rest)
  | _ + 1, .blockEnd :: rest => some ([], rest)
  | _ + 1, _ => none

def blockValue (handles : Handles) : Nat → List Token → Option (Node × List Token)
  | 0, _ => none
  | fuel + 1, .value :: rest => parseUnless handles endsBlockPart fuel .entry rest
  | _ + 1, rest => some (empty, rest)

def flowItems (handles : Handles) : Nat → Bool → List Token → Option (List Node × List Token)
  | 0, _, _ => none
  | _ + 1, _, .flowSequenceEnd :: rest => some ([], rest)
  | fuel + 1, true, tokens => flowItem handles fuel tokens
  | _ + 1, false, .flowEntry :: .flowSequenceEnd :: rest => some ([], rest)
  | fuel + 1, false, .flowEntry :: rest => flowItem handles fuel rest
  | _ + 1, false, _ => none

/-- An item of a sequence in brackets, and those after it. A key makes it a mapping of one
entry; a token before which this key is left out is passed over. -/
def flowItem (handles : Handles) : Nat → List Token → Option (List Node × List Token)
  | 0, _ => none
  | fuel + 1, .key :: rest => do
      let (key, rest) ←
        if omitted (fun token => token = .value || endsFlowItem token) rest then
          some (empty, rest.tail)
        else parse handles fuel .flow rest
      let (value, rest) ← flowValue handles endsFlowItem fuel rest
      let (items, rest) ← flowItems handles fuel false rest
      return (.mapping none [(key, value)] :: items, rest)
  | fuel + 1, tokens => do
      let (item, rest) ← parse handles fuel .flow tokens
      let (items, rest) ← flowItems handles fuel false rest
      return (item :: items, rest)

def flowEntries (handles : Handles) :
    Nat → Bool → List Token → Option (List (Node × Node) × List Token)
  | 0, _, _ => none
  | _ + 1, _, .flowMappingEnd :: rest => some ([], rest)
  | fuel + 1, true, tokens => flowPair handles fuel tokens
  | _ + 1, false, .flowEntry :: .flowMappingEnd :: rest => some ([], rest)
  | fuel + 1, false, .flowEntry :: rest => flowPair handles fuel rest
  | _ + 1, false, _ => none

def flowPair (handles : Handles) : Nat → List Token → Option (List (Node × Node) × List Token)
  | 0, _ => none
  | fuel + 1, .key :: rest => do
      let (key, rest) ←
        parseUnless handles (fun token => token = .value || endsFlowPair token) fuel .flow rest
      let (value, rest) ← flowValue handles endsFlowPair fuel rest
      let (entries, rest) ← flowEntries handles fuel false rest
      return ((key, value) :: entries, rest)
  | fuel + 1, tokens => do
      let (key, rest) ← parse handles fuel .flow tokens
      let (entries, rest) ← flowEntries handles fuel false rest
      return ((key, empty) :: entries, rest)

def flowValue (handles : Handles) (ends : Token → Bool) :
    Nat → List Token → Option (Node × List Token)
  | 0, _ => none
  | fuel + 1, .value :: rest => parseUnless handles ends fuel .flow rest
  | _ + 1, rest => some (empty, rest)

end

/-- Enough steps to parse some tokens: no three of them go by without a token. -/
def fuel (tokens : List Token) : Nat := 3 * tokens.length + 3

end Node

/-! ### Documents -/

def readDirectives : List Token → List Directive × List Token
  | .directive directive :: rest =>
      let (directives, rest) := readDirectives rest
      (directive :: directives, rest)
  | rest => ([], rest)

/-- The handles that directives declare, before the standard ones. At most one directive gives
the version, 1.1 or 1.2, and no handle is declared twice. -/
def declaredHandles (directives : List Directive) : Option Handles :=
  let versions := directives.filterMap fun
    | .version major minor => some (major, minor)
    | .handle _ _ => none
  let handles := directives.filterMap fun
    | .version _ _ => none
    | .handle handle meaning => some (handle, meaning)
  if versions.length ≤ 1 ∧ (∀ version ∈ versions, version ∈ [(1, 1), (1, 2)]) ∧
      (handles.map (·.1)).Nodup then
    some (handles ++ standardHandles)
  else none

def endsDocument : Token → Bool
  | .directive _ | .documentStart | .documentEnd => true
  | _ => false

def parseDocument (tokens : List Token) : Option (Node × List Token) := do
  let (directives, rest) := readDirectives tokens
  let handles ← declaredHandles directives
  match rest with
  | .documentStart :: rest =>
      if rest.isEmpty || Node.omitted endsDocument rest then return (.empty, rest)
      else Node.parse handles (Node.fuel rest) .block rest
  | _ =>
      if directives.isEmpty then Node.parse handles (Node.fuel rest) .block rest else none

def parseStream (tokens : List Token) : Option (Option Node) :=
  if tokens.isEmpty then some none
  else do
    let (node, rest) ← parseDocument tokens
    if rest.all (· = .documentEnd) then return some node else none

/-! ### Anchored nodes -/

namespace Node

mutual

def anchored : Node → List (Nat × Node)
  | .reference _ => []
  | .scalar anchor content => (anchor.map fun id => (id, Node.scalar anchor content)).toList
  | .sequence anchor items =>
      (anchor.map fun id => (id, Node.sequence anchor items)).toList ++ anchoredItems items
  | .mapping anchor entries =>
      (anchor.map fun id => (id, Node.mapping anchor entries)).toList ++ anchoredEntries entries

def anchoredItems : List Node → List (Nat × Node)
  | [] => []
  | item :: rest => anchored item ++ anchoredItems rest

def anchoredEntries : List (Node × Node) → List (Nat × Node)
  | [] => []
  | (key, value) :: rest => anchored key ++ anchored value ++ anchoredEntries rest

end

/-- The scalar that a node is or refers to. Of the nodes with one number, which two names may
share, the last one counts. -/
def scalar? (anchored : List (Nat × Node)) : Node → Option Scalar
  | .scalar _ content => some content
  | .reference id =>
      match anchored.reverse.lookup id with
      | some (.scalar _ content) => some content
      | _ => none
  | _ => none

end Node

end PathCompletion.Yaml
