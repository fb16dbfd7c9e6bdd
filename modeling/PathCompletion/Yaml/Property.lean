import PathCompletion.Yaml.Cursor

/-!
Properties of nodes and of documents: names of anchors, tags, and the directives that give the
version of a document and the meaning of its tag handles.
-/

namespace PathCompletion.Yaml

def isNameChar (c : Char) : Bool := c.isAlphanum || c = '_' || c = '-'

/-! ### Anchors -/

def readName (cursor : Cursor) : Option (List Char × Cursor) :=
  let name := cursor.run isNameChar
  let after := cursor.skip isNameChar
  let ends := endsWord after.next? ||
    after.next?.any (· ∈ ['?', ':', ',', ']', '\x7d', '%', '@', '\x60'])
  if !name.isEmpty && ends then some (name, after) else none

/-! ### Tags -/

/-- Characters of a tag. A comma and square brackets belong to it only where brackets or a
directive enclose it. -/
def isTagChar (enclosed : Bool) (c : Char) : Bool :=
  isNameChar c || c ∈ [';', '/', '?', ':', '@', '&', '=', '+', '$', '.', '%', '!', '~', '*',
    '\x27', '(', ')'] || enclosed && c ∈ [',', '[', ']']

def octet? : List Char → Option Nat
  | '%' :: high :: low :: _ => digits? 16 [high, low]
  | _ => none

def leadingOctet? (octet : Nat) : Option (Nat × Nat) :=
  if octet < 0x80 then some (0, octet)
  else if octet < 0xC0 then none
  else if octet < 0xE0 then some (1, octet - 0xC0)
  else if octet < 0xF0 then some (2, octet - 0xE0)
  else if octet < 0xF8 then some (3, octet - 0xF0)
  else none

def trailingOctets : Nat → Nat → List Char → Option Nat
  | 0, code, _ => some code
  | count + 1, code, s => do
      let octet ← octet? s
      if 0x80 ≤ octet ∧ octet < 0xC0 then
        trailingOctets count (code * 0x40 + (octet - 0x80)) (s.drop 3)
      else none

/-- The character of a number that is written in one octet and some more; the replacement
character when there is none or fewer octets would do. -/
def octetsChar (more code : Nat) : Char :=
  let least := match more with
    | 0 => 0
    | 1 => 0x80
    | 2 => 0x800
    | _ => 0x10000
  if least ≤ code ∧ code.isValidChar then Char.ofNat code else '\ufffd'

def readOctets (s : List Char) : Option (Char × Nat) := do
  let first ← octet? s
  let (more, bits) ← leadingOctet? first
  let code ← trailingOctets more bits (s.drop 3)
  return (octetsChar more code, 3 * (more + 1))

def tagText (enclosed : Bool) : Nat → List Char → Option (List Char × Nat)
  | _, [] => some ([], 0)
  | escaped + 1, _ :: rest =>
      (tagText enclosed escaped rest).map fun (text, width) => (text, width + 1)
  | 0, c :: rest =>
      if !isTagChar enclosed c then some ([], 0)
      else if c = '%' then do
        let (character, width) ← readOctets (c :: rest)
        let (text, more) ← tagText enclosed (width - 1) rest
        return (character :: text, more + 1)
      else (tagText enclosed 0 rest).map fun (text, width) => (c :: text, width + 1)

def readTagText (enclosed : Bool) (cursor : Cursor) : Option (List Char × Cursor) := do
  let (text, width) ← tagText enclosed 0 cursor.rest
  return (text.takeWhile (· ≠ '\x00'), cursor.advance width)

def readNonemptyTagText (enclosed : Bool) (cursor : Cursor) : Option (List Char × Cursor) := do
  let (text, after) ← readTagText enclosed cursor
  if after.offset = cursor.offset then none else return (text, after)

structure TagName where
  handle : List Char
  suffix : List Char
  deriving DecidableEq

def readTagName (cursor : Cursor) : Option (TagName × Cursor) :=
  let start := cursor.advance 1
  if start.next? = some '<' then do
    let (suffix, after) ← readNonemptyTagText true (start.advance 1)
    if after.next? = some '>' then return (⟨[], suffix⟩, after.advance 1) else none
  else
    let name := start.run isNameChar
    let after := start.skip isNameChar
    -- A second mark makes the name a handle; without it the name starts the suffix.
    if after.next? = some '!' then do
      let (suffix, last) ← readNonemptyTagText false (after.advance 1)
      return (⟨'!' :: name ++ ['!'], suffix⟩, last)
    else do
      let (more, last) ← readTagText false after
      let suffix := name ++ more
      return (if suffix.isEmpty then ⟨[], ['!']⟩ else ⟨['!'], suffix⟩, last)

def readTag (inFlow : Bool) (cursor : Cursor) : Option (TagName × Cursor) := do
  let (tag, after) ← readTagName cursor
  if inFlow && after.next? = some ',' || endsWord after.next? then return (tag, after) else none

/-! ### Directives -/

inductive Directive where
  | version (major minor : Nat)
  | handle (handle meaning : List Char)
  deriving DecidableEq

def readVersionNumber (cursor : Cursor) : Option (Nat × Cursor) := do
  let digits := cursor.run Char.isDigit
  let number ← digits? 10 digits
  if digits.length ≤ 9 then return (number, cursor.skip Char.isDigit) else none

def readVersion (cursor : Cursor) : Option (Directive × Cursor) := do
  let (major, after) ← readVersionNumber cursor
  if after.next? ≠ some '.' then none
  let (minor, last) ← readVersionNumber (after.advance 1)
  return (.version major minor, last)

/-- A handle is an exclamation mark, or a name, which may be empty, between two. -/
def readHandle (cursor : Cursor) : Option (List Char × Cursor) :=
  if cursor.next? ≠ some '!' then none
  else
    let start := cursor.advance 1
    let name := start.run isNameChar
    let after := start.skip isNameChar
    if after.next? = some '!' then some ('!' :: name ++ ['!'], after.advance 1)
    else if name.isEmpty then some (['!'], after)
    else none

def readHandleMeaning (cursor : Cursor) : Option (Directive × Cursor) := do
  let (handle, after) ← readHandle cursor
  if !after.next?.any isSpace then none
  let (meaning, last) ← readNonemptyTagText true (after.skip isSpace)
  if endsWord last.next? then return (.handle handle meaning, last) else none

def readDirective (cursor : Cursor) : Option (Directive × Cursor) := do
  let start := cursor.advance 1
  let name := start.run isNameChar
  let after := start.skip isNameChar
  if !endsWord after.next? then none
  let (directive, last) ←
    if name = "YAML".toList then readVersion (after.skip isSpace)
    else if name = "TAG".toList then readHandleMeaning (after.skip isSpace)
    else none
  return (directive, ← last.finishLine)

end PathCompletion.Yaml
