import PathCompletion.Yaml.Token
import PathCompletion.Yaml.Plain
import PathCompletion.Yaml.Quoted
import PathCompletion.Yaml.Block

/-!
The tokens of a text. Outside brackets the columns of lines open and close blocks. A node may
turn out to be a key by the colon after it: until then its place is remembered, and the token
of a key, and of a mapping that it opens, is put there when the colon comes.
-/

namespace PathCompletion.Yaml

structure PossibleKey where
  /-- How many tokens came before it. -/
  place : Nat
  offset : Nat
  line : Nat
  column : Nat
  /-- Whether nothing but a key can stand at its column. -/
  required : Bool
  deriving DecidableEq

namespace PossibleKey

/-- A key is on one line with its colon and starts at most this many octets before it. -/
def reach : Nat := 1024

def isStale (key : PossibleKey) (cursor : Cursor) : Bool :=
  key.line < cursor.line || key.offset + reach < cursor.offset

def age (cursor : Cursor) : Option PossibleKey → Option (Option PossibleKey)
  | none => some none
  | some key =>
      if key.isStale cursor then if key.required then none else some none
      else some (some key)

end PossibleKey

structure Lexer where
  cursor : Cursor
  /-- The last token comes first. -/
  tokens : List Token
  /-- The columns of the open blocks, the innermost first. -/
  blocks : List Nat
  keyAllowed : Bool
  possible : Option PossibleKey
  /-- The possible keys outside each open bracket, the innermost first. -/
  outer : List (Option PossibleKey)
  anchors : Anchors

namespace Lexer

def start (text : List Char) : Lexer := ⟨⟨text, 0, 0, 0⟩, [], [], true, none, [], []⟩

def inFlow (lexer : Lexer) : Bool := !lexer.outer.isEmpty

def emit (lexer : Lexer) (token : Token) : Lexer := { lexer with tokens := token :: lexer.tokens }

def emitAt (lexer : Lexer) (place : Nat) (token : Token) : Lexer :=
  { lexer with tokens := lexer.tokens.insertIdx (lexer.tokens.length - place) token }

def advance (lexer : Lexer) (count : Nat) : Lexer :=
  { lexer with cursor := lexer.cursor.advance count }

/-! ### Keys -/

def dropKey (lexer : Lexer) : Option Lexer :=
  if lexer.possible.any (·.required) then none else some { lexer with possible := none }

def saveKey (lexer : Lexer) : Option Lexer :=
  if lexer.keyAllowed then do
    let lexer ← lexer.dropKey
    let cursor := lexer.cursor
    return { lexer with
      possible := some
        { place := lexer.tokens.length
          offset := cursor.offset
          line := cursor.line
          column := cursor.column
          required := !lexer.inFlow && lexer.blocks.head? = some cursor.column } }
  else some lexer

def ageKeys (lexer : Lexer) : Option Lexer := do
  let possible ← PossibleKey.age lexer.cursor lexer.possible
  let outer ← lexer.outer.mapM (PossibleKey.age lexer.cursor)
  return { lexer with possible, outer }

/-! ### Blocks -/

def openBlock (lexer : Lexer) (column place : Nat) (token : Token) : Lexer :=
  if !lexer.inFlow && lexer.blocks.head?.all (· < column) then
    { lexer.emitAt place token with blocks := column :: lexer.blocks }
  else lexer

def openBlockHere (lexer : Lexer) (token : Token) : Lexer :=
  lexer.openBlock lexer.cursor.column lexer.tokens.length token

def closeBlocks (lexer : Lexer) (test : Nat → Bool) : Lexer :=
  if lexer.inFlow then lexer
  else
    { lexer with
      tokens := (lexer.blocks.takeWhile test).map (fun _ => Token.blockEnd) ++ lexer.tokens
      blocks := lexer.blocks.dropWhile test }

/-! ### Between tokens -/

/-- The next place where a token can start, and whether a key can start there. A tab may stand
before it only inside brackets or where no key can start. -/
def skipBlanks (inFlow : Bool) : Nat → Bool → Cursor → Bool × Cursor
  | 0, keyAllowed, cursor => (keyAllowed, cursor)
  | fuel + 1, keyAllowed, cursor =>
      let start :=
        if cursor.column = 0 && cursor.next? = some '\ufeff' then cursor.advance 1 else cursor
      let tabs := inFlow || !keyAllowed
      let after := (start.skip fun c => c = ' ' || tabs && c = '\t').skipComment
      if after.atBreak then skipBlanks inFlow fuel (!inFlow || keyAllowed) after.newline
      else (keyAllowed, after)

def settle (lexer : Lexer) : Option Lexer := do
  let (keyAllowed, cursor) :=
    skipBlanks lexer.inFlow (lexer.cursor.rest.length + 1) lexer.keyAllowed lexer.cursor
  let lexer ← { lexer with keyAllowed, cursor }.ageKeys
  return lexer.closeBlocks (cursor.column < ·)

def leave (lexer : Lexer) : Option Lexer := do
  let lexer ← (lexer.closeBlocks fun _ => true).dropKey
  return { lexer with keyAllowed := false }

/-! ### Tokens -/

def lexDirective (lexer : Lexer) : Option Lexer := do
  let lexer ← lexer.leave
  let (directive, cursor) ← readDirective lexer.cursor
  return { lexer.emit (.directive directive) with cursor }

def lexMark (lexer : Lexer) (token : Token) : Option Lexer := do
  let lexer ← lexer.leave
  return (lexer.emit token).advance 3

def lexOpening (lexer : Lexer) (token : Token) : Option Lexer := do
  let lexer ← lexer.saveKey
  return { (lexer.emit token).advance 1 with
    keyAllowed := true, possible := none, outer := lexer.possible :: lexer.outer }

def lexClosing (lexer : Lexer) (token : Token) : Option Lexer := do
  let lexer ← lexer.dropKey
  return { (lexer.emit token).advance 1 with
    keyAllowed := false, possible := lexer.outer.head?.join, outer := lexer.outer.tail }

def lexFlowEntry (lexer : Lexer) : Option Lexer := do
  let lexer ← lexer.dropKey
  return { (lexer.emit .flowEntry).advance 1 with keyAllowed := true }

def lexBlockEntry (lexer : Lexer) : Option Lexer :=
  if !lexer.inFlow && !lexer.keyAllowed then none
  else do
    let lexer ← (lexer.openBlockHere .blockSequence).dropKey
    return { (lexer.emit .blockEntry).advance 1 with keyAllowed := true }

def lexKey (lexer : Lexer) : Option Lexer :=
  if !lexer.inFlow && !lexer.keyAllowed then none
  else do
    let lexer ← (lexer.openBlockHere .blockMapping).dropKey
    return { (lexer.emit .key).advance 1 with keyAllowed := !lexer.inFlow }

def lexValue (lexer : Lexer) : Option Lexer :=
  match lexer.possible with
  | some key =>
      -- The mapping starts before the key.
      let lexer := (lexer.emitAt key.place .key).openBlock key.column key.place .blockMapping
      some { (lexer.emit .value).advance 1 with keyAllowed := false, possible := none }
  | none =>
      if !lexer.inFlow && !lexer.keyAllowed then none
      else
        let lexer := lexer.openBlockHere .blockMapping
        some { (lexer.emit .value).advance 1 with keyAllowed := !lexer.inFlow }

def lexAnchor (lexer : Lexer) : Option Lexer := do
  let lexer ← lexer.saveKey
  let (name, cursor) ← readName (lexer.cursor.advance 1)
  let (id, anchors) := lexer.anchors.declare name
  return { lexer.emit (.anchor id) with cursor, anchors, keyAllowed := false }

def lexReference (lexer : Lexer) : Option Lexer := do
  let lexer ← lexer.saveKey
  let (name, cursor) ← readName (lexer.cursor.advance 1)
  let id ← lexer.anchors.find? name
  return { lexer.emit (.reference id) with cursor, keyAllowed := false }

def lexTag (lexer : Lexer) : Option Lexer := do
  let lexer ← lexer.saveKey
  let (tag, cursor) ← readTag lexer.inFlow lexer.cursor
  return { lexer.emit (.tag tag) with cursor, keyAllowed := false }

def lexBlock (lexer : Lexer) (folded : Bool) : Option Lexer := do
  let lexer ← lexer.dropKey
  let (text, cursor) ← readBlock folded lexer.blocks.head? (lexer.cursor.advance 1)
  let style := if folded then Style.folded else Style.literal
  return { lexer.emit (.scalar style text) with cursor, keyAllowed := true }

def lexQuoted (lexer : Lexer) (quotes : Quotes) (style : Style) : Option Lexer := do
  let lexer ← lexer.saveKey
  let (text, cursor) ← readQuoted quotes lexer.cursor
  return { lexer.emit (.scalar style text) with cursor, keyAllowed := false }

def lexPlain (lexer : Lexer) : Option Lexer := do
  let lexer ← lexer.saveKey
  let limit := lexer.blocks.head?.elim 0 (· + 1)
  let plain ← readPlain lexer.inFlow limit lexer.cursor
  return { lexer.emit (.scalar .plain plain.text) with
    cursor := plain.after, keyAllowed := plain.broken }

def indicators : List Char :=
  ['-', '?', ':', ',', '[', ']', '\x7b', '\x7d', '#', '&', '*', '!', '|', '>', '\x27', '\x22',
    '%', '@', '\x60']

def startsPlain (inFlow : Bool) (c : Char) (next : Option Char) : Bool :=
  !(isSpace c || isBreak c) && c ∉ indicators ||
    c = '-' && !next.any isSpace ||
    !inFlow && (c = '?' || c = ':') && !endsWord next

def lexToken (lexer : Lexer) (c : Char) (next : Option Char) : Option Lexer :=
  let ends := endsWord next
  -- Marks between documents count inside brackets too, and are refused there later.
  if lexer.cursor.column = 0 && c = '%' then lexer.lexDirective
  else if lexer.cursor.atMark then
    lexer.lexMark (if c = '-' then .documentStart else .documentEnd)
  else if c = '[' then lexer.lexOpening .flowSequence
  else if c = '\x7b' then lexer.lexOpening .flowMapping
  else if c = ']' then lexer.lexClosing .flowSequenceEnd
  else if c = '\x7d' then lexer.lexClosing .flowMappingEnd
  else if c = ',' then lexer.lexFlowEntry
  else if c = '-' && ends then lexer.lexBlockEntry
  else if c = '?' && (lexer.inFlow || ends) then lexer.lexKey
  else if c = ':' && (lexer.inFlow || ends) then lexer.lexValue
  else if c = '*' then lexer.lexReference
  else if c = '&' then lexer.lexAnchor
  else if c = '!' then lexer.lexTag
  else if c = '|' && !lexer.inFlow then lexer.lexBlock false
  else if c = '>' && !lexer.inFlow then lexer.lexBlock true
  else if c = '\x27' then lexer.lexQuoted .single .singleQuoted
  else if c = '\x22' then lexer.lexQuoted .double .doubleQuoted
  else if startsPlain lexer.inFlow c next then lexer.lexPlain
  else none

/-- The tokens up to the end of the text, each of which takes a character or more. -/
def run : Nat → Lexer → Option (List Token)
  | 0, _ => none
  | fuel + 1, lexer => do
      let lexer ← lexer.settle
      match lexer.cursor.rest with
      | [] => return (← lexer.leave).tokens.reverse
      | c :: rest => run fuel (← lexer.lexToken c rest.head?)

end Lexer

def tokenize (text : List Char) : Option (List Token) :=
  if text.all isAllowed then Lexer.run (text.length + 1) (Lexer.start text) else none

end PathCompletion.Yaml
