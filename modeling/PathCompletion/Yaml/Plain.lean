import PathCompletion.Yaml.Cursor

/-!
Plain texts, which no quotes enclose, and the gaps between the words of a text that may run over
several lines. Blanks on one line are kept. One line break becomes a space, of more breaks all but
the first are kept, and the blanks around them are dropped. A plain text ends before a comment,
before a colon that ends a word and, inside brackets, before a comma or a bracket.
-/

namespace PathCompletion.Yaml

/-! ### Gaps -/

structure Gap where
  blanks : List Char
  breaks : List Char
  deriving DecidableEq

namespace Gap

def text (gap : Gap) : List Char :=
  match gap.breaks with
  | [] => gap.blanks
  | '\n' :: [] => [' ']
  | '\n' :: more => more
  | breaks => breaks

def isBroken (gap : Gap) : Bool := !gap.breaks.isEmpty

end Gap

def readBreaks (limit : Nat) : Nat → Cursor → Option (List Char × Cursor)
  | 0, cursor => some ([], cursor)
  | fuel + 1, cursor =>
      if cursor.atBreak then
        let line := cursor.newline
        if '\t' ∈ (line.run isSpace).take limit then none
        else do
          let (more, after) ← readBreaks limit fuel (line.skip isSpace)
          return (cursor.lineBreak :: more, after)
      else some ([], cursor)

def readGap (limit : Nat) (cursor : Cursor) : Option (Gap × Cursor) := do
  let (breaks, after) ← readBreaks limit cursor.rest.length (cursor.skip isSpace)
  return (⟨cursor.run isSpace, breaks⟩, after)

/-! ### Plain texts -/

def isBracket (c : Char) : Bool := c ∈ ['[', ']', '\x7b', '\x7d']

/-- A part of a plain text without blanks. Inside brackets it is refused when a bracket, a
comma or a question mark comes right after a colon. -/
def plainWord (inFlow : Bool) : List Char → Option (List Char)
  | [] => some []
  | c :: rest =>
      if isSpace c || isBreak c then some []
      else if inFlow && c = ':' && rest.head?.any fun d => isBracket d || d = ',' || d = '?' then
        none
      else if c = ':' && endsWord rest.head? then some []
      else if inFlow && (isBracket c || c = ',') then some []
      else (plainWord inFlow rest).map (c :: ·)

structure PlainText where
  text : List Char
  /-- Whether a line was over after the last word. -/
  broken : Bool
  after : Cursor

/-- What follows a word of a plain text, as far as it belongs to the text. Outside brackets
every line of it reaches the limit. -/
def plainTail (inFlow : Bool) (limit : Nat) : Nat → Cursor → Option PlainText
  | 0, cursor => some ⟨[], false, cursor⟩
  | fuel + 1, cursor => do
      let (gap, after) ← readGap limit cursor
      let stopped : PlainText := ⟨[], gap.isBroken, after⟩
      if !inFlow && after.column < limit || after.atMark || after.next? = some '#' then
        return stopped
      let word ← plainWord inFlow after.rest
      if word.isEmpty then return stopped
      let tail ← plainTail inFlow limit fuel (after.advance word.length)
      return { tail with text := gap.text ++ word ++ tail.text }

def readPlain (inFlow : Bool) (limit : Nat) (cursor : Cursor) : Option PlainText := do
  let word ← plainWord inFlow cursor.rest
  let tail ← plainTail inFlow limit cursor.rest.length (cursor.advance word.length)
  return { tail with text := word ++ tail.text }

end PathCompletion.Yaml
