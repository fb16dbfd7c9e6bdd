import PathCompletion.Yaml.Cursor

/-!
Block texts: lines of one depth below a header. A literal text keeps its line breaks; in a
folded text a break between two lines that start with no blank becomes a space. The header
may give the depth, and says what is kept of the breaks at the end.
-/

namespace PathCompletion.Yaml

inductive Chomp where
  | strip
  | clip
  | keep
  deriving DecidableEq

def Chomp.ofChar? : Char → Option Chomp
  | '-' => some .strip
  | '+' => some .keep
  | _ => none

structure BlockHeader where
  chomp : Chomp
  /-- How much deeper than its parent the text is. -/
  depth : Option Nat
  width : Nat

/-- A sign and a digit, in either order; each may be absent. The digit is not 0. -/
def readHeader (s : List Char) : Option BlockHeader :=
  let sign (place : Nat) := s[place]?.bind Chomp.ofChar?
  let digit (place : Nat) := (s[place]?.filter Char.isDigit).map fun c => c.toNat - '0'.toNat
  let header : BlockHeader :=
    match sign 0, digit 0 with
    | some chomp, _ => ⟨chomp, digit 1, if (digit 1).isSome then 2 else 1⟩
    | none, some depth => ⟨(sign 1).getD .clip, some depth, if (sign 1).isSome then 2 else 1⟩
    | none, none => ⟨.clip, none, 0⟩
  if header.depth = some 0 then none else some header

def emptyLines (depth : Option Nat) : Nat → Cursor → Option (List Char × Nat × Cursor)
  | 0, _ => none
  | fuel + 1, cursor =>
      let blanks := (cursor.run (· = ' ')).length
      let line := cursor.advance (depth.elim blanks fun depth => min blanks (depth - cursor.column))
      -- A tab may not take the place of a blank that gives the depth.
      if depth.all (line.column < ·) && line.next? = some '\t' then none
      else if line.atBreak then do
        let (breaks, reach, after) ← emptyLines depth fuel line.newline
        return (line.lineBreak :: breaks, max line.column reach, after)
      else some ([], line.column, line)

structure BlockText where
  text : List Char
  lastBreak : List Char
  moreBreaks : List Char
  blank : Bool

namespace BlockText

def empty (moreBreaks : List Char) : BlockText := ⟨[], [], moreBreaks, false⟩

def joint (block : BlockText) (folded blank : Bool) : List Char :=
  if folded && block.lastBreak = ['\n'] && !block.blank && !blank then
    if block.moreBreaks.isEmpty then [' '] else block.moreBreaks
  else block.lastBreak ++ block.moreBreaks

def finish (block : BlockText) : Chomp → List Char
  | .strip => block.text
  | .clip => block.text ++ block.lastBreak
  | .keep => block.text ++ block.lastBreak ++ block.moreBreaks

end BlockText

def blockLines (folded : Bool) (depth : Nat) : Nat → BlockText → Cursor →
    Option (BlockText × Cursor)
  | 0, _, _ => none
  | fuel + 1, block, cursor =>
      if cursor.column ≠ depth || cursor.rest.isEmpty then some (block, cursor)
      else do
        let blank := cursor.next?.any isSpace
        let text := block.text ++ block.joint folded blank ++ cursor.run (!isBreak ·)
        let after := cursor.skip (!isBreak ·)
        let (lastBreak, next) :=
          if after.atBreak then ([after.lineBreak], after.newline) else ([], after)
        let (moreBreaks, _, next) ← emptyLines (some depth) (next.rest.length + 1) next
        blockLines folded depth fuel ⟨text, lastBreak, moreBreaks, blank⟩ next

/-- The block text whose header starts here, below a parent at the given column. Where the
header has no depth, the deepest of the empty lines and the first line gives it. -/
def readBlock (folded : Bool) (parent : Option Nat) (cursor : Cursor) :
    Option (List Char × Cursor) := do
  let header ← readHeader cursor.rest
  let start ← (cursor.advance header.width).finishLine
  let given := header.depth.map (parent.getD 0 + ·)
  let (breaks, reach, first) ← emptyLines given (start.rest.length + 1) start
  let depth := given.getD (max reach (parent.getD 0 + 1))
  let (block, after) ← blockLines folded depth (first.rest.length + 1) (.empty breaks) first
  return (block.finish header.chomp, after)

end PathCompletion.Yaml
