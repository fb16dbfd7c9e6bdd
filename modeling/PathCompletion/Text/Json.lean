/-!
JSON text, indented by two spaces a level. Only the quotation mark, the backslash and the
control characters below the space are escaped.
-/

namespace PathCompletion

inductive Json where
  | number (n : Nat)
  | text (s : String)
  | array (items : List Json)
  | object (fields : List (String × Json))

namespace Json

def hexDigit (n : Nat) : Char := if n < 10 then Char.ofNat (48 + n) else Char.ofNat (87 + n)

def escapeChar (c : Char) : List Char :=
  if c = '\x22' then ['\x5c', '\x22']
  else if c = '\x5c' then ['\x5c', '\x5c']
  else if c = '\x08' then ['\x5c', 'b']
  else if c = '\x09' then ['\x5c', 't']
  else if c = '\x0a' then ['\x5c', 'n']
  else if c = '\x0c' then ['\x5c', 'f']
  else if c = '\x0d' then ['\x5c', 'r']
  else if c.toNat < 0x20 then
    ['\x5c', 'u', '0', '0', hexDigit (c.toNat / 16), hexDigit (c.toNat % 16)]
  else [c]

def quote (s : String) : String :=
  String.ofList ('\x22' :: s.toList.flatMap escapeChar ++ ['\x22'])

def newLine (level : Nat) : String := String.ofList ('\n' :: List.replicate (2 * level) ' ')

def enclose (opening closing : String) (level : Nat) (items : List String) : String :=
  if items.isEmpty then opening ++ closing
  else
    opening ++ newLine (level + 1) ++ ("," ++ newLine (level + 1)).intercalate items ++
      newLine level ++ closing

mutual

def render (level : Nat) : Json → String
  | .number n => toString n
  | .text s => quote s
  | .array items => enclose "[" "]" level (renderItems (level + 1) items)
  | .object fields => enclose "\x7b" "\x7d" level (renderFields (level + 1) fields)

def renderItems (level : Nat) : List Json → List String
  | [] => []
  | item :: rest => render level item :: renderItems level rest

def renderFields (level : Nat) : List (String × Json) → List String
  | [] => []
  | (name, value) :: rest => (quote name ++ ": " ++ render level value) :: renderFields level rest

end

end Json

end PathCompletion
