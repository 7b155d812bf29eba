/-!
# JSON text

JSON values and their text over several lines, two spaces of indentation for each level. An empty
list or object stays on one line. Strings escape quotes, backslashes and control characters only.
-/

namespace PackedLayout

inductive Json where
  | text (s : String)
  | number (n : Nat)
  | bool (b : Bool)
  | list (items : List Json)
  | object (entries : List (String × Json))

namespace Json

def hexDigit (n : Nat) : Char := if n < 10 then Char.ofNat (48 + n) else Char.ofNat (87 + n)

def escapeChar (c : Char) : List Char :=
  if c = '"' then ['\\', '"']
  else if c = '\\' then ['\\', '\\']
  else if c = '\x08' then ['\\', 'b']
  else if c = '\x0c' then ['\\', 'f']
  else if c = '\n' then ['\\', 'n']
  else if c = '\r' then ['\\', 'r']
  else if c = '\t' then ['\\', 't']
  else if c.toNat < 32 then ['\\', 'u', '0', '0', hexDigit (c.toNat / 16), hexDigit (c.toNat % 16)]
  else [c]

def quote (s : String) : String :=
  String.ofList ('"' :: s.toList.flatMap escapeChar ++ ['"'])

def indentation (depth : Nat) : String := String.ofList (List.replicate (2 * depth) ' ')

/-- Lines one level deeper, between two brackets. -/
def bracketed (left right : String) (depth : Nat) : List String → String
  | [] => left ++ right
  | lines =>
    let inner := indentation (depth + 1)
    left ++ "\n" ++ String.intercalate ",\n" (lines.map (inner ++ ·)) ++ "\n" ++
      indentation depth ++ right

mutual

/-- The text of a value that stands at a depth. -/
def pretty (depth : Nat) : Json → String
  | text s => quote s
  | number n => toString n
  | bool b => if b then "true" else "false"
  | list items => bracketed "[" "]" depth (prettyItems (depth + 1) items)
  | object entries => bracketed "\x7b" "\x7d" depth (prettyEntries (depth + 1) entries)

def prettyItems (depth : Nat) : List Json → List String
  | [] => []
  | item :: items => pretty depth item :: prettyItems depth items

def prettyEntries (depth : Nat) : List (String × Json) → List String
  | [] => []
  | (key, value) :: entries =>
    (quote key ++ ": " ++ pretty depth value) :: prettyEntries depth entries

end

end Json

end PackedLayout
