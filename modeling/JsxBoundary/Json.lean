/-!
# JSON

Values of the data format in which traces are stored, and their printed form: one item to a line,
indented by two blanks a level, and ASCII characters only.
-/

namespace JsxBoundary

inductive Json where
  | null
  | number (n : Nat)
  | string (s : String)
  | list (items : List Json)
  | object (entries : List (String × Json))

namespace Json

def hex4 (n : Nat) : List Char :=
  [n / 4096, n / 256, n / 16, n].map fun d => Nat.digitChar (d % 16)

/-- A character inside a string. Those outside the visible part of ASCII are written by the numbers of
their UTF-16 units. -/
def escapeChar (c : Char) : List Char :=
  let n := c.toNat
  if c == '"' then ['\\', '"']
  else if c == '\\' then ['\\', '\\']
  else if c == '\n' then ['\\', 'n']
  else if c == '\r' then ['\\', 'r']
  else if c == '\t' then ['\\', 't']
  else if c == '\x08' then ['\\', 'b']
  else if c == '\x0c' then ['\\', 'f']
  else if 0x20 ≤ n && n < 0x7F then [c]
  else if n < 0x10000 then '\\' :: 'u' :: hex4 n
  else '\\' :: 'u' :: hex4 (0xD800 + (n - 0x10000) / 0x400) ++
    '\\' :: 'u' :: hex4 (0xDC00 + (n - 0x10000) % 0x400)

def quote (s : String) : String :=
  String.ofList ('"' :: s.toList.flatMap escapeChar ++ ['"'])

def newLine (level : Nat) : String :=
  String.ofList ('\n' :: List.replicate (2 * level) ' ')

def block (opening closing : String) (level : Nat) (items : List String) : String :=
  if items.isEmpty then opening ++ closing
  else opening ++ newLine (level + 1) ++ ("," ++ newLine (level + 1)).intercalate items ++
    newLine level ++ closing

mutual

def printAt (level : Nat) : Json → String
  | null => "null"
  | number n => toString n
  | string s => quote s
  | list items => block "[" "]" level (printItems (level + 1) items)
  | object entries => block "\x7b" "\x7d" level (printEntries (level + 1) entries)

def printItems (level : Nat) : List Json → List String
  | [] => []
  | item :: items => item.printAt level :: printItems level items

def printEntries (level : Nat) : List (String × Json) → List String
  | [] => []
  | (key, value) :: entries =>
    (quote key ++ ": " ++ value.printAt level) :: printEntries level entries

end

def print (j : Json) : String :=
  j.printAt 0

end Json

end JsxBoundary
