import JsxBoundary.Tsx.Cursor

namespace JsxBoundary.Tsx

def reservedWords : List String :=
  ["break", "case", "catch", "class", "const", "continue", "debugger", "default", "delete", "do",
    "else", "enum", "export", "extends", "false", "finally", "for", "function", "if", "import", "in",
    "instanceof", "new", "null", "return", "super", "switch", "this", "throw", "true", "try",
    "typeof", "var", "void", "while", "with"]

def longMarks : List (List Char) :=
  [">>>=", "...", "===", "!==", "**=", "<<=", ">>=", ">>>", "&&=", "||=", "??=", "=>", "==", "!=",
    "<=", ">=", "&&", "||", "??", "?.", "++", "--", "+=", "-=", "*=", "/=", "%=", "&=", "|=", "^=",
    "<<", ">>", "**"].map String.toList

/-- The mark that a text begins with. A question mark and a point before a digit are two marks. -/
def markOf (text : List Char) : Option String :=
  match text with
  | '?' :: '.' :: d :: _ => if d.isDigit then some "?" else some "?."
  | _ =>
    match longMarks.find? (·.isPrefixOf text), text with
    | some mark, _ => some (String.ofList mark)
    | none, c :: _ => if marks.contains c then some (String.singleton c) else none
    | none, [] => none

namespace Parser

/-- The name that a text begins with, as written: an escaped character counts as a part of it. -/
def nameOf : List Char → List Char
  | '\\' :: 'u' :: rest => '\\' :: 'u' :: nameOf rest
  | c :: rest => if isNamePart c then c :: nameOf rest else []
  | [] => []

def beginsName (text : List Char) : Bool :=
  match nameOf text with
  | c :: _ => !c.isDigit
  | [] => false

def bareWord : Parser String := do
  check (beginsName (← get).rest)
  taking nameOf

def word : Parser String := do
  let _ ← trivia
  bareWord

def keyword (text : String) : Parser Unit := do
  let w ← word
  check (w == text)

def name : Parser String := do
  let w ← word
  check (!reservedWords.contains w)
  return w

def mark? : Parser (Option String) := ahead do
  let _ ← trivia
  return markOf (← get).rest

def mark (text : String) : Parser Unit := do
  let _ ← trivia
  check (markOf (← get).rest == some text)
  exactly text

def symbol (text : String) : Parser Unit := do
  let _ ← trivia
  exactly text

def lineEndsHere : Parser Bool := ahead trivia

def nameNode (kind : String) : Parser Concrete := do
  let start ← begin
  let _ ← name
  leaf kind start

def wordNode (kind : String) : Parser Concrete := do
  let start ← begin
  let _ ← word
  leaf kind start

def privateName : Parser Concrete := do
  let start ← begin
  exactly "#"
  let _ ← bareWord
  leaf "private_property_identifier" start

def isHexDigit (c : Char) : Bool :=
  c.isDigit || ('a' ≤ c && c ≤ 'f') || ('A' ≤ c && c ≤ 'F')

def escapes (text : List Char) : Bool :=
  match text with
  | 'x' :: rest => 2 ≤ ((rest.take 2).takeWhile isHexDigit).length
  | 'u' :: '\x7b' :: rest =>
    let digits := rest.takeWhile isHexDigit
    !digits.isEmpty && rest[digits.length]? == some '\x7d'
  | 'u' :: rest => 4 ≤ ((rest.take 4).takeWhile isHexDigit).length
  | _ => true

/-- The end of a quoted text up to and with the quote; a backslash guards the next character or line
end. -/
def quotedRest (quote : Char) : List Char → Option (List Char)
  | [] => none
  | '\\' :: '\r' :: '\n' :: rest => (quotedRest quote rest).map ('\\' :: '\r' :: '\n' :: ·)
  | '\\' :: c :: rest =>
    if escapes (c :: rest) then (quotedRest quote rest).map ('\\' :: c :: ·) else none
  | c :: rest =>
    if c == quote then some [c]
    else if c == '\n' || c == '\r' then none
    else (quotedRest quote rest).map (c :: ·)

def string : Parser Concrete := do
  let start ← begin
  let quote ← next
  check (quote == '"' || quote == '\'')
  let some taken := quotedRest quote (← get).rest | failure
  let _ ← taking fun _ => taken
  leaf "string" start

def radixDigit? (letter : Char) : Option (Char → Bool) :=
  match letter with
  | 'x' | 'X' => some isHexDigit
  | 'o' | 'O' => some fun c => '0' ≤ c && c ≤ '7'
  | 'b' | 'B' => some fun c => c == '0' || c == '1'
  | _ => none

def number : Parser Concrete := do
  let start ← begin
  let text := (← get).rest
  let isDigit (c : Char) := c.isDigit || c == '_'
  match text with
  | '0' :: x :: d :: _ =>
    if let some isDigit := radixDigit? x then
      check (isDigit d)
      exactly (String.ofList ['0', x])
      let _ ← takeWhile fun c => isDigit c || c == '_'
      let _ ← maybe (exactly "n")
      return ← leaf "number" start
  | c :: d :: _ => check (c.isDigit || (c == '.' && d.isDigit))
  | [c] => check c.isDigit
  | [] => failure
  let _ ← takeWhile isDigit
  if (← maybe (exactly ".")).isSome then
    let _ ← takeWhile isDigit
  let _ ← maybe do
    exactly "e" <|> exactly "E"
    let _ ← maybe (exactly "+" <|> exactly "-")
    let digits ← takeWhile isDigit
    check (!digits.isEmpty)
  let _ ← maybe (exactly "n")
  leaf "number" start

/-- The end of a regular expression up to and with its slash. A slash inside brackets does not end
it. -/
def patternRest (bracketed : Bool) : List Char → Option (List Char)
  | [] => none
  | '\\' :: c :: rest => (patternRest bracketed rest).map ('\\' :: c :: ·)
  | '/' :: rest => if bracketed then (patternRest true rest).map ('/' :: ·) else some ['/']
  | c :: rest =>
    if isLineEnd c || c == '\r' then none
    else (patternRest (if bracketed then c != ']' else c == '[') rest).map (c :: ·)

def regex : Parser Concrete := do
  let start ← begin
  exactly "/"
  let some taken := patternRest false (← get).rest | failure
  check (1 < taken.length)
  let _ ← taking fun _ => taken
  let _ ← takeWhile Char.isAlpha
  leaf "regex" start

def separated {α : Type} (separator : String) (item : Parser α) : Parser (List α) := do
  let first ← item
  let others ← many do
    mark separator
    item
  return first :: others

/-- Items with commas between them up to a closing mark, which is passed; a comma before it is
allowed. -/
def listUpTo {α : Type} (close : String) (item : Parser α) : Parser (List α) := do
  let items ← many do
    let a ← item
    let more ← maybe (mark ",")
    check (more.isSome || (← would (symbol close)))
    return a
  symbol close
  return items

/-- Items like those of `listUpTo`, where items may also be left out between the commas. -/
def elementsUpTo {α : Type} (close : String) (item : Parser α) : Parser (List α) := do
  let items ← many ((mark "," *> pure none) <|> do
    let a ← item
    check ((← would (mark ",")) || (← would (symbol close)))
    return some a)
  symbol close
  return items.flatMap Option.toList

end Parser

end JsxBoundary.Tsx
