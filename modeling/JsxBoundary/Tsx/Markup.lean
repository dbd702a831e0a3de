import JsxBoundary.Tsx.Literal

namespace JsxBoundary.Tsx.Parser

def referenceLength? (text : List Char) : Option Nat :=
  let upTo (most : Nat) (taken : List Char) (before : Nat) : Option Nat :=
    if 1 ≤ taken.length && taken.length ≤ most && text[before + taken.length]? == some ';' then
      some (before + taken.length + 1)
    else none
  let isHex (c : Char) := c.isDigit || ('a' ≤ c && c ≤ 'f') || ('A' ≤ c && c ≤ 'F')
  match text with
  | '&' :: '#' :: x :: rest =>
    if x == 'x' || x == 'X' then upTo 6 (rest.takeWhile isHex) 3
    else upTo 5 ((x :: rest).takeWhile Char.isDigit) 2
  | '&' :: rest => upTo 30 (rest.takeWhile Char.isAlpha) 1
  | _ => none

def characterReference : Parser Concrete := do
  let start ← offset
  let text := (← get).rest
  let some n := referenceLength? text | failure
  exactly (String.ofList (text.take n))
  leaf "html_character_reference" start

/-- What may indent a line of text: white space, without the no-break spaces, which show. -/
def isIndentation (c : Char) : Bool :=
  [(0x09, 0x0D), (0x20, 0x20), (0x1680, 0x1680), (0x2000, 0x2006), (0x2008, 0x200A),
    (0x2028, 0x2029), (0x205F, 0x205F), (0x3000, 0x3000)].any fun r =>
      r.1 ≤ c.toNat && c.toNat ≤ r.2

/-- The text shows something: a character that does not indent, or white space that does not follow
a line break. -/
def showsText (afterBreak : Bool) : List Char → Bool
  | [] => false
  | c :: rest =>
    if c == '\n' then showsText true rest
    else !(afterBreak && isIndentation c) || showsText afterBreak rest

def markupComment (start : Nat) : Parser Concrete := do
  exactly "<!--"
  let _ ← takeWhile fun c => !isLineEnd c
  leaf "html_comment" start

/-- Text between tags. Line breaks with the indentation after them are no text on their own; a comment
takes those before it along. -/
def plainText : Parser (Option Concrete) := do
  let start ← offset
  let text ← takeWhile fun c => !"\x7b\x7d<>&".toList.contains c
  check (!text.isEmpty)
  if showsText false text.toList then return some (← leaf "jsx_text" start)
  else maybe (markupComment start)

def embedded (read : Reader) : Parser Concrete := do
  let start ← begin
  mark "\x7b"
  if (← maybe (mark "\x7d")).isSome then return ← finish "jsx_expression" start []
  let inner ← spread read <|> read (.expression true)
  mark "\x7d"
  finish "jsx_expression" start [inner]

def dashedName : Parser Bool := do
  let _ ← word
  let rest ← takeWhile fun c => isNamePart c || c == '-'
  return !rest.isEmpty

def qualifiedName (kind : String) : Parser Concrete := do
  let start ← begin
  let _ ← dashedName
  if (← maybe do mark ":"; dashedName).isSome then leaf "jsx_namespace_name" start
  else leaf kind start

def tagName : Parser Concrete := do
  let isPlain ← ahead do return !(← dashedName)
  let first ← qualifiedName "identifier"
  if isPlain && first.kind == "identifier" then
    extend (fun object => do
      mark "."
      let property ← wordNode "property_identifier"
      finish "member_expression" object.start [object.under "object", property.under "property"])
      first
  else return first

/-- The end of an attribute's string up to and with the quote. Backslashes and line breaks stand for
themselves; an ampersand before a letter or a number sign begins a character reference. -/
def attributeStringRest (quote : Char) (fuel : Nat) (text : List Char) : Option (List Char) :=
  match fuel, text with
  | 0, _ | _, [] => none
  | fuel + 1, c :: rest =>
    if c == quote then some [c]
    else if c != '&' then (attributeStringRest quote fuel rest).map (c :: ·)
    else
      match referenceLength? text, rest with
      | some n, _ => (attributeStringRest quote fuel (text.drop n)).map (text.take n ++ ·)
      | none, d :: rest =>
        if d.isAlpha || d == '#' then none
        else (attributeStringRest quote fuel rest).map (c :: d :: ·)
      | none, [] => none

def attributeString : Parser Concrete := do
  let start ← begin
  let quote ← next
  check (quote == '"' || quote == '\'')
  let text := (← get).rest
  let some taken := attributeStringRest quote (text.length + 1) text | failure
  exactly (String.ofList taken)
  leaf "string" start

def tagAttribute (read : Reader) : Parser Concrete := do
  let start ← begin
  if (← peek?) == some '\x7b' then return ← embedded read
  let name ← qualifiedName "property_identifier"
  if (← maybe (mark "=")).isNone then return ← finish "jsx_attribute" start [name]
  let value ← attributeString <|> embedded read <|> read .markup
  finish "jsx_attribute" start [name, value]

/-- What opens an element: the name, type arguments and attributes, up to the end of the tag. -/
def tagInside (read : Reader) (typeArguments : Parser Concrete) : Parser (List Concrete) := do
  match ← maybe tagName with
  | none => return []
  | some name =>
    let types ← if name.kind == "jsx_namespace_name" then pure none else maybe typeArguments
    let attributes ← many (tagAttribute read)
    return name.under "name" :: types.toList ++ attributes

def child (read : Reader) : Parser (Option Concrete) := do
  match ← peek? with
  | some '\x7b' => return some (← embedded read)
  | some '&' => return some (← characterReference)
  | some '<' =>
    check (!(← would (exactly "</")))
    return some (← markupComment (← offset) <|> read .markup)
  | _ => plainText

def closingTag : Parser Concrete := do
  let start ← offset
  exactly "</"
  let name ← maybe tagName
  symbol ">"
  finish "jsx_closing_element" start (name.map (·.under "name")).toList

def markup (read : Reader) (typeArguments : Parser Concrete) : Parser Concrete := do
  let start ← begin
  exactly "<"
  let inside ← tagInside read typeArguments
  if (← maybe (symbol "/>")).isSome then return ← finish "jsx_self_closing_element" start inside
  symbol ">"
  let opening ← finish "jsx_opening_element" start inside
  let content ← many (child read)
  let closing ← closingTag
  finish "jsx_element" start
    (opening.under "open_tag" :: content.flatMap Option.toList ++ [closing.under "close_tag"])

end JsxBoundary.Tsx.Parser
