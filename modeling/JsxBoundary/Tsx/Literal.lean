import JsxBoundary.Tsx.Goal

namespace JsxBoundary.Tsx.Parser

/-- The text of a template up to an embedded expression or the end; a backslash guards the next
character. -/
def templateText : List Char → List Char
  | '\\' :: c :: rest => '\\' :: c :: templateText rest
  | '$' :: '\x7b' :: _ => []
  | c :: rest => if c == '\x60' then [] else c :: templateText rest
  | [] => []

def template (read : Reader) (goal : Goal) : Parser Concrete := do
  let start ← begin
  exactly "\x60"
  let substitutions ← many do
    text
    let start ← offset
    exactly "$\x7b"
    let inner ← read goal
    symbol "\x7d"
    finish "template_substitution" start [inner]
  text
  exactly "\x60"
  finish "template_string" start substitutions
where
  text : Parser Unit := do
    exactly (String.ofList (templateText (← get).rest))

def spread (read : Reader) : Parser Concrete := do
  let start ← begin
  mark "..."
  let inner ← read .item
  finish "spread_element" start [inner]

def computedName (read : Reader) : Parser Concrete := do
  let start ← begin
  mark "["
  let inner ← read .item
  symbol "]"
  finish "computed_property_name" start [inner]

def propertyName (read : Reader) : Parser Concrete :=
  wordNode "property_identifier" <|> string <|> number <|> computedName read <|> privateName

/-- A word that modifies the property named after it; on its own it would be a name. -/
def modifierWord (text : String) : Parser Unit := do
  keyword text
  let after ← mark?
  let endsName := ["(", ",", ":", "=", ";", "<", "?", "!", "\x7d"].any (after == some ·)
  check (!endsName)

end JsxBoundary.Tsx.Parser
