import JsxBoundary.Tsx.Type

namespace JsxBoundary.Tsx.Parser

/-- Two marks tell what a function keyword begins: whether it is asynchronous changes nothing. -/
def functionWord : Parser Bool := do
  let _ ← maybe do
    keyword "async"
    check (!(← lineEndsHere))
  keyword "function"
  return (← maybe (mark "*")).isSome

def functionExpression (read : Reader) : Parser Concrete := do
  let start ← begin
  let isGenerator ← functionWord
  let name ← maybe (nameNode "identifier")
  let parts ← signature read
  let body ← read .block
  finish (if isGenerator then "generator_function" else "function_expression") start
    ((name.map (·.under "name")).toList ++ parts ++ [body.under "body"])

def functionDeclaration (read : Reader) : Parser Concrete := do
  let start ← begin
  let isGenerator ← functionWord
  let name ← nameNode "identifier"
  let parts ← signature read
  let head := name.under "name" :: parts
  match ← maybe (read .block) with
  | some body =>
    finish (if isGenerator then "generator_function_declaration" else "function_declaration") start
      (head ++ [body.under "body"])
  | none =>
    semicolon
    finish "function_signature" start head

/-- The words before the name of a method: `async`, `get`, `set` and a star. Tells whether there are
any. -/
def methodModifiers : Parser Bool := do
  let async ← maybe do
    modifierWord "async"
    check (!(← lineEndsHere))
  let accessor ← maybe (modifierWord "get" <|> modifierWord "set")
  let star ← maybe (mark "*")
  return async.isSome || accessor.isSome || star.isSome

def objectMethod (read : Reader) : Parser Concrete := do
  let start ← begin
  let _ ← methodModifiers
  let name ← propertyName read
  let _ ← maybe (mark "?")
  let parts ← signature read
  let body ← read .block
  finish "method_definition" start (name.under "name" :: parts ++ [body.under "body"])

def pair (read : Reader) : Parser Concrete := do
  let start ← begin
  let key ← propertyName read
  mark ":"
  let value ← read .item
  finish "pair" start [key.under "key", value.under "value"]

/-- A name that stands for a property of that name, perhaps with a default in a pattern. -/
def shorthand (read : Reader) : Parser Concrete := do
  let start ← begin
  let name ← nameNode "shorthand_property_identifier"
  if (← maybe (mark "=")).isNone then return name
  let given ← read .item
  finish "object_assignment_pattern" start [name, given]

def object (read : Reader) : Parser Concrete := do
  let start ← begin
  mark "\x7b"
  let members ← elementsUpTo "\x7d"
    (spread read <|> pair read <|> objectMethod read <|> shorthand read)
  finish "object" start members

def withDefault (read : Reader) (p : Parser Concrete) : Parser Concrete := do
  let binding ← p
  if (← maybe (mark "=")).isNone then return binding
  let given ← read .item
  finish "assignment_pattern" binding.start [binding, given]

def restPattern (read : Reader) : Parser Concrete := do
  let start ← begin
  mark "..."
  let inner ← read .pattern
  finish "rest_pattern" start [inner]

def pairPattern (read : Reader) : Parser Concrete := do
  let start ← begin
  let key ← propertyName read
  mark ":"
  let value ← withDefault read (read .pattern)
  finish "pair_pattern" start [key, value]

def pattern (read : Reader) : Parser Concrete := do
  let start ← begin
  match ← peek? with
  | some '\x7b' =>
    mark "\x7b"
    let members ← elementsUpTo "\x7d" (restPattern read <|> pairPattern read <|> shorthand read)
    finish "object_pattern" start members
  | some '[' =>
    mark "["
    let elements ← elementsUpTo "]" (restPattern read <|> withDefault read (read .pattern))
    finish "array_pattern" start elements
  | _ => nameNode "identifier"

def staticBlock (read : Reader) : Parser Concrete := do
  let start ← begin
  keyword "static"
  let body ← read .block
  finish "class_static_block" start [body]

def memberEnd : Parser Unit :=
  mark "," <|> semicolon

def classIndex (read : Reader) : Parser Concrete := do
  let m ← typeMember.indexed read
  memberEnd
  return m

/-- The words before the name of a class member. Tells whether only a method can have them. -/
def memberModifiers : Parser Bool := do
  let _ ← many ((modifierWord "public" <|> modifierWord "private" <|> modifierWord "protected" <|>
    modifierWord "static" <|> modifierWord "override" <|> modifierWord "readonly" <|>
    modifierWord "abstract" <|> modifierWord "declare" <|> modifierWord "accessor"))
  methodModifiers

def classMember (read : Reader) : Parser Concrete := do
  let start ← begin
  let decorators ← many (decorator read)
  let isMethod ← memberModifiers
  let name ← propertyName read
  let _ ← maybe (mark "?" <|> mark "!")
  let head := decorators ++ [name.under "name"]
  if (← mark?) == some "(" || (← mark?) == some "<" then
    let parts ← signature read
    match ← maybe (read .block) with
    | some body => finish "method_definition" start (head ++ parts ++ [body.under "body"])
    | none =>
      memberEnd
      finish "method_signature" start (head ++ parts)
  else
    check (!isMethod)
    let type ← maybe (annotatedType read)
    let value ← maybe do
      mark "="
      read .item
    let field ← finish "public_field_definition" start
      (head ++ type.toList ++ (value.map (·.under "value")).toList)
    memberEnd
    return field

def classBody (read : Reader) : Parser Concrete := do
  let start ← begin
  mark "\x7b"
  let members ← many ((mark ";" *> pure none) <|>
    some <$> (staticBlock read <|> classIndex read <|> classMember read))
  mark "\x7d"
  finish "class_body" start (members.flatMap Option.toList)

def classHeritage (read : Reader) : Parser (List Concrete) := do
  let base ← maybe do
    let start ← begin
    keyword "extends"
    let value ← read .access
    let arguments ← maybe (typeArguments read)
    finish "extends_clause" start (value.under "value" :: arguments.toList)
  let types ← maybe do
    let start ← begin
    keyword "implements"
    let types ← separated "," (read .type)
    finish "implements_clause" start types
  return base.toList ++ types.toList

def classDefinition (read : Reader) (kind : String) : Parser Concrete := do
  let start ← begin
  let decorators ← many (decorator read)
  let _ ← maybe do
    keyword "abstract"
    check (!(← lineEndsHere))
  keyword "class"
  let name ← maybe do
    check (!(← would (keyword "implements")))
    nameNode "type_identifier"
  let types ← maybe (typeParameters read)
  let heritage ← classHeritage read
  let body ← classBody read
  finish kind start
    (decorators ++ (name.map (·.under "name")).toList ++ types.toList ++ heritage ++
      [body.under "body"])

end JsxBoundary.Tsx.Parser
