import JsxBoundary.Tsx.Literal

namespace JsxBoundary.Tsx.Parser

def annotatedType (read : Reader) : Parser Concrete := do
  let start ← begin
  mark ":"
  let type ← read .type
  finish "type_annotation" start [type]

def returned (read : Reader) : Parser Concrete := predicate <|> read .type
where
  predicate : Parser Concrete := do
    let start ← begin
    let asserts ← maybe do
      keyword "asserts"
      check (!(← lineEndsHere))
      check (← would word)
      check (!(← would (keyword "is")))
    let _ ← word
    let type ← maybe do
      check (!(← lineEndsHere))
      keyword "is"
      read .type
    check (asserts.isSome || type.isSome)
    finish "type_predicate" start type.toList

def returnType (read : Reader) : Parser Concrete := do
  let start ← begin
  mark ":"
  let type ← returned read
  finish "type_annotation" start [type]

def typeArguments (read : Reader) : Parser Concrete := do
  let start ← begin
  symbol "<"
  let types ← listUpTo ">" (read .type)
  check (!types.isEmpty)
  finish "type_arguments" start types

def typeParameter (read : Reader) : Parser Concrete := do
  let start ← begin
  let _ ← many do
    keyword "const" <|> keyword "in" <|> keyword "out"
    check (← would word)
  let name ← nameNode "type_identifier"
  let bound ← maybe do
    keyword "extends"
    read .type
  let given ← maybe do
    mark "="
    read .type
  finish "type_parameter" start (name :: bound.toList ++ given.toList)

def typeParameters (read : Reader) : Parser Concrete := do
  let start ← begin
  symbol "<"
  let parameters ← listUpTo ">" (typeParameter read)
  check (!parameters.isEmpty)
  finish "type_parameters" start parameters

def decorator (read : Reader) : Parser Concrete := do
  let start ← begin
  mark "@"
  let inner ← read .access
  finish "decorator" start [inner]

def parameter (read : Reader) : Parser Concrete := do
  let start ← begin
  let decorators ← many (decorator read)
  let _ ← many do
    let w ← word
    check (["public", "private", "protected", "override", "readonly"].contains w)
    check (← would (read .pattern))
  let binding ← rest <|> thisName <|> read .pattern
  let isOptional := (← maybe (mark "?")).isSome
  let type ← maybe (annotatedType read)
  let given ← maybe do
    mark "="
    read .item
  finish (if isOptional then "optional_parameter" else "required_parameter") start
    (decorators ++ binding.under "pattern" :: type.toList ++ given.toList)
where
  rest : Parser Concrete := do
    let start ← begin
    mark "..."
    let inner ← read .pattern
    finish "rest_pattern" start [inner]
  thisName : Parser Concrete := do
    let start ← begin
    keyword "this"
    leaf "this" start

def formalParameters (read : Reader) : Parser Concrete := do
  let start ← begin
  mark "("
  let parameters ← listUpTo ")" (parameter read)
  finish "formal_parameters" start parameters

def signature (read : Reader) : Parser (List Concrete) := do
  let types ← maybe (typeParameters read)
  let parameters ← formalParameters read
  let result ← maybe (returnType read)
  return (types.map (·.under "type_parameters")).toList ++ parameters.under "parameters" ::
    (result.map (·.under "return_type")).toList

def functionType (read : Reader) : Parser Concrete := do
  let start ← begin
  let _ ← maybe (modifier "abstract")
  let _ ← maybe (modifier "new")
  let types ← maybe (typeParameters read)
  let parameters ← formalParameters read
  mark "=>"
  let result ← returned read
  finish "function_type" start (types.toList ++ [parameters, result])
where
  modifier (text : String) : Parser Unit := do
    keyword text
    check ((← would word) || (← mark?) == some "(" || (← mark?) == some "<")

def typeMember (read : Reader) : Parser Concrete :=
  mapped <|> indexed <|> called <|> named
where
  mapped : Parser Concrete := do
    let start ← begin
    let _ ← maybe (mark "+" <|> mark "-")
    let _ ← maybe (modifierWord "readonly")
    mark "["
    let name ← nameNode "type_identifier"
    keyword "in"
    let domain ← read .type
    let renamed ← maybe do
      keyword "as"
      read .type
    mark "]"
    let _ ← maybe (mark "+" <|> mark "-")
    let _ ← maybe (mark "?")
    let type ← maybe (annotatedType read)
    finish "index_signature" start (name :: domain :: renamed.toList ++ type.toList)
  indexed : Parser Concrete := do
    let start ← begin
    let _ ← many do
      let w ← word
      check (["readonly", "static"].contains w)
    mark "["
    let name ← nameNode "identifier"
    mark ":"
    let domain ← read .type
    mark "]"
    let type ← annotatedType read
    finish "index_signature" start [name, domain, type]
  called : Parser Concrete := do
    let start ← begin
    let _ ← maybe do
      keyword "new"
      check ((← mark?) == some "(" || (← mark?) == some "<")
    let parts ← signature read
    finish "call_signature" start parts
  named : Parser Concrete := do
    let start ← begin
    let _ ← maybe (modifierWord "readonly" <|> modifierWord "get" <|> modifierWord "set")
    let name ← propertyName read
    let _ ← maybe (mark "?")
    let parts ← (do
      check ((← mark?) == some "(" || (← mark?) == some "<")
      signature read) <|> (return (← maybe (annotatedType read)).toList)
    finish "property_signature" start (name :: parts)

def objectType (read : Reader) (kind : String) : Parser Concrete := do
  let start ← begin
  mark "\x7b"
  let members ← many do
    let m ← typeMember read
    (mark "," <|> semicolon)
    return m
  mark "\x7d"
  finish kind start members

def tupleElement (read : Reader) : Parser Concrete := do
  let start ← begin
  let _ ← maybe (mark "...")
  let _ ← maybe do
    let _ ← word
    let _ ← maybe (mark "?")
    mark ":"
  let type ← read .type
  let _ ← maybe (mark "?")
  finish "tuple_element" start [type]

def typeWords : List String :=
  ["keyof", "typeof", "infer", "readonly", "new"]

def typeName (read : Reader) : Parser Concrete := do
  let start ← begin
  let names ← separated "." word
  check (!names.head?.any typeWords.contains)
  let arguments ← maybe do
    check (!(← lineEndsHere))
    typeArguments read
  finish "type_identifier" start arguments.toList

def keywordNode (text : String) : Parser Concrete := do
  let start ← begin
  keyword text
  leaf text start

def importType (read : Reader) : Parser Concrete := do
  let start ← begin
  keyword "import"
  mark "("
  let path ← string
  mark ")"
  let _ ← many do
    mark "."
    word
  let arguments ← maybe (typeArguments read)
  finish "import_type" start (path :: arguments.toList)

def typeQuery (read : Reader) : Parser Concrete := do
  let start ← begin
  keyword "typeof"
  let value ← importType read <|> path
  let arguments ← maybe do
    check (!(← lineEndsHere))
    typeArguments read
  finish "type_query" start (value :: arguments.toList)
where
  path : Parser Concrete := do
    let first ← keywordNode "this" <|> wordNode "identifier"
    extend (fun object => do
      mark "."
      let property ← privateName <|> wordNode "property_identifier"
      finish "member_expression" object.start
        [object.under "object", property.under "property"]) first

def primaryType (read : Reader) : Parser Concrete := do
  let start ← begin
  match ← peek? with
  | some '(' =>
    mark "("
    let type ← read .type
    mark ")"
    finish "parenthesized_type" start [type]
  | some '[' =>
    mark "["
    let elements ← listUpTo "]" (tupleElement read)
    finish "tuple_type" start elements
  | some '\x7b' => objectType read "object_type"
  | some '"' | some '\'' => string
  | some '-' =>
    mark "-"
    number
  | some '\x60' => template read .type
  | some c =>
    if c.isDigit then number
    else typeQuery read <|> importType read <|> typeName read
  | none => failure

def indexedType (read : Reader) : Parser Concrete := do
  let first ← primaryType read
  extend (fun type => do
    check (!(← lineEndsHere))
    mark "["
    let index ← maybe (read .type)
    mark "]"
    finish "lookup_type" type.start (type :: index.toList)) first

def typeOperand (read : Reader) : Parser Concrete := prefixed <|> inferred <|> indexedType read
where
  prefixed : Parser Concrete := do
    let start ← begin
    keyword "keyof" <|> keyword "unique" <|> keyword "readonly"
    let type ← read .typeOperand
    finish "index_type_query" start [type]
  inferred : Parser Concrete := do
    let start ← begin
    keyword "infer"
    let name ← nameNode "type_identifier"
    let bound ← maybe do
      keyword "extends"
      let bound ← read .typeOperand
      check (!(← would (mark "?")))
      return bound
    finish "infer_type" start (name :: bound.toList)

def joinedTypes (separator : String) (kind : String) (item : Parser Concrete) :
    Parser Concrete := do
  let start ← begin
  let _ ← maybe (mark separator)
  match ← separated separator item with
  | [type] => return type
  | types => finish kind start types

def type (read : Reader) : Parser Concrete := functionType read <|> do
  let start ← begin
  let first ← joinedTypes "|" "union_type"
    (joinedTypes "&" "intersection_type" (functionType read <|> read .typeOperand))
  let rest ← maybe do
    check (!(← lineEndsHere))
    keyword "extends"
    let bound ← joinedTypes "|" "union_type"
      (joinedTypes "&" "intersection_type" (functionType read <|> read .typeOperand))
    mark "?"
    let yes ← read .type
    mark ":"
    let no ← read .type
    return [bound, yes, no]
  match rest with
  | none => return first
  | some rest => finish "conditional_type" start (first :: rest)

end JsxBoundary.Tsx.Parser
