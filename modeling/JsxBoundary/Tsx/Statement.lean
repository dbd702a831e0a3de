import JsxBoundary.Tsx.Expression

namespace JsxBoundary.Tsx.Parser

/-! ## Declarations -/

def declarator (read : Reader) (inAllowed : Bool) : Parser Concrete := do
  let start ← begin
  let binding ← read .pattern
  let asserted ← maybe (mark "!")
  let type ← maybe (annotatedType read)
  check (asserted.isNone || type.isSome)
  let value ← maybe do
    check asserted.isNone
    mark "="
    read (.assignment inAllowed true)
  finish "variable_declarator" start
    (binding.under "name" :: type.toList ++ (value.map (·.under "value")).toList)

def variableList (read : Reader) (inAllowed : Bool) : Parser (String × List Concrete) := do
  let w ← word
  check (["var", "let", "const"].contains w)
  let kind := if w == "var" then "variable_declaration" else "lexical_declaration"
  return (kind, ← separated "," (declarator read inAllowed))

def variableStatement (read : Reader) : Parser Concrete := do
  let start ← begin
  let (kind, declarators) ← variableList read true
  semicolon
  finish kind start declarators

def typeAlias (read : Reader) : Parser Concrete := do
  let start ← begin
  keyword "type"
  check (!(← lineEndsHere))
  let name ← nameNode "type_identifier"
  let parameters ← maybe (typeParameters read)
  mark "="
  let type ← read .type
  semicolon
  finish "type_alias_declaration" start (name :: parameters.toList ++ [type])

def interface (read : Reader) : Parser Concrete := do
  let start ← begin
  keyword "interface"
  let name ← nameNode "type_identifier"
  let parameters ← maybe (typeParameters read)
  let bases ← maybe do
    keyword "extends"
    separated "," (read .type)
  let body ← objectType read "interface_body"
  finish "interface_declaration" start (name :: parameters.toList ++ bases.getD [] ++ [body])

def enumeration (read : Reader) : Parser Concrete := do
  let start ← begin
  let _ ← maybe (keyword "const")
  keyword "enum"
  let name ← nameNode "identifier"
  let bodyStart ← begin
  mark "\x7b"
  let members ← listUpTo "\x7d" do
    let start ← begin
    let key ← propertyName read
    let value ← maybe do
      mark "="
      read .item
    finish "enum_assignment" start (key :: value.toList)
  let body ← finish "enum_body" bodyStart members
  finish "enum_declaration" start [name, body]

/-- A name, or a path of names with points between them. Within a path, the paths that are shorter
are member expressions. -/
def namePath : Parser Concrete := do
  let first ← nameNode "identifier"
  let path ← extend (fun object => do
    mark "."
    let property ← wordNode "property_identifier"
    finish "member_expression" object.start [object.under "object", property.under "property"]) first
  return if path.kind == "member_expression" then path.ofKind "nested_identifier" else path

def namespaceBlock (read : Reader) : Parser Concrete := do
  let start ← begin
  keyword "namespace" <|> keyword "module"
  check (!(← lineEndsHere))
  let name ← string <|> namePath
  match ← maybe (read .block) with
  | some body => finish "internal_module" start [name, body]
  | none =>
    semicolon
    finish "internal_module" start [name]

def ambient (read : Reader) : Parser Concrete := do
  let start ← begin
  keyword "declare"
  check (!(← lineEndsHere))
  let declared ← (do keyword "global"; read .block) <|> (do
    check (!(← would (semicolon <|> mark "=" <|> mark "." <|> mark "(")))
    read .statement)
  finish "ambient_declaration" start [declared]

/-! ## Imports and exports -/

/-- The name that an import or an export gives to a binding: a name, `default`, or a string. -/
def exportedName : Parser Concrete :=
  string <|> wordNode "identifier"

def specifier (kind : String) : Parser Concrete := do
  let start ← begin
  let _ ← maybe do
    keyword "type"
    check ((← would string) || (← would (do
      let w ← word
      check (w != "as" || (← would (do keyword "as"; exportedName))))))
  let name ← exportedName
  let other ← maybe do
    keyword "as"
    exportedName
  finish kind start (name.under "name" :: (other.map (·.under "alias")).toList)

def specifiers (kind itemKind : String) : Parser Concrete := do
  let start ← begin
  mark "\x7b"
  let items ← listUpTo "\x7d" (specifier itemKind)
  finish kind start items

def namespaceBinding (kind : String) : Parser Concrete := do
  let start ← begin
  mark "*"
  keyword "as"
  let name ← exportedName
  finish kind start [name]

def importClause : Parser Concrete := do
  let start ← begin
  let others := namespaceBinding "namespace_import" <|> specifiers "named_imports" "import_specifier"
  let parts ← (return [← others]) <|> do
    let first ← nameNode "identifier"
    let second ← maybe do
      mark ","
      others
    return first :: second.toList
  finish "import_clause" start parts

def importAttributes (read : Reader) : Parser Concrete := do
  let start ← begin
  keyword "with" <|> keyword "assert"
  let entries ← object read
  finish "import_attribute" start [entries]

def fromModule (read : Reader) : Parser (List Concrete) := do
  keyword "from"
  let path ← string
  let attributes ← maybe (importAttributes read)
  return path.under "source" :: attributes.toList

def importStatement (read : Reader) : Parser Concrete := do
  let start ← begin
  keyword "import"
  let (kind, parts) ← (("import_statement", ·) <$> (bare <|> typeClause <|> clause <|> required)) <|>
    (("import_alias", ·) <$> renamed)
  semicolon
  finish kind start parts
where
  bare : Parser (List Concrete) := do
    let path ← string
    let attributes ← maybe (importAttributes read)
    return path.under "source" :: attributes.toList
  clause : Parser (List Concrete) := do
    let clause ← importClause
    return clause :: (← fromModule read)
  typeClause : Parser (List Concrete) := do
    keyword "type" <|> keyword "typeof"
    clause
  required : Parser (List Concrete) := do
    let _ ← maybe do
      keyword "type"
      check (← would name)
    let start ← begin
    let name ← nameNode "identifier"
    mark "="
    keyword "require"
    mark "("
    let path ← string
    mark ")"
    return [← finish "import_require_clause" start [name, path.under "source"]]
  renamed : Parser (List Concrete) := do
    let name ← nameNode "identifier"
    mark "="
    let path ← namePath
    return [name, path]

def declarationKinds : List String :=
  ["variable_declaration", "lexical_declaration", "function_declaration",
    "generator_function_declaration", "function_signature", "class_declaration",
    "abstract_class_declaration", "type_alias_declaration", "interface_declaration",
    "enum_declaration", "internal_module", "import_alias", "ambient_declaration"]

def exportStatement (read : Reader) : Parser Concrete := do
  let start ← begin
  let decorators ← many (decorator read)
  keyword "export"
  let parts ← defaultValue <|> everything <|> named <|> assigned <|> global <|> declaration
  finish "export_statement" start (decorators ++ parts)
where
  defaultValue : Parser (List Concrete) := do
    keyword "default"
    let declared := (do
        check (← would (functionWord *> name))
        functionDeclaration read)
      <|> (do
        check (← would (many (decorator read) *> maybe (keyword "abstract") *> keyword "class"))
        classDefinition read "class_declaration")
      <|> (do
        check (← would (keyword "interface" *> name))
        interface read)
    let value := do
      let e ← read (.expression true)
      semicolon
      return e
    return [← declared <|> value]
  everything : Parser (List Concrete) := do
    let _ ← maybe (keyword "type")
    let binding ← (some <$> namespaceBinding "namespace_export") <|> (mark "*" *> pure none)
    let path ← fromModule read
    semicolon
    return binding.toList ++ path
  named : Parser (List Concrete) := do
    let _ ← maybe (keyword "type")
    let clause ← specifiers "export_clause" "export_specifier"
    let path ← maybe (fromModule read)
    semicolon
    return clause :: path.getD []
  assigned : Parser (List Concrete) := do
    mark "="
    let value ← read (.expression true)
    semicolon
    return [value]
  global : Parser (List Concrete) := do
    keyword "as"
    keyword "namespace"
    let name ← nameNode "identifier"
    semicolon
    return [name]
  declaration : Parser (List Concrete) := do
    let declared ← read .statement
    check (declarationKinds.contains declared.kind)
    return [declared.under "declaration"]

/-! ## Statements -/

def block (read : Reader) : Parser Concrete := do
  let start ← begin
  mark "\x7b"
  let statements ← many (read .statement)
  mark "\x7d"
  finish "statement_block" start statements

def condition (read : Reader) : Parser Concrete := parenthesized read

def ifStatement (read : Reader) : Parser Concrete := do
  let start ← begin
  keyword "if"
  let test ← condition read
  let yes ← read .statement
  let no ← maybe do
    let start ← begin
    keyword "else"
    let no ← read .statement
    finish "else_clause" start [no]
  finish "if_statement" start (test :: yes :: no.toList)

def loopHead (read : Reader) : Parser (List Concrete) := do
  mark "("
  let start ← begin
  let first : List Concrete ← (do
      check (← would (mark ";"))
      return []) <|> (do
      let (kind, declarators) ← variableList read false
      return [← finish kind start declarators]) <|> (return [← read (.expression false)])
  let rest ← (do
      keyword "of" <|> keyword "in"
      return [← read (.expression true)]) <|> (do
      mark ";"
      let test ← maybe (read (.expression true))
      mark ";"
      let update ← maybe (read (.expression true))
      return test.toList ++ update.toList)
  mark ")"
  return first ++ rest

def forStatement (read : Reader) : Parser Concrete := do
  let start ← begin
  keyword "for"
  let _ ← maybe (keyword "await")
  let head ← loopHead read
  let body ← read .statement
  finish "for_statement" start (head ++ [body])

def whileStatement (read : Reader) (word kind : String) : Parser Concrete := do
  let start ← begin
  keyword word
  let test ← condition read
  let body ← read .statement
  finish kind start [test, body]

def doStatement (read : Reader) : Parser Concrete := do
  let start ← begin
  keyword "do"
  let body ← read .statement
  keyword "while"
  let test ← condition read
  let _ ← maybe (mark ";")
  finish "do_statement" start [body, test]

def switchStatement (read : Reader) : Parser Concrete := do
  let start ← begin
  keyword "switch"
  let value ← condition read
  let bodyStart ← begin
  mark "\x7b"
  let cases ← many do
    let start ← begin
    let value ← (do keyword "case"; return [← read (.expression true)]) <|>
      (do keyword "default"; return [])
    mark ":"
    let statements ← many (read .statement)
    finish "switch_case" start (value ++ statements)
  mark "\x7d"
  let body ← finish "switch_body" bodyStart cases
  finish "switch_statement" start [value, body]

def tryStatement (read : Reader) : Parser Concrete := do
  let start ← begin
  keyword "try"
  let body ← read .block
  let handler ← maybe do
    let start ← begin
    keyword "catch"
    let binding ← maybe do
      mark "("
      let binding ← read .pattern
      let type ← maybe (annotatedType read)
      mark ")"
      return binding :: type.toList
    let body ← read .block
    finish "catch_clause" start (binding.getD [] ++ [body])
  let finalizer ← maybe do
    let start ← begin
    keyword "finally"
    let body ← read .block
    finish "finally_clause" start [body]
  check (handler.isSome || finalizer.isSome)
  finish "try_statement" start (body :: handler.toList ++ finalizer.toList)

def leavingStatement (word kind : String) (value : Parser Concrete) : Parser Concrete := do
  let start ← begin
  keyword word
  let value ← maybe do
    check (!(← would openEnd))
    value
  semicolon
  finish kind start value.toList

def throwStatement (read : Reader) : Parser Concrete := do
  let start ← begin
  keyword "throw"
  let value ← read (.expression true)
  semicolon
  finish "throw_statement" start [value]

def labeledStatement (read : Reader) : Parser Concrete := do
  let start ← begin
  let label ← nameNode "statement_identifier"
  mark ":"
  let body ← read .statement
  finish "labeled_statement" start [label, body]

def expressionStatement (read : Reader) : Parser Concrete := do
  let start ← begin
  let e ← read (.expression true)
  semicolon
  finish "expression_statement" start [e]

def namedClass (read : Reader) : Parser Concrete := do
  check (← would (many (decorator read) *> keyword "class" *> name))
  classDefinition read "class_declaration"

def contextual (read : Reader) (w : String) : Parser Concrete :=
  match w with
  | "let" => variableStatement read
  | "async" => do
    check (← would functionWord)
    functionDeclaration read
  | "type" => typeAlias read
  | "namespace" | "module" => namespaceBlock read
  | "declare" => ambient read
  | _ => failure

def wordStatement (read : Reader) (w : String) : Parser Concrete :=
  match w with
  | "function" => functionDeclaration read <|> expressionStatement read
  | "class" => namedClass read <|> expressionStatement read
  | "var" => variableStatement read
  | "const" => enumeration read <|> variableStatement read
  | "enum" => enumeration read
  | "import" => importStatement read <|> expressionStatement read
  | "export" => exportStatement read <|> expressionStatement read
  | "if" => ifStatement read
  | "for" => forStatement read
  | "while" => whileStatement read "while" "while_statement"
  | "with" => whileStatement read "with" "with_statement"
  | "do" => doStatement read
  | "switch" => switchStatement read
  | "try" => tryStatement read
  | "return" => leavingStatement "return" "return_statement" (read (.expression true))
  | "throw" => throwStatement read
  | "break" => leavingStatement "break" "break_statement" (nameNode "statement_identifier")
  | "continue" => leavingStatement "continue" "continue_statement" (nameNode "statement_identifier")
  | "debugger" => leavingStatement "debugger" "debugger_statement" failure
  | "interface" => interface read
  | "abstract" => classDefinition read "abstract_class_declaration"
  | _ => contextual read w <|> labeledStatement read <|> expressionStatement read

def statement (read : Reader) : Parser Concrete := do
  let start ← begin
  match ← peek? with
  | some '\x7b' => block read
  | some ';' =>
    mark ";"
    leaf "empty_statement" start
  | some '@' =>
    (do
      check (← would (many (decorator read) *> keyword "export"))
      exportStatement read) <|> classDefinition read "class_declaration"
  | some '<' => markupComment start <|> expressionStatement read
  | some _ =>
    match ← maybe (ahead word) with
    | some w => wordStatement read w
    | none => expressionStatement read
  | none => failure

/-! ## The module -/

def hashBang : Parser Concrete := do
  let start ← begin
  exactly "#!"
  let _ ← takeWhile fun c => !isLineEnd c && c != '\r'
  leaf "hash_bang_line" start

def module (read : Reader) : Parser Concrete := do
  let script ← maybe hashBang
  let statements ← many (read .statement)
  let _ ← trivia
  check (← peek?).isNone
  finish "program" 0 (script.toList ++ statements)

end JsxBoundary.Tsx.Parser
