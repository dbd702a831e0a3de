import JsxBoundary.Tsx.Function
import JsxBoundary.Tsx.Markup

namespace JsxBoundary.Tsx.Parser

/-! ## Primary expressions -/

def array (read : Reader) : Parser Concrete := do
  let start ← begin
  mark "["
  let elements ← elementsUpTo "]" (spread read <|> read .item)
  finish "array" start elements

def callArguments (read : Reader) : Parser Concrete := do
  let start ← begin
  mark "("
  let arguments ← elementsUpTo ")" (spread read <|> read .item)
  finish "arguments" start arguments

def parenthesized (read : Reader) : Parser Concrete := do
  let start ← begin
  mark "("
  let inner ← read (.expression true)
  mark ")"
  finish "parenthesized_expression" start [inner]

def dotted (object : Concrete) : Parser Concrete := do
  mark "."
  let property ← privateName <|> wordNode "property_identifier"
  finish "member_expression" object.start [object.under "object", property.under "property"]

def indexed (read : Reader) (object : Concrete) (chain : List Concrete) : Parser Concrete := do
  mark "["
  let index ← read (.expression true)
  mark "]"
  finish "subscript_expression" object.start
    (object.under "object" :: chain ++ [index.under "index"])

def called (read : Reader) (callee : Concrete) (chain : List Concrete) : Parser Concrete := do
  let types ← maybe (typeArguments read)
  let arguments ← callArguments read <|> template read (.expression true)
  finish "call_expression" callee.start (callee.under "function" :: chain ++
    (types.map (·.under "type_arguments")).toList ++ [arguments.under "arguments"])

/-- `new` with what it constructs. Calls after that belong to the object and not to its class. -/
def construction (read : Reader) : Parser Concrete := do
  let start ← begin
  keyword "new"
  if (← maybe do mark "."; keyword "target").isSome then return ← leaf "meta_property" start
  let first ← read .primary
  let constructed ← extend (fun e => dotted e <|> indexed read e []) first
  let types ← maybe do
    let types ← typeArguments read
    check ((← mark?) == some "(")
    return types
  let arguments ← maybe (callArguments read)
  finish "new_expression" start
    (constructed.under "constructor" :: types.toList ++ arguments.toList)

def wordExpressions : List String :=
  ["this", "super", "null", "true", "false", "undefined"]

def importExpression : Parser Concrete := do
  let start ← begin
  keyword "import"
  if (← maybe do mark "."; keyword "meta").isSome then return ← leaf "meta_property" start
  check ((← mark?) == some "(")
  leaf "import" start

def wordExpression (read : Reader) : Parser Concrete := do
  let start ← begin
  match ← ahead word with
  | "function" => functionExpression read
  | "async" => functionExpression read <|> nameNode "identifier"
  | "class" => classDefinition read "class"
  | "new" => construction read <|> wordNode "identifier"
  | "export" => wordNode "identifier"
  | "import" => importExpression
  | "await" => failure
  | w =>
    if wordExpressions.contains w then
      let _ ← word
      leaf w start
    else nameNode "identifier"

def primary (read : Reader) : Parser Concrete := do
  let _ ← trivia
  match ← peek? with
  | some '"' | some '\'' => string
  | some '\x60' => template read (.expression true)
  | some '(' => parenthesized read
  | some '[' => array read
  | some '\x7b' => object read
  | some '<' => markup read (typeArguments read)
  | some '/' => regex
  | some '#' => do
    let name ← privateName
    check (← would (keyword "in"))
    return name
  | some '@' => classDefinition read "class"
  | some c => if c.isDigit || c == '.' then number else wordExpression read
  | none => failure

/-! ## Arrow functions -/

def arrowHead (read : Reader) (arrowTypes : Bool) : Parser (List Concrete) := do
  let _ ← maybe do
    keyword "async"
    check (!(← lineEndsHere))
    check ((← would name) || (← mark?) == some "(" || (← mark?) == some "<")
  let head ← single <|> listed
  check (!(← lineEndsHere))
  mark "=>"
  return head
where
  single : Parser (List Concrete) := do
    let parameter ← nameNode "identifier"
    check ((← mark?) == some "=>")
    return [parameter.under "parameter"]
  listed : Parser (List Concrete) := do
    let types ← maybe (typeParameters read)
    let parameters ← formalParameters read
    let result ← if arrowTypes then maybe (returnType read) else pure none
    check ((← mark?) == some "=>")
    return types.toList ++ parameters.under "parameters" ::
      (result.map (·.under "return_type")).toList

def arrow (read : Reader) (inAllowed arrowTypes : Bool) : Parser Concrete := do
  let start ← begin
  let head ← arrowHead read arrowTypes
  let body ← if (← mark?) == some "\x7b" then read .block
    else read (.assignment inAllowed arrowTypes)
  finish "arrow_function" start (head ++ [body.under "body"])

/-! ## Accesses, calls and operators

An assertion (`!`, `as`, `satisfies`) after an operand is about everything that the operators before
it have joined: `a || b!` asserts the disjunction, and `a || b!.c` is a property of it. So the right
operand of such an operator leaves the assertion to the whole; only `await` and `**` keep it to their
own operand. -/

def endsInstantiation : Parser Bool := do
  let following ← mark?
  let textEnds ← ahead do
    let _ ← trivia
    return (← peek?).isNone
  return textEnds || [")", "]", ",", ";", ":", "\x7d"].any (following == some ·)

def nonNull (e : Concrete) : Parser Concrete := do
  check (!(← lineEndsHere))
  mark "!"
  finish "non_null_expression" e.start [e]

def accessStep (read : Reader) (asserted : Bool) (e : Concrete) : Parser Concrete := do
  match ← mark? with
  | some "." => dotted e
  | some "[" => indexed read e []
  | some "(" | some "\x60" => called read e []
  | some "?." =>
    let start ← begin
    mark "?."
    let chain ← leaf "optional_chain" start
    match ← mark? with
    | some "[" => indexed read e [chain]
    | some "(" | some "<" | some "\x60" => called read e [chain]
    | _ =>
      let property ← privateName <|> wordNode "property_identifier"
      finish "member_expression" e.start [e.under "object", chain, property.under "property"]
  | some "<" | some "<<" =>
    called read e [] <|> do
      let types ← typeArguments read
      check (← endsInstantiation)
      finish "instantiation_expression" e.start [e, types]
  | some "!" => check asserted *> nonNull e
  | _ => failure

def access (read : Reader) (asserted : Bool) : Parser Concrete := do
  let first ← primary read
  extend (accessStep read asserted) first

def postfixed (read : Reader) (asserted : Bool) : Parser Concrete := do
  let e ← access read asserted
  let update ← maybe do
    check (!(← lineEndsHere))
    mark "++" <|> mark "--"
  if update.isSome then finish "update_expression" e.start [e] else return e

def unaryMarks : List String :=
  ["!", "~", "+", "-", "++", "--"]

def unaryWords : List String :=
  ["typeof", "void", "delete"]

def binaryMarks : List (String × Nat) :=
  [("??", 1), ("||", 2), ("&&", 3), ("|", 4), ("^", 5), ("&", 6), ("==", 7), ("!=", 7), ("===", 7),
    ("!==", 7), ("<", 8), (">", 8), ("<=", 8), (">=", 8), ("<<", 9), (">>", 9), (">>>", 9),
    ("+", 10), ("-", 10), ("*", 11), ("/", 11), ("%", 11), ("**", 12)]

def wordStrength : Nat := 8

def unaryStrength : Nat := 13

def unary (read : Reader) (asserted : Bool) : Parser Concrete :=
  marked <|> worded <|> awaited <|> postfixed read asserted
where
  marked : Parser Concrete := do
    let start ← begin
    let some m ← mark? | failure
    check (unaryMarks.contains m)
    mark m
    let inner ← read (.unary false)
    finish (if m == "++" || m == "--" then "update_expression" else "unary_expression") start
      [inner]
  worded : Parser Concrete := do
    let start ← begin
    let w ← word
    check (unaryWords.contains w)
    let inner ← read (.unary false)
    finish "unary_expression" start [inner]
  awaited : Parser Concrete := do
    let start ← begin
    keyword "await"
    let inner ← read (.operand unaryStrength true true)
    finish "await_expression" start [inner]

/-- One more operator of at least the given strength with its right operand, or an assertion about
what stands before it. -/
def operandStep (read : Reader) (strength : Nat) (inAllowed asserted : Bool) (left : Concrete) :
    Parser Concrete := binary <|> worded <|> typed <|> nonNullAccess
where
  binary : Parser Concrete := do
    let some m ← mark? | failure
    let some s := binaryMarks.lookup m | failure
    check (strength ≤ s)
    mark m
    let right ← arrow read inAllowed false <|> read (if m == "**" then .operand s inAllowed true
      else .operand (s + 1) inAllowed false)
    finish "binary_expression" left.start [left.under "left", right.under "right"]
  worded : Parser Concrete := do
    check (strength ≤ wordStrength)
    keyword "instanceof" <|> (check inAllowed *> keyword "in")
    let right ← read (.operand (wordStrength + 1) inAllowed false)
    finish "binary_expression" left.start [left.under "left", right.under "right"]
  typed : Parser Concrete := do
    check (asserted && !(← lineEndsHere))
    let w ← word
    check (w == "as" || w == "satisfies")
    let type ← (keywordNode "const") <|> read .type
    finish (if w == "as" then "as_expression" else "satisfies_expression") left.start [left, type]
  nonNullAccess : Parser Concrete := do
    check asserted
    let whole ← nonNull left
    extend (accessStep read true) whole

def operand (read : Reader) (strength : Nat) (inAllowed asserted : Bool) : Parser Concrete := do
  let first ← unary read asserted
  extend (operandStep read strength inAllowed asserted) first

/-! ## Conditions, assignments and sequences -/

def yielded (read : Reader) (inAllowed : Bool) : Parser Concrete := do
  let start ← begin
  keyword "yield"
  let star ← maybe (mark "*")
  let value ← maybe do
    check (star.isSome || !(← lineEndsHere))
    read (.assignment inAllowed true)
  check (value.isSome || !((← mark?) == some "=>" || (← mark?) == some "="))
  finish "yield_expression" start value.toList

/-- What begins an expression: an arrow function or operands joined by operators. An arrow function
may be an operand too, though its body leaves nothing to join unless it ends with a brace. -/
def joined (read : Reader) (inAllowed arrowTypes : Bool) : Parser Concrete :=
  (do
    let first ← arrow read inAllowed arrowTypes
    let accessed ← extend (accessStep read true) first
    extend (operandStep read 1 inAllowed true) accessed) <|> operand read 1 inAllowed true

/-- A condition with the two values to choose from, or what would be the condition on its own. The
colon after the first value could belong to the return type of an arrow function; if it has to be
there for the condition, that function has no return type. -/
def conditional (read : Reader) (inAllowed arrowTypes : Bool) : Parser Concrete := do
  let condition ← joined read inAllowed arrowTypes
  if (← mark?) != some "?" then return condition
  mark "?"
  let here ← get
  let mut yes ← read (.assignment true true)
  if (← mark?) != some ":" then
    set here
    yes ← read (.assignment true false)
  mark ":"
  let no ← read (.assignment inAllowed arrowTypes)
  finish "ternary_expression" condition.start [condition, yes, no]

def assignmentMarks : List String :=
  ["=", "+=", "-=", "*=", "/=", "%=", "&=", "|=", "^=", "<<=", ">>=", ">>>=", "**=", "&&=", "||=",
    "??="]

def assignableKinds : List String :=
  ["identifier", "member_expression", "subscript_expression", "array", "object", "undefined",
    "non_null_expression", "parenthesized_expression"]

def assignment (read : Reader) (inAllowed arrowTypes : Bool) : Parser Concrete :=
  yielded read inAllowed <|> do
    let left ← conditional read inAllowed arrowTypes
    match ← mark? with
    | none => return left
    | some m =>
      if !assignmentMarks.contains m then return left
      check (assignableKinds.contains left.kind)
      mark m
      let right ← read (.assignment inAllowed arrowTypes)
      finish (if m == "=" then "assignment_expression" else "augmented_assignment_expression")
        left.start [left.under "left", right.under "right"]

def expression (read : Reader) (inAllowed : Bool) : Parser Concrete := do
  match ← separated "," (read (.assignment inAllowed true)) with
  | [e] => return e
  | es => finish "sequence_expression" ((es.head?.map (·.start)).getD 0) es

end JsxBoundary.Tsx.Parser
