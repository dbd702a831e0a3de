namespace JsxBoundary

inductive Fault where
  | unparsable
  /-- The source text does not parse: the first fault is a missing token or unexpected text at this
  line and column, both counted from one. -/
  | unparsableAt (missing : Bool) (line column : Nat)
  | splitCharacter
  | unprintable (typeName : String)
  | headless
  | missingPart
  /-- A node of the first type was to be replaced under one of the second type that does not own
  it. -/
  | notAChild (child parent : String)
  | rootReplaced
  /-- The statement that an import is placed beside does not occur in the module's layout. -/
  | lostStatement
  | refused (reason : String)
  deriving DecidableEq, Repr

namespace Fault

def kind : Fault → String
  | .unparsable | .unparsableAt _ _ _ => "JsxSyntaxError"
  | .splitCharacter => "UnicodeDecodeError"
  | .unprintable _ | .headless => "MalformedTreeError"
  | .missingPart => "AttributeError"
  | .notAChild _ _ | .rootReplaced | .lostStatement | .refused _ => "ValueError"

def message? : Fault → Option String
  | .unparsable => some "Failed to parse JSX"
  | .unparsableAt missing line column =>
    let what := if missing then "missing token" else "unexpected syntax"
    some s!"Failed to parse JSX: {what} (line {line}, column {column})"
  | .splitCharacter | .missingPart => none
  | .unprintable typeName => some s!"Cannot emit synthesized {typeName} without source layout"
  | .headless => some "JSX element without an opening element"
  | .notAChild child parent => some s!"{child} is not a child of {parent}"
  | .rootReplaced => some "The module root cannot be replaced"
  | .lostStatement => some "Statement missing from module layout"
  | .refused reason => some reason

def isSyntax : Fault → Bool
  | .unparsable | .unparsableAt _ _ _ => true
  | _ => false

end Fault

end JsxBoundary
