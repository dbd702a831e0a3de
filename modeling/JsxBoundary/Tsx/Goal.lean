import JsxBoundary.Tsx.StatementEnd

namespace JsxBoundary.Tsx

inductive Goal where
  | expression (inAllowed : Bool)
  /-- An expression without commas. An arrow function in it may have a return type, except between
  the two marks of a conditional expression. -/
  | assignment (inAllowed arrowTypes : Bool)
  /-- Operands joined by operators of at least this strength, with the assertions after them if
  `asserted`. -/
  | operand (strength : Nat) (inAllowed asserted : Bool)
  | unary (asserted : Bool)
  | access
  | primary
  | pattern
  | type
  | typeOperand
  | statement
  | block
  | markup
  deriving DecidableEq, Repr

abbrev Reader := Goal → Parser Concrete

abbrev Goal.item : Goal :=
  .assignment true true

end JsxBoundary.Tsx
