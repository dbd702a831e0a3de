import JsxBoundary.Concrete.Read
import JsxBoundary.Tsx.Statement

/-!
# Reading modules

`Tsx.parse?` reads a module from source text and gives its concrete tree, or nothing if the text does
not follow the grammar; `Tsx.read` makes nodes of that tree.

The recursion of the grammar is tied here. Every goal that is read takes one unit off a bound; between
two characters of the source text the grammar comes back to a few goals only, so a bound in proportion
to the length of the text is never reached.
-/

namespace JsxBoundary.Tsx

def Goal.read (below : Reader) : Reader
  | .expression inAllowed => Parser.expression below inAllowed
  | .assignment inAllowed arrowTypes => Parser.assignment below inAllowed arrowTypes
  | .operand strength inAllowed asserted => Parser.operand below strength inAllowed asserted
  | .unary asserted => Parser.unary below asserted
  | .access => Parser.access below true
  | .primary => Parser.primary below
  | .pattern => Parser.pattern below
  | .type => Parser.type below
  | .typeOperand => Parser.typeOperand below
  | .statement => Parser.statement below
  | .block => Parser.block below
  | .markup => Parser.markup below (Parser.typeArguments below)

def reader : Nat → Reader
  | 0 => fun _ => failure
  | bound + 1 => Goal.read (reader bound)

def parse? (source : String) : Option Concrete :=
  (Parser.module (reader (32 * (source.length + 1))) (.ofString source)).map (·.1)

def read (source : String) : Except Fault Node :=
  match parse? source with
  | some root => root.toProgram source
  | none => .error .unparsable

end JsxBoundary.Tsx
