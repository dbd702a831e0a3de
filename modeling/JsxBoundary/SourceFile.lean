import JsxBoundary.Transform
import JsxBoundary.Tsx

namespace JsxBoundary

def sourceSuffixes : List String :=
  [".jsx", ".tsx"]

/-- The name ends like that of a source file. A line break at its very end does not count. -/
def isSourceName (name : String) : Bool :=
  let reversed := match name.toList.reverse with
    | '\n' :: rest => rest
    | all => all
  sourceSuffixes.any (·.toList.reverse.isPrefixOf reversed)

namespace Outcome

def ofSource (o : Options) (source : String) (parse : String → Except Fault Node := Tsx.read) : Outcome :=
  ofParsed o source (parse source)

def ofFile? (o : Options) (name source : String) (parse : String → Except Fault Node := Tsx.read) :
    Option Outcome :=
  if isSourceName name then some (ofSource o source parse) else none

end Outcome

def transform (o : Options) (source : String) (parse : String → Except Fault Node := Tsx.read) :
    Except String String :=
  (Outcome.ofSource o source parse).result

end JsxBoundary
