import JsxBoundary.Options.Datum
import JsxBoundary.Storage.Path

namespace JsxBoundary.CommandLine

inductive Flag where
  | help | out | componentName | importSource | allGet | methodName | reactiveComponent
  | observerName | noWrapReactiveChildren | wrapChildrenComponent | jsonTrace | verbose
  | version
  deriving DecidableEq, Repr

namespace Flag

def long : Flag → String
  | help => "--help"
  | out => "--out"
  | componentName => "--component-name"
  | importSource => "--import-source"
  | allGet => "--all-get"
  | methodName => "--method-name"
  | reactiveComponent => "--reactive-component"
  | observerName => "--observer-name"
  | noWrapReactiveChildren => "--no-wrap-reactive-children"
  | wrapChildrenComponent => "--wrap-children-component"
  | jsonTrace => "--json-trace"
  | verbose => "--verbose"
  | version => "--version"

def letter? : Flag → Option Char
  | help => some 'h'
  | verbose => some 'v'
  | _ => none

def takesValue : Flag → Bool
  | help | allGet | noWrapReactiveChildren | verbose | version => false
  | _ => true

def beforeCommand : List Flag :=
  [help, version]

def ofCommand : List Flag :=
  [help, out, componentName, importSource, allGet, methodName, reactiveComponent, observerName,
    noWrapReactiveChildren, wrapChildrenComponent, jsonTrace, verbose]

end Flag

inductive Word where
  | plain (text : String)
  | separator
  | flag (flag : Flag) (value : Option String)
  /-- Flags of one letter that share one dash; `surplus` if another letter follows them. -/
  | letters (flags : List Flag) (surplus : Bool)
  | unknown
  | wrong
  deriving DecidableEq, Repr

namespace Word

def isNegativeNumber (text : List Char) : Bool :=
  match text with
  | '-' :: cs =>
    let whole := cs.takeWhile Char.isDigit
    match cs.dropWhile Char.isDigit with
    | [] => !whole.isEmpty
    | '.' :: rest => !rest.isEmpty && rest.all Char.isDigit
    | _ => false
  | _ => false

def ofLong? (flags : List Flag) (text : List Char) : Option Word :=
  let spelled := text.takeWhile (· != '=')
  let value := match text.dropWhile (· != '=') with
    | _ :: cs => some (String.ofList cs)
    | [] => none
  match flags.find? (·.long.toList == spelled) with
  | some f => some (.flag f value)
  | none =>
    match flags.filter fun f => spelled.isPrefixOf f.long.toList with
    | [] => none
    | [f] => some (.flag f value)
    | _ => some .wrong

/-- Flags of one letter, given the letters after the dash: as many as are flags, at least one. -/
def ofLetters? (flags : List Flag) (letters : List Char) : Option Word :=
  let found := (letters.map fun c => flags.find? (·.letter? == some c)).takeWhile Option.isSome
  if found.isEmpty then none
  else some (.letters (found.filterMap id) (found.length < letters.length))

def ofText (flags : List Flag) (text : String) : Word :=
  let chars := text.toList
  match chars with
  | ['-', '-'] => .separator
  | '-' :: '-' :: _ => (ofLong? flags chars).getD (unknownOrPlain chars)
  | '-' :: c :: cs => (ofLetters? flags (c :: cs)).getD (unknownOrPlain chars)
  | _ => .plain text
where
  unknownOrPlain (chars : List Char) : Word :=
    if isNegativeNumber chars || chars.contains ' ' then .plain (String.ofList chars) else .unknown

def ofTexts (flags : List Flag) : List String → List Word
  | [] => []
  | text :: texts =>
    match ofText flags text with
    | .separator => .separator :: texts.map .plain
    | word => word :: ofTexts flags texts

end Word

structure Conversion where
  path : Path
  out : Option Path := none
  /-- Where the trace of a single file goes. With a directory, every file gets a trace beside its new
  text. -/
  trace : Option Path := none
  verbose : Bool := false
  overrides : Table := []

inductive Request where
  | help
  | version
  | misuse
  | convert (c : Conversion)

structure Given where
  path : Option String := none
  flags : List (Flag × String) := []
  surplus : Bool := false

namespace Given

def last? (g : Given) (f : Flag) : Option String :=
  (g.flags.reverse.find? (·.1 == f)).map (·.2)

def all (g : Given) (f : Flag) : List String :=
  g.flags.filterMap fun (f', value) => if f' == f then some value else none

def has (g : Given) (f : Flag) : Bool :=
  (g.last? f).isSome

def overrides (g : Given) : Table :=
  let text (f : Flag) : Datum := (g.last? f).elim .null .string
  let truth (f : Flag) (value : Bool) : Datum := if g.has f then .boolean value else .null
  let list (f : Flag) : Datum := if g.has f then .list ((g.all f).map .string) else .null
  [("component_name", text .componentName), ("import_source", text .importSource),
    ("all_get", truth .allGet true), ("method_names", list .methodName),
    ("reactive_components", list .reactiveComponent), ("observer_names", list .observerName),
    ("wrap_reactive_children", truth .noWrapReactiveChildren false),
    ("wrap_reactive_children_components", list .wrapChildrenComponent)]

def request (g : Given) : Request :=
  match g.path, g.surplus with
  | some path, false => .convert {
      path := .ofString path
      out := (g.last? .out).map .ofString
      trace := (g.last? .jsonTrace).map .ofString
      verbose := g.has .verbose
      overrides := g.overrides }
  | _, _ => .misuse

def addAll (g : Given) (flags : List Flag) : Given :=
  { g with flags := g.flags ++ flags.map (·, "") }

/-- Reads the words of the command one by one. The first word that asks for help, or whose value is
missing or has no place, decides. -/
def readWords (g : Given) : List Word → Request
  | [] => g.request
  | .plain text :: .separator :: words =>
    if g.path.isNone then readWords { g with path := some text } words
    else readWords { g with surplus := true } words
  | .plain text :: words =>
    if g.path.isNone then readWords { g with path := some text } words
    else readWords { g with surplus := true } words
  | .separator :: words => readWords { g with surplus := g.surplus || g.path.isSome } words
  | .unknown :: words => readWords { g with surplus := true } words
  | .wrong :: _ => .misuse
  | .letters flags surplus :: words =>
    if flags.contains .help then .help
    else readWords { g.addAll flags with surplus := g.surplus || surplus } words
  | .flag f none :: words =>
    if f == .help then .help
    else if !f.takesValue then readWords (g.addAll [f]) words
    else match words with
      | .plain value :: words => readWords { g with flags := g.flags ++ [(f, value)] } words
      | _ => .misuse
  | .flag f (some value) :: words =>
    if f.takesValue then readWords { g with flags := g.flags ++ [(f, value)] } words else .misuse

end Given

namespace Request

def ofArguments (surplus : Bool) : List String → Request
  | [] => .misuse
  | text :: texts =>
    match Word.ofText Flag.beforeCommand text with
    | .plain "convert" =>
      let words := Word.ofTexts Flag.ofCommand texts
      if words.contains .wrong then .misuse else Given.readWords { surplus } words
    | .flag .version none => .version
    | .flag .help none => .help
    | .letters _ _ => .help
    | .unknown => ofArguments true texts
    | _ => .misuse

end Request

end JsxBoundary.CommandLine
