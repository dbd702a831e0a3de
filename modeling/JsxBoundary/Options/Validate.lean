import JsxBoundary.Options.Basic
import JsxBoundary.Options.Datum
import JsxBoundary.Text.Blank

namespace JsxBoundary

inductive OptionName where
  | componentName | importSource | allGet | methodNames | markerSuffix | reactiveComponents
  | observerNames | wrapReactiveChildren | wrapReactiveChildrenComponents
  deriving DecidableEq, Repr

namespace OptionName

def all : List OptionName :=
  [componentName, importSource, allGet, methodNames, markerSuffix, reactiveComponents,
    observerNames, wrapReactiveChildren, wrapReactiveChildrenComponents]

def key : OptionName → String
  | componentName => "component_name"
  | importSource => "import_source"
  | allGet => "all_get"
  | methodNames => "method_names"
  | markerSuffix => "marker_suffix"
  | reactiveComponents => "reactive_components"
  | observerNames => "observer_names"
  | wrapReactiveChildren => "wrap_reactive_children"
  | wrapReactiveChildrenComponents => "wrap_reactive_children_components"

def camelKey : OptionName → String
  | componentName => "componentName"
  | importSource => "importSource"
  | allGet => "allGet"
  | methodNames => "methodNames"
  | markerSuffix => "markerSuffix"
  | reactiveComponents => "reactiveComponents"
  | observerNames => "observerNames"
  | wrapReactiveChildren => "wrapReactiveChildren"
  | wrapReactiveChildrenComponents => "wrapReactiveChildrenComponents"

theorem mem_all (name : OptionName) : name ∈ all := by
  cases name <;> decide

def find? (name : OptionName) (t : Table) : Option (String × Datum) :=
  match t.get? name.camelKey with
  | some value => some (name.camelKey, value)
  | none => (t.get? name.key).map (name.key, ·)

end OptionName

inductive OptionProblem where
  | notAString
  | notAList
  | unclearBoolean
  | notABoolean
  | invalidComponent (given : String)
  | emptyValue
  | unknownOption
  deriving DecidableEq, Repr

namespace OptionProblem

def kind : OptionProblem → String
  | notAString => "string_type"
  | notAList => "list_type"
  | unclearBoolean => "bool_parsing"
  | notABoolean => "bool_type"
  | invalidComponent _ | emptyValue => "value_error"
  | unknownOption => "extra_forbidden"

def message : OptionProblem → String
  | notAString => "Input should be a valid string"
  | notAList => "Input should be a valid list"
  | unclearBoolean => "Input should be a valid boolean, unable to interpret input"
  | notABoolean => "Input should be a valid boolean"
  | invalidComponent given =>
    "Value error, Invalid component name: '" ++ given ++
      "'. Expected a plain identifier such as 'Memo'."
  | emptyValue => "Value error, Value must not be empty."
  | unknownOption => "Extra inputs are not permitted"

end OptionProblem

structure OptionError where
  key : String
  item : Option Nat := none
  problem : OptionProblem
  deriving DecidableEq, Repr

namespace Datum

def asString : Datum → Except OptionProblem String
  | .string s => .ok s
  | _ => .error .notAString

def trueWords : List String := ["1", "on", "t", "true", "y", "yes"]

def falseWords : List String := ["0", "off", "f", "false", "n", "no"]

def asBoolean : Datum → Except OptionProblem Bool
  | .boolean b => .ok b
  | .integer 0 => .ok false
  | .integer 1 => .ok true
  | .integer _ => .error .unclearBoolean
  | .float x =>
    if x == 0 then .ok false else if x == 1 then .ok true else .error .notABoolean
  | .string s =>
    let word := String.ofList (s.toList.map Char.toLower)
    if trueWords.contains word then .ok true
    else if falseWords.contains word then .ok false
    else .error .unclearBoolean
  | _ => .error .notABoolean

end Datum

namespace Options

def isPlainName (s : String) : Bool :=
  let isStart (c : Char) := c.isAlpha || c == '_' || c == '$'
  match s.toList with
  | [] => false
  | c :: cs => isStart c && cs.all fun c => isStart c || c.isDigit

def checkComponent (given : String) : Except OptionProblem String :=
  let name := Text.trim given
  if isPlainName name then .ok name else .error (.invalidComponent given)

def checkNotEmpty (given : String) : Except OptionProblem String :=
  if Text.isBlank given then .error .emptyValue else .ok (Text.trim given)

/-- The errors found so far, in order, beside a value that counts if there are none. -/
abbrev Checked := StateM (List OptionError)

/-- The checked value of an option, or its default if the table does not have it or it is wrong. -/
def checkOne {α : Type} (t : Table) (name : OptionName) (default : α)
    (check : Datum → Except OptionProblem α) : Checked α := fun errors =>
  match name.find? t with
  | none => (default, errors)
  | some (key, value) =>
    match check value with
    | .ok a => (a, errors)
    | .error problem => (default, errors ++ [⟨key, none, problem⟩])

def checkList (t : Table) (name : OptionName) (default : List String) :
    Checked (List String) := fun errors =>
  match name.find? t with
  | none => (default, errors)
  | some (key, .list items) =>
    let checked := items.map Datum.asString
    let wrong := (checked.zipIdx.filterMap fun
      | (.error problem, i) => some ⟨key, some i, problem⟩
      | (.ok _, _) => none)
    (checked.filterMap Except.toOption, errors ++ wrong)
  | some (key, _) => (default, errors ++ [⟨key, none, .notAList⟩])

/-- The key spells no option, or spells one that the table has in the preferred spelling too. -/
def isUnknown (t : Table) (key : String) : Bool :=
  OptionName.all.all fun name => key != name.camelKey &&
    (key != name.key || (t.get? name.camelKey).isSome)

def ofTable (t : Table) : Except (List OptionError) Options :=
  let text (check : String → Except OptionProblem String) (d : Datum) := d.asString >>= check
  let d : Options := {}
  let checked : Checked Options := do
    let componentName ← checkOne t .componentName d.componentName (text checkComponent)
    let importSource ← checkOne t .importSource d.importSource (text checkNotEmpty)
    let allGet ← checkOne t .allGet d.allGet Datum.asBoolean
    let methodNames ← checkList t .methodNames d.methodNames
    let markerSuffix ← checkOne t .markerSuffix d.markerSuffix (text checkNotEmpty)
    let reactiveComponents ← checkList t .reactiveComponents d.reactiveComponents
    let observerNames ← checkList t .observerNames d.observerNames
    let wrapReactiveChildren ←
      checkOne t .wrapReactiveChildren d.wrapReactiveChildren Datum.asBoolean
    let wrapReactiveChildrenComponents ←
      checkList t .wrapReactiveChildrenComponents d.wrapReactiveChildrenComponents
    return ⟨componentName, importSource, allGet, methodNames, markerSuffix, reactiveComponents,
      observerNames, wrapReactiveChildren, wrapReactiveChildrenComponents⟩
  let (options, errors) := checked []
  let unknown := (t.map (·.1)).filter (isUnknown t)
  match errors ++ unknown.map (⟨·, none, .unknownOption⟩) with
  | [] => .ok options
  | errors => .error errors

end Options

end JsxBoundary
