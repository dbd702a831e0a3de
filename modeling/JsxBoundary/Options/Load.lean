import JsxBoundary.Options.Validate
import JsxBoundary.Text.Utf8
import JsxBoundary.Toml.Document

/-!
# Loading options

Options come from a configuration file, in its table `tool.jsx_memo`, and from a caller, whose values
override those of the file. `Options.load` merges the two and checks the result.

A value of the caller takes the place of the file's, except for the options that hold lists: their
items are added to those of the file, or to the default if the file has none, and then every item is
kept once.
-/

namespace JsxBoundary

inductive LoadFault where
  | undecodable (fault : Utf8.Fault)
  | notATable
  /-- Something is to be added to a list, and one of the two cannot be taken for a list of plain
  values. -/
  | notAList
  | invalid (errors : List OptionError)
  deriving DecidableEq, Repr

namespace OptionName

/-- The key that names an option in merged tables: the spelling with underscores. Keys that name no
option are left as they are. -/
def canonicalKey (key : String) : String :=
  match all.find? (·.camelKey == key) with
  | some name => name.key
  | none => key

def defaultList? (key : String) : Option (List String) :=
  let d : Options := {}
  [(methodNames, d.methodNames), (reactiveComponents, d.reactiveComponents),
    (observerNames, d.observerNames),
    (wrapReactiveChildrenComponents, d.wrapReactiveChildrenComponents)].findSome? fun (name, list) =>
      if name.key == key then some list else none

end OptionName

namespace Datum

/-- The items of a value that is taken for a list: the characters of a string, the keys of a table. -/
def items? : Datum → Option (List Datum)
  | .list items => some items
  | .string s => some (s.toList.map fun c => .string (String.singleton c))
  | .table entries => some (entries.map fun e => .string e.1)
  | _ => none

def isPlain : Datum → Bool
  | .list _ | .table _ => false
  | _ => true

def asInteger? : Datum → Option Int
  | .boolean b => some (if b then 1 else 0)
  | .integer n => some n
  | _ => none

/-- Two plain values are the same. Numbers are compared by value, whatever they are written as. -/
def isSame (a b : Datum) : Bool :=
  match a, b with
  | .null, .null => true
  | .string s, .string t | .moment s, .moment t => s == t
  | .float x, .float y => x == y
  | .float x, b => b.asInteger?.any (x == Float.ofInt ·)
  | a, .float y => a.asInteger?.any (Float.ofInt · == y)
  | a, b => match a.asInteger?, b.asInteger? with
    | some m, some n => m == n
    | _, _ => false

def distinct (values : List Datum) : List Datum :=
  values.foldl (fun kept d => if kept.any (·.isSame d) then kept else kept ++ [d]) []

end Datum

namespace Options

def mergeLists (base added : Datum) : Except LoadFault Datum :=
  match base.items?, added.items? with
  | some xs, some ys =>
    if (xs ++ ys).all Datum.isPlain then .ok (.list (Datum.distinct (xs ++ ys)))
    else .error .notAList
  | _, _ => .error .notAList

/-- The table with its keys in one spelling. Of two spellings of a key, the later value is kept. -/
def canonical (t : Table) : Table :=
  t.foldl (fun merged (key, value) => merged.insert (OptionName.canonicalKey key) value) []

def override (t : Table) (key : String) (value : Datum) : Except LoadFault Table := do
  if value matches .null then return t
  let key := OptionName.canonicalKey key
  match OptionName.defaultList? key with
  | none => return t.insert key value
  | some default =>
    let base := (t.get? key).getD (.list (default.map .string))
    return t.insert key (← mergeLists base value)

/-- The options that a table of a configuration file and the values of a caller come to. -/
def merge (configured overrides : Table) : Except LoadFault Options := do
  let merged ← overrides.foldlM (fun t (key, value) => override t key value) (canonical configured)
  match ofTable merged with
  | .ok options => return options
  | .error errors => throw (.invalid errors)

/-- The table of options in a configuration file. A file that is text but no document has none, as a
document without such a table has none. -/
def configured (content : ByteArray) : Except LoadFault Table := do
  let text ← match Utf8.decode content with
    | .ok text => pure text
    | .error fault => throw (.undecodable fault)
  let document := (Toml.read? text).getD []
  let tool ← inner document "tool"
  inner tool "jsx_memo"
where
  inner (t : Table) (key : String) : Except LoadFault Table :=
    match t.get? key with
    | none => .ok []
    | some (.table entries) => .ok entries
    | some _ => .error .notATable

def load (configuration : Option ByteArray) (overrides : Table) : Except LoadFault Options := do
  let table ← match configuration with
    | some content => configured content
    | none => pure []
  merge table overrides

end Options

end JsxBoundary
