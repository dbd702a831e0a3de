import JsxBoundary.Toml.Scalar

namespace JsxBoundary.Toml
open Scanner

abbrev Key := List String

def isBare (c : Char) : Bool :=
  c.isAlphanum || c == '-' || c == '_'

def keyPart : Scanner String :=
  (String.ofList <$> takeWhile1 isBare) <|> basicString <|> literalString

def spaces : Scanner Unit := do
  let _ ← takeWhile isSpace

def key : Scanner Key := do
  let first ← keyPart
  spaces
  let others ← many do
    exactly "."
    spaces
    let part ← keyPart
    spaces
    return part
  return first :: others

/-- Changes the table that a path leads to, or the last one of a list of tables there. A table that is
not there is made; something else in the way makes it fail, and so does a list where lists may not be
entered. -/
def modifyTable (intoLists : Bool) (change : Table → Option Table) : Key → Table → Option Table
  | [], t => change t
  | k :: path, t =>
    match t.get? k with
    | none => (modifyTable intoLists change path []).map fun inner => t.insert k (.table inner)
    | some (.table inner) =>
      (modifyTable intoLists change path inner).map fun inner => t.insert k (.table inner)
    | some (.list items) =>
      match intoLists, items.getLast? with
      | true, some (.table inner) =>
        (modifyTable intoLists change path inner).map fun inner =>
          t.insert k (.list (items.dropLast ++ [.table inner]))
      | _, _ => none
    | some _ => none

def addEntry (k : String) (value : Datum) (t : Table) : Option Table :=
  if (t.get? k).isSome then none else some (t.insert k value)

def addTable (k : String) (t : Table) : Option Table :=
  match t.get? k with
  | none => some (t.insert k (.list [.table []]))
  | some (.list items) => some (t.insert k (.list (items ++ [.table []])))
  | some _ => none

def isNested : Datum → Bool
  | .list _ | .table _ => true
  | _ => false

def comment : Scanner Unit := do
  exactly "#"
  let _ ← takeWhile fun c => c != '\n' && !isControl c
  check ((← atEnd) || (← peek?) == some '\n')

def filler : Scanner Unit := do
  let _ ← many ((do let _ ← takeWhile1 fun c => isSpace c || c == '\n') <|> comment)

def list (value : Scanner Datum) : Scanner Datum := do
  exactly "["
  filler
  let items ← many do
    let item ← value
    filler
    exactly "," <|> check ((← peek?) == some ']')
    filler
    return item
  exactly "]"
  return .list items

def entry (value : Scanner Datum) : Scanner (Key × Datum) := do
  let k ← key
  exactly "="
  spaces
  return (k, ← value)

/-- The entries of an inline table as one table. Keys with points make tables inside it; a list or a
table that is a value cannot be added to. -/
def inlineTable? : List (Key × Datum) → List Key → Table → Option Table
  | [], _, t => some t
  | (k, value) :: entries, closed, t => do
    if closed.any (·.isPrefixOf k) then none
    let t ← modifyTable false (addEntry (k.getLast?.getD "") value) k.dropLast t
    inlineTable? entries (if isNested value then k :: closed else closed) t

def inlineTable (value : Scanner Datum) : Scanner Datum := do
  exactly "\x7b"
  spaces
  if (← maybe (exactly "\x7d")).isSome then return .table []
  let one := do
    let e ← entry value
    spaces
    return e
  let first ← one
  let others ← many do
    exactly ","
    spaces
    one
  exactly "\x7d"
  let some t := inlineTable? (first :: others) [] [] | failure
  return .table t

def valueWithin : Nat → Scanner Datum
  | 0 => failure
  | bound + 1 =>
    let value := valueWithin bound
    list value <|> inlineTable value <|> scalar

/-- A value. Every level of nesting takes a character, so the bound is never reached. -/
def value : Scanner Datum := do
  valueWithin ((← get).length + 1)

structure Marks where
  /-- Tables that have been opened by a header or by a key with points, and that no header may open
  again. -/
  opened : List Key := []
  /-- Tables opened by keys with points under the current header; they count from the next header
  on. -/
  pending : List Key := []
  closed : List Key := []

structure Document where
  table : Table := []
  marks : Marks := {}
  header : Key := []

namespace Document

def isClosed (d : Document) (k : Key) : Bool :=
  d.marks.closed.any (·.isPrefixOf k)

def settle (d : Document) : Document :=
  { d with marks := { d.marks with opened := d.marks.pending ++ d.marks.opened, pending := [] } }

def openTable (d : Document) (k : Key) : Option Document := do
  let d := d.settle
  if d.marks.opened.contains k || d.isClosed k then none
  let table ← modifyTable true some k d.table
  return { table, marks := { d.marks with opened := k :: d.marks.opened }, header := k }

/-- Opens a new table in a list of tables by its header. The keys below the header are free again. -/
def openListed (d : Document) (k : Key) : Option Document := do
  let d := d.settle
  if d.isClosed k then none
  let table ← modifyTable true (addTable (k.getLast?.getD "")) k.dropLast d.table
  let isFree (other : Key) := !k.isPrefixOf other
  return {
    table
    marks := { opened := k :: d.marks.opened.filter isFree, closed := d.marks.closed.filter isFree }
    header := k }

def add (d : Document) (k : Key) (value : Datum) : Option Document := do
  let around := (List.range (k.length - 1)).map fun i => d.header ++ k.take (i + 1)
  if around.any d.marks.opened.contains then none
  let parent := d.header ++ k.dropLast
  if d.isClosed parent then none
  let table ← modifyTable true (addEntry (k.getLast?.getD "") value) parent d.table
  return { d with
    table
    marks := { d.marks with
      pending := around ++ d.marks.pending
      closed := if isNested value then (d.header ++ k) :: d.marks.closed else d.marks.closed } }

end Document

def statement (d : Document) : Scanner Document := do
  let next ← match (← get) with
    | '[' :: '[' :: _ =>
      exactly "[["
      spaces
      let k ← key
      exactly "]]"
      pure (d.openListed k)
    | '[' :: _ =>
      exactly "["
      spaces
      let k ← key
      exactly "]"
      pure (d.openTable k)
    | _ =>
      let (k, v) ← entry value
      pure (d.add k v)
  let some d := next | failure
  return d

/-- A line: a statement or none, and a comment or none. The last line need not end. -/
def line (d : Document) : Scanner Document := do
  spaces
  let next ← match ← peek? with
    | none | some '\n' | some '#' => pure d
    | _ => statement d
  spaces
  let _ ← maybe comment
  if ← atEnd then return next
  exactly "\n"
  return next

def lines : Nat → Document → List Char → Option Document
  | _, d, [] => some d
  | 0, _, _ => none
  | bound + 1, d, cs => do
    let (d, rest) ← line d cs
    lines bound d rest

def unifyPairs : List Char → List Char
  | '\r' :: '\n' :: cs => '\n' :: unifyPairs cs
  | c :: cs => c :: unifyPairs cs
  | [] => []

def read? (text : String) : Option Table :=
  let cs := unifyPairs text.toList
  (lines cs.length {} cs).map (·.table)

end JsxBoundary.Toml
