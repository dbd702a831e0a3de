import JsxBoundary.Storage.Path

namespace JsxBoundary.CommandLine

/-- The text begins with a tag: a bracket, one of the characters that begin a tag, and a closing
bracket somewhere before the next opening one. -/
def startsTag (text : List Char) : Bool :=
  match text with
  | '[' :: c :: cs =>
    (('a' ≤ c && c ≤ 'z') || "#/@".toList.contains c) && cs.find? (fun c => c == '[' || c == ']') == some ']'
  | _ => false

/-- The text with a backslash before every tag, and with the backslashes right before a tag doubled.
`backslashes` counts those that have just been passed. -/
def escapeTags (backslashes : Nat) : List Char → List Char
  | [] => []
  | c :: cs =>
    if c == '\\' then c :: escapeTags (backslashes + 1) cs
    else if startsTag (c :: cs) then
      List.replicate (backslashes + 1) '\\' ++ c :: escapeTags 0 cs
    else c :: escapeTags 0 cs

/-- The text as markup that shows it as it is. One backslash at its end is doubled, so that it guards
nothing that follows. -/
def escapeMarkup (s : String) : String :=
  let escaped := escapeTags 0 s.toList
  let single := match escaped.reverse with
    | '\\' :: '\\' :: _ => false
    | '\\' :: _ => true
    | _ => false
  String.ofList (if single then escaped ++ ['\\'] else escaped)

inductive Level where
  | debug | info | success | warning | error
  deriving DecidableEq, Repr

namespace Level

def name : Level → String
  | debug => "DEBUG"
  | info => "INFO"
  | success => "SUCCESS"
  | warning => "WARNING"
  | error => "ERROR"

def style? : Level → Option String
  | success => some "green"
  | error => some "bold red"
  | _ => none

end Level

inductive Span where
  | text (s : String)
  | path (p : Path)

structure Notice where
  level : Level
  spans : List Span

namespace Notice

def styled (style : String) (close : String) (text : String) : String :=
  "[" ++ style ++ "]" ++ text ++ "[/" ++ close ++ "]"

def markup (n : Notice) : String :=
  let text := String.join (n.spans.map fun
    | .text s => s
    | .path p => styled "path" "path" (toString p))
  match n.level.style? with
  | some style => styled style style text
  | none => text

def plain (n : Notice) : String :=
  String.join (n.spans.map fun
    | .text s => s
    | .path p => toString p)

end Notice

/-- Where the log goes. A console may end the computation at a notice whose markup it cannot show. -/
class Console (m : Type → Type) where
  put : Notice → m Unit

inductive Display where
  | table (title : String) (columns : List String) (rows : List (List String))
  | line (text : String)

structure Report where
  notices : Array Notice := #[]
  printed : String := ""
  displays : Array Display := #[]

end JsxBoundary.CommandLine
