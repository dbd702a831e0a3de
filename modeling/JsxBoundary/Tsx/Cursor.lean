import JsxBoundary.Concrete.Basic

/-!
# Reading source text

A `Cursor` stands somewhere in the source text: it has the text that is left, its offset in bytes, and
the comments that were passed and do not belong to a node yet. A `Parser` moves a cursor forward or
fails; a failure leaves nothing behind, so another parser may be tried in its place.

Blanks and comments between tokens are passed by `Parser.trivia`. A node that is finished takes the
comments that lie inside it (`Parser.finish`).
-/

namespace JsxBoundary.Tsx

structure Cursor where
  rest : List Char
  size : Nat
  offset : Nat := 0
  comments : List Concrete := []

def Cursor.left (c : Cursor) : Nat :=
  c.size - c.offset

def Cursor.ofString (text : String) : Cursor where
  rest := text.toList
  size := text.utf8ByteSize

abbrev Parser := StateT Cursor Option

def isLineEnd (c : Char) : Bool :=
  c == '\n' || c == '\u2028' || c == '\u2029'

def isSpace (c : Char) : Bool :=
  let n := c.toNat
  (0x09 ≤ n && n ≤ 0x0D) || n == 0x20 || n == 0x85 || n == 0xA0 || n == 0x1680 ||
    (0x2000 ≤ n && n ≤ 0x200B) || n == 0x2028 || n == 0x2029 || n == 0x202F || n == 0x205F ||
    n == 0x2060 || n == 0x3000 || n == 0xFEFF

def marks : List Char :=
  ":;`\"'@#.,|^&<=>+-*/\\%?!~()[]\x7b\x7d".toList

/-- A character that may continue a name: no control character, no space and no mark. -/
def isNamePart (c : Char) : Bool :=
  0x20 ≤ c.toNat && !isSpace c && !marks.contains c

/-- What stands between two tokens: a run of blanks or a comment, with a line end in it or without. -/
inductive Gap where
  | blanks (breaks : Bool)
  | lineComment
  | blockComment (breaks : Bool)
  deriving DecidableEq, Repr

namespace Gap

def breaks : Gap → Bool
  | .blanks breaks | .blockComment breaks => breaks
  | .lineComment => false

def isComment : Gap → Bool
  | .blanks _ => false
  | .lineComment | .blockComment _ => true

end Gap

namespace Parser

def peek? : Parser (Option Char) := fun c => some (c.rest.head?, c)

def next : Parser Char := fun c =>
  match c.rest with
  | [] => none
  | x :: rest => some (x, { c with rest, offset := c.offset + x.utf8Size })

def offset : Parser Nat := fun c => some (c.offset, c)

def ahead {α : Type} (p : Parser α) : Parser α := fun c =>
  (p c).map fun (a, _) => (a, c)

def maybe {α : Type} (p : Parser α) : Parser (Option α) := fun c =>
  match p c with
  | some (a, c') => some (some a, c')
  | none => some (none, c)

def would {α : Type} (p : Parser α) : Parser Bool := fun c =>
  some ((p c).isSome, c)

def check (condition : Bool) : Parser Unit :=
  if condition then pure () else failure

def many {α : Type} (p : Parser α) (c : Cursor) : Option (List α × Cursor) :=
  match p c with
  | none => some ([], c)
  | some (a, c') =>
    if c'.left < c.left then (many p c').map fun (as, c'') => (a :: as, c'')
    else some ([a], c')
termination_by c.left

def extend {α : Type} (step : α → Parser α) (a : α) (c : Cursor) : Option (α × Cursor) :=
  match step a c with
  | none => some (a, c)
  | some (b, c') => if c'.left < c.left then extend step b c' else some (b, c')
termination_by c.left

def taking (rule : List Char → List Char) : Parser String := fun c =>
  let chars := rule c.rest
  let taken := String.ofList chars
  some (taken,
    { c with rest := c.rest.drop chars.length, offset := c.offset + taken.utf8ByteSize })

def takeWhile (p : Char → Bool) : Parser String :=
  taking (·.takeWhile p)

def exactly (text : String) : Parser Unit := fun c =>
  let chars := text.toList
  if chars.isPrefixOf c.rest then
    some ((), { c with rest := c.rest.drop chars.length, offset := c.offset + text.utf8ByteSize })
  else none

def blockRest : List Char → Option (List Char)
  | '*' :: '/' :: _ => some ['*', '/']
  | c :: rest => (blockRest rest).map (c :: ·)
  | [] => none

def comment : Parser Gap := do
  let start ← offset
  let gap ← lineComment <|> blockComment
  let stop ← offset
  modify fun c => { c with
    comments := .mk { kind := "comment", start, stop } [] :: c.comments }
  return gap
where
  lineComment : Parser Gap := do
    exactly "//"
    let _ ← takeWhile fun c => !isLineEnd c && c != '\r'
    return .lineComment
  blockComment : Parser Gap := do
    exactly "/*"
    let some taken := blockRest (← get).rest | failure
    let text ← taking fun _ => taken
    return .blockComment (text.any isLineEnd)

def gap : Parser Gap := do
  let spaces ← takeWhile isSpace
  if spaces.isEmpty then comment else return .blanks (spaces.any isLineEnd)

def trivia : Parser Bool := do
  return (← many gap).any Gap.breaks

def begin : Parser Nat := do
  let _ ← trivia
  offset

def finish (kind : String) (start : Nat) (children : List Concrete) : Parser Concrete := fun c =>
  let (inside, outside) := c.comments.span (start ≤ ·.start)
  let all := if inside.isEmpty then children
    else (children ++ inside.reverse).mergeSort fun a b => a.start ≤ b.start
  some (.mk { kind, start, stop := c.offset } all, { c with comments := outside })

def leaf (kind : String) (start : Nat) : Parser Concrete :=
  finish kind start []

end Parser

end JsxBoundary.Tsx
