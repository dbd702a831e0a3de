import JsxBoundary.Tsx.Token

namespace JsxBoundary.Tsx

def goesOn : List Char → Bool
  | '+' :: rest => rest.head? != some '+'
  | '-' :: rest => rest.head? != some '-'
  | '!' :: rest => rest.head? == some '='
  | 'i' :: 'n' :: rest =>
    endsWord rest || ("stanceof".toList.isPrefixOf rest && endsWord (rest.drop 8))
  | c :: _ => "\x60,.;*%><=?^|&/:".toList.contains c
  | [] => false
where
  endsWord (rest : List Char) : Bool :=
    !rest.head?.any Char.isAlpha

/-- A statement without a semicolon may end in front of these gaps and of the text after them. -/
def endsBefore (next : List Char) : List Gap → Bool
  | [] => next.isEmpty || next.head? == some '\x7d'
  | .blanks true :: _ => !goesOn next
  | .blanks false :: gaps => endsBefore next gaps
  | _ => false

/-- How many of the gaps belong to a statement without a semicolon; nothing if it cannot end before the
text after them. An end is looked for in front of the gaps, and again behind each comment. -/
def gapsTaken? (next : List Char) (mayEnd : Bool) : List Gap → Option Nat
  | [] => if mayEnd && endsBefore next [] then some 0 else none
  | gap :: gaps =>
    if mayEnd && endsBefore next (gap :: gaps) then some 0
    else (gapsTaken? next gap.isComment gaps).map (· + 1)

namespace Parser

def passGaps : Nat → Parser Unit
  | 0 => pure ()
  | n + 1 => gap *> passGaps n

def openEnd : Parser Unit := do
  let (gaps, next) ← ahead do return (← many gap, (← get).rest)
  let some n := gapsTaken? next true gaps | failure
  passGaps n

def semicolon : Parser Unit :=
  mark ";" <|> openEnd

end Parser

end JsxBoundary.Tsx
