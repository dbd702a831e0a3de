namespace JsxBoundary

abbrev Scanner := StateT (List Char) Option

namespace Scanner

def peek? : Scanner (Option Char) := fun cs => some (cs.head?, cs)

def one (p : Char → Bool) : Scanner Char
  | c :: cs => if p c then some (c, cs) else none
  | [] => none

def takeWhile (p : Char → Bool) : Scanner (List Char) := fun cs =>
  some (cs.takeWhile p, cs.dropWhile p)

def takeWhile1 (p : Char → Bool) : Scanner (List Char) := do
  let first ← one p
  return first :: (← takeWhile p)

def exactly (text : String) : Scanner Unit := fun cs =>
  let expected := text.toList
  if expected.isPrefixOf cs then some ((), cs.drop expected.length) else none

def maybe {α : Type} (p : Scanner α) : Scanner (Option α) := fun cs =>
  match p cs with
  | some (a, rest) => some (some a, rest)
  | none => some (none, cs)

def check (condition : Bool) : Scanner Unit :=
  if condition then pure () else failure

def many {α : Type} (p : Scanner α) (cs : List Char) : Option (List α × List Char) :=
  match p cs with
  | none => some ([], cs)
  | some (a, rest) =>
    if rest.length < cs.length then (many p rest).map fun (as, rest) => (a :: as, rest)
    else some ([a], rest)
termination_by cs.length

def spelled {α : Type} (p : Scanner α) : Scanner (List Char) := fun cs =>
  (p cs).map fun (_, rest) => (cs.take (cs.length - rest.length), rest)

def atEnd : Scanner Bool := fun cs => some (cs.isEmpty, cs)

end Scanner

end JsxBoundary
