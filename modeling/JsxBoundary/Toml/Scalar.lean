import JsxBoundary.Options.Datum
import JsxBoundary.Text.Scanner

namespace JsxBoundary.Toml
open Scanner

def isSpace (c : Char) : Bool :=
  c == ' ' || c == '\t'

def isControl (c : Char) : Bool :=
  (c.toNat < 0x20 && c != '\t') || c.toNat == 0x7F

def isHex (c : Char) : Bool :=
  c.isDigit || ('a' ≤ c && c ≤ 'f') || ('A' ≤ c && c ≤ 'F')

def digitValue (c : Char) : Nat :=
  if c.isDigit then c.toNat - '0'.toNat
  else if 'a' ≤ c then c.toNat - 'a'.toNat + 10
  else c.toNat - 'A'.toNat + 10

def digitsValue (base : Nat) (digits : List Char) : Nat :=
  digits.foldl (fun n c => n * base + digitValue c) 0

/-- The character with the code point that the given number of hexadecimal digits spells. -/
def codePoint (count : Nat) : Scanner (List Char) := do
  let digits := (← get).take count
  check (digits.length == count && digits.all isHex)
  let n := digitsValue 16 digits
  check (n < 0xD800 || (0xE000 ≤ n && n < 0x110000))
  set ((← get).drop count)
  return [Char.ofNat n]

/-- The rest of a line and the blanks that begin the next one; nothing but blanks may be cut off
from the line. -/
def lineJoint : Scanner (List Char) := do
  let _ ← takeWhile isSpace
  if ← atEnd then return []
  exactly "\n"
  let _ ← takeWhile fun c => isSpace c || c == '\n'
  return []

def escape (multiline : Bool) : Scanner (List Char) := do
  match ← peek? with
  | some 'u' => exactly "u" *> codePoint 4
  | some 'U' => exactly "U" *> codePoint 8
  | some 'b' => exactly "b" *> pure ['\x08']
  | some 't' => exactly "t" *> pure ['\t']
  | some 'n' => exactly "n" *> pure ['\n']
  | some 'f' => exactly "f" *> pure ['\x0c']
  | some 'r' => exactly "r" *> pure ['\r']
  | some '"' => exactly "\"" *> pure ['"']
  | some '\\' => exactly "\\" *> pure ['\\']
  | some c => check (multiline && (isSpace c || c == '\n')) *> lineJoint
  | none => failure

def basicPart (multiline : Bool) : Scanner (List Char) := do
  match ← peek? with
  | some '\\' => exactly "\\" *> escape multiline
  | some c =>
    check (!isControl c || (multiline && c == '\n'))
    let c ← one fun _ => true
    return [c]
  | none => failure

def basicString : Scanner String := do
  exactly "\""
  let parts ← many do
    check ((← peek?) != some '"')
    basicPart false
  exactly "\""
  return String.ofList parts.flatten

def literalString : Scanner String := do
  exactly "'"
  let text ← takeWhile fun c => c != '\'' && !isControl c
  exactly "'"
  return String.ofList text

/-- A string between two triples of a quote, over any number of lines. A line break right at the
start does not count, and up to two quotes right before the end belong to the string. -/
def multilineString (quote : Char) (part : Scanner (List Char)) : Scanner String := do
  let triple := String.ofList [quote, quote, quote]
  exactly triple
  let _ ← maybe (exactly "\n")
  let parts ← many do
    check (!triple.toList.isPrefixOf (← get))
    part
  exactly triple
  let extra := ((← get).take 2).takeWhile (· == quote)
  set ((← get).drop extra.length)
  return String.ofList (parts.flatten ++ extra)

def string : Scanner String :=
  multilineString '"' (basicPart true) <|> multilineString '\'' literalPart <|>
    single '"' basicString <|> single '\'' literalString
where
  literalPart : Scanner (List Char) := do
    let c ← one fun c => !isControl c || c == '\n'
    return [c]
  single (quote : Char) (p : Scanner String) : Scanner String := do
    check (!([quote, quote, quote].isPrefixOf (← get)))
    p

def digits (isDigit : Char → Bool) : Scanner (List Char) := do
  let first ← one isDigit
  let others ← many do
    let _ ← maybe (exactly "_")
    one isDigit
  return first :: others

def prefixedInteger : Scanner Datum := do
  exactly "0"
  let (base, isDigit) ← (exactly "x" *> pure (16, isHex)) <|>
    (exactly "o" *> pure (8, fun c => '0' ≤ c && c ≤ '7')) <|>
    (exactly "b" *> pure (2, fun c => c == '0' || c == '1'))
  return .integer (digitsValue base (← digits isDigit))

def sign : Scanner Bool :=
  (exactly "-" *> pure true) <|> (exactly "+" *> pure false) <|> pure false

def decimalNumber : Scanner Datum := do
  let negative ← sign
  let whole ← (do exactly "0"; return ['0']) <|> do
    check ((← peek?) != some '0')
    digits Char.isDigit
  let fraction ← maybe do
    exactly "."
    digits Char.isDigit
  let exponent ← maybe do
    exactly "e" <|> exactly "E"
    let below ← sign
    let n := digitsValue 10 (← digits Char.isDigit)
    return if below then -(n : Int) else n
  match fraction, exponent with
  | none, none =>
    let n := digitsValue 10 whole
    return .integer (if negative then -n else n)
  | _, _ =>
    let mantissa := digitsValue 10 (whole ++ fraction.getD [])
    let e := exponent.getD 0 - (fraction.getD []).length
    let x := Float.ofScientific mantissa (e < 0) e.natAbs
    return .float (if negative then -x else x)

def specialFloat : Scanner Datum := do
  let negative ← sign
  let x ← (exactly "inf" *> pure (1.0 / 0.0 : Float)) <|> (exactly "nan" *> pure (0.0 / 0.0))
  return .float (if negative then -x else x)

def fixedDigits (count low high : Nat) : Scanner Nat := do
  let taken := (← get).take count
  check (taken.length == count && taken.all Char.isDigit)
  let n := digitsValue 10 taken
  check (low ≤ n && n ≤ high)
  set ((← get).drop count)
  return n

def time : Scanner Unit := do
  let _ ← fixedDigits 2 0 23
  exactly ":"
  let _ ← fixedDigits 2 0 59
  exactly ":"
  let _ ← fixedDigits 2 0 59
  let _ ← maybe do
    exactly "."
    takeWhile1 Char.isDigit
  return

def timeOffset : Scanner Unit :=
  (exactly "Z" <|> exactly "z") <|> do
    exactly "+" <|> exactly "-"
    let _ ← fixedDigits 2 0 23
    exactly ":"
    let _ ← fixedDigits 2 0 59
    return

def isLeapYear (year : Nat) : Bool :=
  year % 4 == 0 && (year % 100 != 0 || year % 400 == 0)

def daysInMonth (year month : Nat) : Nat :=
  if month == 2 then if isLeapYear year then 29 else 28
  else if month == 4 || month == 6 || month == 9 || month == 11 then 30
  else 31

def date : Scanner Unit := do
  let year ← fixedDigits 4 1 9999
  exactly "-"
  let month ← fixedDigits 2 1 12
  exactly "-"
  let day ← fixedDigits 2 1 31
  check (day ≤ daysInMonth year month)
  let _ ← maybe do
    let _ ← one fun c => c == 'T' || c == 't' || c == ' '
    time
    maybe timeOffset

def moment : Scanner Datum := do
  let text ← spelled (date <|> time)
  return .moment (String.ofList text)

def boolean : Scanner Datum :=
  (exactly "true" *> pure (.boolean true)) <|> (exactly "false" *> pure (.boolean false))

/-- A value that holds no others. A number stands last, since dates and times begin with digits. -/
def scalar : Scanner Datum :=
  (.string <$> string) <|> boolean <|> moment <|> prefixedInteger <|> decimalNumber <|> specialFloat

end JsxBoundary.Toml
