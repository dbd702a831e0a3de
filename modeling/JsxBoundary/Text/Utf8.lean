/-!
# UTF-8

`Utf8.decode` turns bytes into text. Where that fails, `Utf8.Fault` says which bytes are to blame and
why: the longest beginning of a character that breaks off, or a byte that begins none.
-/

namespace JsxBoundary.Utf8

inductive Reason where
  | invalidStart
  | invalidContinuation
  | unexpectedEnd
  deriving DecidableEq, Repr

structure Fault where
  start : Nat
  byte : UInt8
  count : Nat
  reason : Reason
  deriving DecidableEq, Repr

namespace Reason

def message : Reason → String
  | invalidStart => "invalid start byte"
  | invalidContinuation => "invalid continuation byte"
  | unexpectedEnd => "unexpected end of data"

end Reason

namespace Fault

def hexByte (b : UInt8) : String :=
  String.ofList [Nat.digitChar (b.toNat / 16), Nat.digitChar (b.toNat % 16)]

def message (f : Fault) : String :=
  let place := if f.count ≤ 1 then "byte 0x" ++ hexByte f.byte ++ " in position " ++ toString f.start
    else "bytes in position " ++ toString f.start ++ "-" ++ toString (f.start + f.count - 1)
  "'utf-8' codec can't decode " ++ place ++ ": " ++ f.reason.message

end Fault

/-- What must follow a first byte: for every further byte, the range that it must lie in. The second
byte is bounded more narrowly where other values would spell a shorter character, a surrogate, or a
code point beyond the last one. -/
def continuations (first : UInt8) : Option (List (Nat × Nat)) :=
  let b := first.toNat
  let any := (0x80, 0xBF)
  if b < 0x80 then some []
  else if b < 0xC2 then none
  else if b < 0xE0 then some [any]
  else if b < 0xF0 then
    some [(if b == 0xE0 then 0xA0 else 0x80, if b == 0xED then 0x9F else 0xBF), any]
  else if b < 0xF5 then
    some [(if b == 0xF0 then 0x90 else 0x80, if b == 0xF4 then 0x8F else 0xBF), any, any]
  else none

/-- How far bytes follow the given ranges: how many do, and why the next one does not. -/
def follow : List (Nat × Nat) → List UInt8 → Nat × Option Reason
  | [], _ => (0, none)
  | _ :: _, [] => (0, some .unexpectedEnd)
  | (low, high) :: ranges, b :: bytes =>
    if low ≤ b.toNat && b.toNat ≤ high then
      let (n, reason) := follow ranges bytes
      (n + 1, reason)
    else (0, some .invalidContinuation)

/-- The first fault of the bytes, which begin at the given place. A character's own continuation bytes
are passed over one by one. -/
def faultFrom (start skip : Nat) : List UInt8 → Option Fault
  | [] => none
  | b :: bytes =>
    match skip with
    | skip + 1 => faultFrom (start + 1) skip bytes
    | 0 =>
      match continuations b with
      | none => some ⟨start, b, 1, .invalidStart⟩
      | some ranges =>
        match follow ranges bytes with
        | (n, some reason) => some ⟨start, b, n + 1, reason⟩
        | (n, none) => faultFrom (start + 1) n bytes

def decode (bytes : ByteArray) : Except Fault String :=
  match String.fromUTF8? bytes with
  | some text => .ok text
  | none => .error ((faultFrom 0 0 bytes.toList).getD ⟨0, 0, 0, .unexpectedEnd⟩)

theorem decode_eq_ok_iff {bytes : ByteArray} {text : String} :
    decode bytes = .ok text ↔ String.fromUTF8? bytes = some text := by
  unfold decode
  split <;> simp_all

theorem toUTF8_of_decode {bytes : ByteArray} {text : String} (h : decode bytes = .ok text) :
    text.toUTF8 = bytes := by
  have found := decode_eq_ok_iff.1 h
  unfold String.fromUTF8? at found
  split at found
  · cases found
    rfl
  · cases found

end JsxBoundary.Utf8
