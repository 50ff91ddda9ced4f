/-!
# Numerals

Integers are written in base ten, or behind `0b`, `0o`, `0x` in base two, eight
and sixteen; a leading zero alone also stands for base eight.  Single
underscores may stand between digits and behind the mark of the base.
-/

namespace Dynarec
namespace Numeral

/-- Why a text is not a number in bounds. -/
inductive Error where
  | malformed
  | outOfRange
deriving DecidableEq, Repr

/-- The value of a digit or letter, counted on from ten for letters. -/
def digitValue? (c : Char) : Option Nat :=
  if '0' ≤ c ∧ c ≤ '9' then some (c.toNat - '0'.toNat)
  else if 'a' ≤ c ∧ c ≤ 'z' then some (c.toNat - 'a'.toNat + 10)
  else if 'A' ≤ c ∧ c ≤ 'Z' then some (c.toNat - 'A'.toNat + 10)
  else none

/-- The base that a letter behind a zero stands for. -/
def markedBase? (c : Char) : Option Nat :=
  match c.toLower with
  | 'b' => some 2
  | 'o' => some 8
  | 'x' => some 16
  | _ => none

/-- The base of a numeral and its digits. -/
def split : List Char → Nat × List Char
  | '0' :: mark :: digit :: rest =>
      match markedBase? mark with
      | some base => (base, digit :: rest)
      | none => (8, mark :: digit :: rest)
  | '0' :: rest => (8, rest)
  | digits => (10, digits)

/-- The value of digits behind those of which the value is known. -/
def valueFrom (base bound : Nat) : Nat → List Char → Except Error Nat
  | value, [] => .ok value
  | value, '_' :: rest => valueFrom base bound value rest
  | value, c :: rest =>
      match digitValue? c with
      | none => .error .malformed
      | some digit =>
          if base ≤ digit then .error .malformed
          else if bound ≤ value * base + digit then .error .outOfRange
          else valueFrom base bound (value * base + digit) rest

/-- Whether every underscore stands behind a digit and in front of one.  The flag says
whether the character in front was a digit. -/
def separates (isDigit : Char → Bool) : Bool → List Char → Bool
  | _, [] => true
  | afterDigit, '_' :: rest =>
      afterDigit && (match rest with
        | c :: _ => isDigit c
        | [] => false) && separates isDigit false rest
  | _, c :: rest => separates isDigit (isDigit c) rest

/-- Whether the underscores of a numeral stand between digits; the mark of a base counts as
one. -/
def underscoresFit : List Char → Bool
  | '0' :: mark :: rest =>
      match markedBase? mark with
      | some 16 => separates (fun c => (digitValue? c).any (· < 16)) true rest
      | some _ => separates Char.isDigit true rest
      | none => separates Char.isDigit true (mark :: rest)
  | text => separates Char.isDigit false text

/-- The number below a bound that a text stands for. -/
def parseNat (bound : Nat) (text : List Char) : Except Error Nat :=
  if text.isEmpty then .error .malformed
  else
    let (base, digits) := split text
    match valueFrom base bound 0 digits with
    | .error error => .error error
    | .ok value => if underscoresFit text then .ok value else .error .malformed

def parseInt (text : List Char) : Except Error Int :=
  let (negative, digits) :=
    match text with
    | '-' :: rest => (true, rest)
    | '+' :: rest => (false, rest)
    | rest => (false, rest)
  match parseNat UInt64.size digits with
  | .error error => .error error
  | .ok value =>
      if negative then
        if 0x8000000000000000 < value then .error .outOfRange else .ok (-(value : Int))
      else if 0x8000000000000000 ≤ value then .error .outOfRange
      else .ok value

end Numeral
end Dynarec
