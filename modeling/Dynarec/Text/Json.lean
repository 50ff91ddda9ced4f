import Dynarec.Text.Hex
import Dynarec.Text.Utf8

/-!
# JSON

Values of the JSON format and their reading.  Text is first cut into tokens;
numbers keep their spelling.  Halves of surrogate pairs that stand alone become
replacement characters.
-/

namespace Dynarec

/-- A JSON document. -/
inductive JsonValue where
  | null
  | bool (value : Bool)
  | number (text : String)
  | string (text : String)
  | array (items : List JsonValue)
  | object (members : List (String × JsonValue))
deriving Repr

namespace JsonValue

/-- A token of a JSON text. -/
inductive Token where
  /-- A bracket, a brace, a colon or a comma. -/
  | mark (character : Char)
  | string (text : String)
  | number (text : String)
  | word (value : JsonValue)
deriving Repr

/-- A part of a text between quotation marks: a character or a numbered unit. -/
inductive Piece where
  | character (character : Char)
  | unit (value : Nat)
deriving DecidableEq, Repr

def escapes : List (Char × Char) :=
  [('"', '"'), ('\\', '\\'), ('/', '/'), ('b', '\x08'), ('f', '\x0c'), ('n', '\n'), ('r', '\r'),
   ('t', '\t')]

def fourDigits? (a b c d : Char) : Option Nat := do
  let a ← Hex.digitValue? a
  let b ← Hex.digitValue? b
  let c ← Hex.digitValue? c
  let d ← Hex.digitValue? d
  return ((a * 16 + b) * 16 + c) * 16 + d

/-- The pieces up to the closing quotation mark, and what stands behind it. -/
def pieces : List Char → Option (List Piece × List Char)
  | '"' :: rest => some ([], rest)
  | '\\' :: 'u' :: a :: b :: c :: d :: rest => do
      let value ← fourDigits? a b c d
      let (tail, rest) ← pieces rest
      return (.unit value :: tail, rest)
  | '\\' :: letter :: rest => do
      let character ← escapes.lookup letter
      let (tail, rest) ← pieces rest
      return (.character character :: tail, rest)
  | character :: rest =>
      if character.toNat < 0x20 ∨ character = '\\' then none
      else do
        let (tail, rest) ← pieces rest
        return (.character character :: tail, rest)
  | [] => none

def isHigh (value : Nat) : Bool := 0xD800 ≤ value && value < 0xDC00

def isLow (value : Nat) : Bool := 0xDC00 ≤ value && value < 0xE000

/-- The characters of pieces, with pairs of units joined. -/
def join : List Piece → List Char
  | [] => []
  | .character character :: rest => character :: join rest
  | .unit high :: .unit low :: rest =>
      if isHigh high && isLow low then
        Char.ofNat (0x10000 + (high - 0xD800) * 0x400 + (low - 0xDC00)) :: join rest
      else single high :: join (.unit low :: rest)
  | .unit value :: rest => single value :: join rest
where
  single (value : Nat) : Char :=
    if isHigh value || isLow value then Utf8.replacement else Char.ofNat value

def areDigits (characters : List Char) : Bool :=
  !characters.isEmpty && characters.all Char.isDigit

/-- Whether characters are an exponent with its mark, or nothing. -/
def isExponent : List Char → Bool
  | [] => true
  | 'e' :: '+' :: rest | 'e' :: '-' :: rest | 'E' :: '+' :: rest | 'E' :: '-' :: rest =>
      areDigits rest
  | 'e' :: rest | 'E' :: rest => areDigits rest
  | _ => false

/-- Whether characters are what may follow the whole part of a number. -/
def isFraction : List Char → Bool
  | '.' :: rest =>
      !(rest.takeWhile Char.isDigit).isEmpty && isExponent (rest.dropWhile Char.isDigit)
  | rest => isExponent rest

def isUnsigned : List Char → Bool
  | '0' :: rest => isFraction rest
  | first :: rest => first.isDigit && isFraction (rest.dropWhile Char.isDigit)
  | [] => false

def isNumber : List Char → Bool
  | '-' :: rest => isUnsigned rest
  | rest => isUnsigned rest

def inNumber (character : Char) : Bool :=
  character.isDigit || "+-.eE".toList.contains character

/-- The token that starts with a character, and what stands behind it. -/
def token? (first : Char) (rest : List Char) : Option (Token × List Char) :=
  if "[]\x7b\x7d:,".toList.contains first then some (.mark first, rest)
  else if first = '"' then do
    let (found, rest) ← pieces rest
    return (.string (String.ofList (join found)), rest)
  else if first.isDigit || first = '-' then
    let text := first :: rest.takeWhile inNumber
    if isNumber text then some (.number (String.ofList text), rest.dropWhile inNumber) else none
  else
    let tail := rest.dropWhile Char.isAlpha
    match String.ofList (first :: rest.takeWhile Char.isAlpha) with
    | "null" => some (.word .null, tail)
    | "true" => some (.word (.bool true), tail)
    | "false" => some (.word (.bool false), tail)
    | _ => none

def isGap (character : Char) : Bool :=
  " \t\r\n".toList.contains character

/-- The tokens of a text, of which there are at most as many as the budget says. -/
def tokens : Nat → List Char → Option (List Token)
  | _, [] => some []
  | 0, _ => none
  | budget + 1, first :: rest =>
      if isGap first then tokens budget rest
      else do
        let (token, rest) ← token? first rest
        return token :: (← tokens budget rest)

def maxDepth : Nat := 10000

mutual

def value (depth : Nat) : Nat → List Token → Option (JsonValue × List Token)
  | 0, _ => none
  | budget + 1, tokens =>
      match tokens with
      | .word word :: rest => some (word, rest)
      | .number text :: rest => some (.number text, rest)
      | .string text :: rest => some (.string text, rest)
      | .mark '[' :: rest =>
          if maxDepth ≤ depth then none
          else
            match rest with
            | .mark ']' :: rest => some (.array [], rest)
            | _ => do
                let (items, rest) ← items (depth + 1) budget rest
                return (.array items, rest)
      | .mark '\x7b' :: rest =>
          if maxDepth ≤ depth then none
          else
            match rest with
            | .mark '\x7d' :: rest => some (.object [], rest)
            | _ => do
                let (members, rest) ← members (depth + 1) budget rest
                return (.object members, rest)
      | _ => none

/-- The values up to the closing bracket, and the tokens behind it. -/
def items (depth : Nat) : Nat → List Token → Option (List JsonValue × List Token)
  | 0, _ => none
  | budget + 1, tokens => do
      let (item, rest) ← value depth budget tokens
      match rest with
      | .mark ']' :: rest => return ([item], rest)
      | .mark ',' :: rest => do
          let (tail, rest) ← items depth budget rest
          return (item :: tail, rest)
      | _ => none

def members (depth : Nat) : Nat → List Token → Option (List (String × JsonValue) × List Token)
  | 0, _ => none
  | budget + 1, tokens =>
      match tokens with
      | .string name :: .mark ':' :: rest => do
          let (member, rest) ← value depth budget rest
          match rest with
          | .mark '\x7d' :: rest => return ([(name, member)], rest)
          | .mark ',' :: rest => do
              let (tail, rest) ← members depth budget rest
              return ((name, member) :: tail, rest)
          | _ => none
      | _ => none

end

/-- The document of a text. -/
def parse? (text : List Char) : Option JsonValue := do
  let tokens ← tokens (text.length + 1) text
  match value 0 (2 * tokens.length + 2) tokens with
  | some (value, []) => some value
  | _ => none

end JsonValue
end Dynarec
