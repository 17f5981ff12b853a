import SemanticQuery.Json.Basic
import SemanticQuery.Number.Read

/-!
# Reading JSON

`Json.scan` accepts exactly one well-formed value with blanks around it and marks what has no
value as unusable. `Json.read` refuses what is unusable in any part. The readers give what they
read and the characters after it. Those that recur take a bound on the number of steps, and
`Json.scan` computes one that the length of the text cannot exceed.
-/

namespace SemanticQuery.Json

def isJsonBlank (c : Char) : Bool :=
  c = ' ' || c = '\t' || c = '\n' || c = '\r'

def skipBlanks : List Char → List Char :=
  List.dropWhile isJsonBlank

def hexValue? (c : Char) : Option Nat :=
  if '0' ≤ c ∧ c ≤ '9' then some (c.toNat - '0'.toNat)
  else if 'a' ≤ c ∧ c ≤ 'f' then some (c.toNat - 'a'.toNat + 10)
  else if 'A' ≤ c ∧ c ≤ 'F' then some (c.toNat - 'A'.toNat + 10)
  else none

def codeUnit : List Char → Except String (Nat × List Char)
  | a :: b :: c :: d :: rest =>
      match hexValue? a, hexValue? b, hexValue? c, hexValue? d with
      | some a, some b, some c, some d => .ok (((a * 16 + b) * 16 + c) * 16 + d, rest)
      | _, _, _, _ => .error "invalid escape"
  | _ => .error "invalid escape"

/-- The character of a `\u` escape whose code units start the list; half a surrogate pair is no
character. -/
def unicodeEscape (text : List Char) : Except String (Option Char × List Char) := do
  let (high, rest) ← codeUnit text
  if 0xDC00 ≤ high ∧ high ≤ 0xDFFF then .ok (none, rest)
  else if 0xD800 ≤ high ∧ high ≤ 0xDBFF then
    match rest with
    | '\\' :: 'u' :: second =>
        let (low, after) ← codeUnit second
        if 0xDC00 ≤ low ∧ low ≤ 0xDFFF then
          .ok (some (Char.ofNat (0x10000 + (high - 0xD800) * 0x400 + (low - 0xDC00))), after)
        else .ok (none, rest)
    | _ => .ok (none, rest)
  else .ok (some (Char.ofNat high), rest)

def escape : List Char → Except String (Option Char × List Char)
  | 'u' :: rest => unicodeEscape rest
  | '"' :: rest => .ok (some '"', rest)
  | '\\' :: rest => .ok (some '\\', rest)
  | '/' :: rest => .ok (some '/', rest)
  | 'b' :: rest => .ok (some (Char.ofNat 0x08), rest)
  | 'f' :: rest => .ok (some (Char.ofNat 0x0C), rest)
  | 'n' :: rest => .ok (some '\n', rest)
  | 'r' :: rest => .ok (some '\r', rest)
  | 't' :: rest => .ok (some '\t', rest)
  | _ => .error "invalid escape"

/-- The characters of a string, after its opening quote. A string that holds half a surrogate pair
has none. -/
def stringBody : Nat → List Char → Except String (Option (List Char) × List Char)
  | 0, _ => .error "text too long"
  | _ + 1, [] => .error "unterminated string"
  | bound + 1, c :: rest =>
      if c = '"' then .ok (some [], rest)
      else if c = '\\' then do
        let (escaped, rest) ← escape rest
        let (chars, rest) ← stringBody bound rest
        .ok (escaped.bind fun c => chars.map (c :: ·), rest)
      else if c.toNat < 0x20 then .error "control character in string"
      else do
        let (chars, rest) ← stringBody bound rest
        .ok (chars.map (c :: ·), rest)

def someDigits (text : List Char) : Except String (List Nat × List Char) :=
  match Number.digits text with
  | ([], _) => .error "expected a digit"
  | reading => .ok reading

def fractionPart : List Char → Except String (Option (List Nat) × List Char)
  | '.' :: rest => do
      let (digits, rest) ← someDigits rest
      .ok (some digits, rest)
  | rest => .ok (none, rest)

def exponentPart : List Char → Except String (Option Int × List Char)
  | mark :: rest =>
      if mark = 'e' ∨ mark = 'E' then do
        let (negative, rest) := Number.sign rest
        let (digits, rest) ← someDigits rest
        .ok (some (Number.signed negative (Number.ofDigits digits)), rest)
      else .ok (none, mark :: rest)
  | [] => .ok (none, [])

/-- The digits before the point: a single zero, or no zero in front. -/
def wholePart : List Char → Except String (List Nat × List Char)
  | '0' :: rest => .ok ([0], rest)
  | text => someDigits text

/-- Appends decimal digits to a natural number as long as it fits 64 bits. The second part of the
answer counts the digits that were left out. -/
def appendDigits (start : Nat) : List Nat → Nat × Nat
  | [] => (start, 0)
  | d :: rest =>
      if 10 * start + d < Number.nat64Bound then appendDigits (10 * start + d) rest
      else (start, rest.length + 1)

/-- The greatest power of ten by which a number is scaled in one step. -/
def scaleReach : Nat :=
  308

/-- A number times a power of ten, by one multiplication or by divisions with the powers of ten
that are in reach, each of which rounds. A number that grows beyond the range is none. The first
argument counts the divisions that may come before the last step; two take every number of 64 bits
to zero. -/
def scale : Nat → Binary64 → Int → Option Binary64
  | steps, x, exponent =>
      if exponent.natAbs ≤ scaleReach then
        let power := Binary64.ofDecimal false 1 exponent.natAbs
        let result := if 0 ≤ exponent then x.multiply power else x.divide power
        if result.isFinite then some result else none
      else if x.significand = 0 then some x
      else if 0 ≤ exponent then none
      else match steps with
        | 0 => some (Binary64.ofInt 0)
        | steps + 1 =>
            scale steps (x.divide (Binary64.ofDecimal false 1 scaleReach)) (exponent + scaleReach)

/-- A number as the value it denotes. Written without point and exponent it is an integer if it
fits 64 bits; minus zero and all other numbers are floating point. The leading digits that fit 64
bits are scaled by the exponent. -/
def numberValue (negative : Bool) (whole : List Nat) (fraction : Option (List Nat))
    (exponent : Option Int) : Json :=
  let (leading, dropped) := appendDigits 0 whole
  let integer := Number.signed negative leading
  if fraction.isNone && exponent.isNone && dropped = 0 && !(negative && leading = 0) &&
      -Number.int64Bound ≤ integer then .int integer
  else
    let decimals := fraction.getD []
    let (digits, unread) := appendDigits leading decimals
    let places : Int := (decimals.length : Int) - (unread : Int)
    match scale 2 (Binary64.ofInt digits) (exponent.getD 0 + (dropped : Int) - places) with
    | some x => .float (Binary64.ofMagnitude negative x.magnitude)
    | none => .unusable

def number (text : List Char) : Except String (Json × List Char) := do
  let (negative, text) := match text with
    | '-' :: rest => (true, rest)
    | rest => (false, rest)
  let (whole, text) ← wholePart text
  let (fraction, text) ← fractionPart text
  let (exponent, text) ← exponentPart text
  .ok (numberValue negative whole fraction exponent, text)

def keyword (letters : List Char) (value : Json) (text : List Char) : Except String (Json × List Char) :=
  if letters.isPrefixOf text then .ok (value, text.drop letters.length)
  else .error "expected a value"

def stringValue : Option (List Char) → Json
  | some chars => .string (String.ofList chars)
  | none => .unusable

def objectValue : Option (List (String × Json)) → Json
  | some items => .object items
  | none => .unusable

def named (name : Option (List Char)) (item : Json) : Option (String × Json) :=
  name.map fun chars => (String.ofList chars, item)

mutual

def value : Nat → List Char → Except String (Json × List Char)
  | 0, _ => .error "text too long"
  | bound + 1, text =>
      match skipBlanks text with
      | [] => .error "expected a value"
      | '"' :: rest => do
          let (chars, rest) ← stringBody bound rest
          .ok (stringValue chars, rest)
      | '[' :: rest =>
          match skipBlanks rest with
          | ']' :: rest => .ok (.array [], rest)
          | rest => do
              let (items, rest) ← elements bound rest
              .ok (.array items, rest)
      | c :: rest =>
          if c.toNat = 0x7B then
            match skipBlanks rest with
            | [] => .error "unterminated object"
            | c :: rest =>
                if c.toNat = 0x7D then .ok (.object [], rest)
                else do
                  let (items, rest) ← members bound (c :: rest)
                  .ok (objectValue items, rest)
          else if c = 't' then keyword ['r', 'u', 'e'] (.bool true) rest
          else if c = 'f' then keyword ['a', 'l', 's', 'e'] (.bool false) rest
          else if c = 'n' then keyword ['u', 'l', 'l'] .null rest
          else number (c :: rest)

def elements : Nat → List Char → Except String (List Json × List Char)
  | 0, _ => .error "text too long"
  | bound + 1, text => do
      let (item, rest) ← value bound text
      match skipBlanks rest with
      | ',' :: rest => do
          let (items, rest) ← elements bound rest
          .ok (item :: items, rest)
      | ']' :: rest => .ok ([item], rest)
      | _ => .error "expected a comma or a bracket"

/-- The members of an object that is not empty, up to its closing brace; none if a name has no
value. -/
def members : Nat → List Char → Except String (Option (List (String × Json)) × List Char)
  | 0, _ => .error "text too long"
  | bound + 1, text =>
      match skipBlanks text with
      | '"' :: rest => do
          let (name, rest) ← stringBody bound rest
          match skipBlanks rest with
          | ':' :: rest => do
              let (item, rest) ← value bound rest
              match skipBlanks rest with
              | ',' :: rest => do
                  let (items, rest) ← members bound rest
                  .ok (items.bind fun items => (named name item).map (· :: items), rest)
              | c :: rest =>
                  if c.toNat = 0x7D then .ok ((named name item).map ([·]), rest)
                  else .error "expected a comma or a brace"
              | [] => .error "unterminated object"
          | _ => .error "expected a colon"
      | _ => .error "expected a member name"

end

/-- Reads a text that holds one value, parts of which may be unusable. -/
def scan (text : String) : Except String Json := do
  let chars := text.toList
  let (result, rest) ← value (2 * chars.length + 2) chars
  if (skipBlanks rest).isEmpty then .ok result else .error "text after the value"

def read (text : String) : Except String Json := do
  let result ← scan text
  if result.isUsable then .ok result else .error "a part has no value"

end SemanticQuery.Json
