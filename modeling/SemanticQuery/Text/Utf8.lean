/-!
# Bytes as text

Decoding of byte strings. `decode?` accepts exactly well-formed UTF-8. `decodeLossy` puts one
replacement character in place of each maximal part of an ill-formed sequence.
-/

namespace SemanticQuery.Text

/-- What the first byte of a character announces: its payload, the range its second byte must lie
in, and the number of continuation bytes after the first. -/
structure LeadByte where
  payload : Nat
  secondLow : Nat
  secondHigh : Nat
  following : Nat

/-- The reading of a byte that starts a character of two to four bytes. -/
def leadByte? (byte : Nat) : Option LeadByte :=
  if 0xC2 ≤ byte ∧ byte ≤ 0xDF then some ⟨byte - 0xC0, 0x80, 0xBF, 1⟩
  else if byte = 0xE0 then some ⟨0, 0xA0, 0xBF, 2⟩
  else if byte = 0xED then some ⟨0xD, 0x80, 0x9F, 2⟩
  else if 0xE1 ≤ byte ∧ byte ≤ 0xEF then some ⟨byte - 0xE0, 0x80, 0xBF, 2⟩
  else if byte = 0xF0 then some ⟨0, 0x90, 0xBF, 3⟩
  else if 0xF1 ≤ byte ∧ byte ≤ 0xF3 then some ⟨byte - 0xF0, 0x80, 0xBF, 3⟩
  else if byte = 0xF4 then some ⟨4, 0x80, 0x8F, 3⟩
  else none

inductive DecoderState where
  | between
  /-- Inside a character: the payload so far, the range of the next byte and the bytes owed. -/
  | inside (payload low high owed : Nat)

inductive DecodedUnit where
  | character (c : Char)
  | illFormed

def DecodedUnit.char? : DecodedUnit → Option Char
  | .character c => some c
  | .illFormed => none

def decodeFirst (byte : Nat) : DecoderState × List DecodedUnit :=
  if byte < 0x80 then (.between, [.character (Char.ofNat byte)])
  else match leadByte? byte with
    | some lead => (.inside lead.payload lead.secondLow lead.secondHigh lead.following, [])
    | none => (.between, [.illFormed])

/-- Decodes one byte. A byte that cannot continue a character ends it as ill-formed and starts the
next unit. -/
def decodeByte : DecoderState → Nat → DecoderState × List DecodedUnit
  | .between, byte => decodeFirst byte
  | .inside payload low high owed, byte =>
      if low ≤ byte ∧ byte ≤ high then
        let payload := payload * 64 + (byte - 0x80)
        if owed ≤ 1 then (.between, [.character (Char.ofNat payload)])
        else (.inside payload 0x80 0xBF (owed - 1), [])
      else
        let next := decodeFirst byte
        (next.1, .illFormed :: next.2)

def decodeUnits : DecoderState → List UInt8 → List DecodedUnit
  | .between, [] => []
  | .inside .., [] => [.illFormed]
  | state, byte :: rest =>
      let next := decodeByte state byte.toNat
      next.2 ++ decodeUnits next.1 rest

def decode? (bytes : List UInt8) : Option String :=
  ((decodeUnits .between bytes).mapM DecodedUnit.char?).map String.ofList

/-- The text of a byte string, with a replacement character for each ill-formed part. -/
def decodeLossy (bytes : List UInt8) : String :=
  String.ofList ((decodeUnits .between bytes).map fun unit => unit.char?.getD (Char.ofNat 0xFFFD))

def hexDigit (value : Nat) : Char :=
  if value < 10 then Char.ofNat (0x30 + value) else Char.ofNat (0x57 + value)

def hex (bytes : List UInt8) : String :=
  String.ofList (bytes.flatMap fun byte => [hexDigit (byte.toNat / 16), hexDigit (byte.toNat % 16)])

example : decodeLossy [0x61, 0xE2, 0x82, 0x62] = "a\uFFFDb" := by decide +kernel
example : decode? [0xE2, 0x82, 0xAC] = some "€" := by decide +kernel
example : hex [0xCA, 0xFE] = "cafe" := by decide +kernel

end SemanticQuery.Text
