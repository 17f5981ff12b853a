import SemanticQuery.Number.Binary64
import SemanticQuery.Text.Search

/-!
# Reading numbers

Integers and floating point numbers written as text. An integer is an optional sign and at least
one digit. A floating point number may also have a decimal point and an exponent, needs a digit
before its exponent, and can be spelled `inf`, `infinity` or `nan` in any case.
-/

namespace SemanticQuery.Number

def digit? (c : Char) : Option Nat :=
  if '0' ≤ c ∧ c ≤ '9' then some (c.toNat - '0'.toNat) else none

/-- The digits at the front of a list of characters, and the rest. -/
def digits : List Char → List Nat × List Char
  | [] => ([], [])
  | c :: rest =>
      match digit? c with
      | some d => ((d :: (digits rest).1), (digits rest).2)
      | none => ([], c :: rest)

def ofDigits (ds : List Nat) : Nat :=
  ds.foldl (fun value d => 10 * value + d) 0

def nat? (text : List Char) : Option Nat :=
  match digits text with
  | ([], _) => none
  | (ds, []) => some (ofDigits ds)
  | _ => none

def sign : List Char → Bool × List Char
  | '-' :: rest => (true, rest)
  | '+' :: rest => (false, rest)
  | rest => (false, rest)

def signed (negative : Bool) (value : Nat) : Int :=
  if negative then -(value : Int) else value

/-- The least integer beyond the positive range of signed 64 bits. -/
def int64Bound : Int :=
  9223372036854775808

def nat64Bound : Nat :=
  18446744073709551616

def int64? (text : String) : Option Int :=
  let parts := sign text.toList
  (nat? parts.2).bind fun value =>
    let result := signed parts.1 value
    if -int64Bound ≤ result ∧ result < int64Bound then some result else none

/-- Reads a natural number of 64 bits; a plus sign may stand in front, a minus sign may not. -/
def nat64? (text : String) : Option Nat :=
  let unsigned := match text.toList with
    | '+' :: rest => rest
    | rest => rest
  (nat? unsigned).bind fun value => if value < nat64Bound then some value else none

/-- Reads the exponent at the end of a number: nothing, or `e` and an integer. -/
def exponent? : List Char → Option Int
  | [] => some 0
  | mark :: rest =>
      if mark = 'e' ∨ mark = 'E' then
        let parts := sign rest
        (nat? parts.2).map (signed parts.1)
      else none

/-- Reads a number without sign: digits with an optional point, then an optional exponent. -/
def decimal? (negative : Bool) (text : List Char) : Option Binary64 :=
  let whole := digits text
  let fraction := match whole.2 with
    | '.' :: rest => digits rest
    | rest => ([], rest)
  if whole.1.isEmpty && fraction.1.isEmpty then none
  else (exponent? fraction.2).map fun exponent =>
    Binary64.ofDecimal negative (ofDigits (whole.1 ++ fraction.1))
      (exponent - (fraction.1.length : Int))

def binary64? (text : String) : Option Binary64 :=
  let parts := sign text.toList
  match String.ofList (parts.2.map Char.toLower) with
  | "inf" | "infinity" => some (Binary64.infinity parts.1)
  | "nan" => some (Binary64.notANumber parts.1)
  | _ => decimal? parts.1 parts.2

example : int64? "-9223372036854775808" = some (-9223372036854775808) := by decide +kernel
example : int64? "9223372036854775808" = none := by decide +kernel
example : nat64? "-0" = none ∧ nat64? "+5" = some 5 := by decide +kernel
example : binary64? "." = none ∧ binary64? "5." = binary64? "5" := by decide +kernel

end SemanticQuery.Number
