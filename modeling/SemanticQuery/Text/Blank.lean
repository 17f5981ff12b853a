/-!
# Blank characters

The blanks are the characters with the Unicode property `White_Space`. They separate the words of
a step, and they are trimmed from plan keys and from numbers held as text.
-/

namespace SemanticQuery.Text

/-- The inclusive code point ranges of the `White_Space` property, in increasing order. -/
def blankRanges : List (Nat × Nat) :=
  [(0x09, 0x0D), (0x20, 0x20), (0x85, 0x85), (0xA0, 0xA0), (0x1680, 0x1680), (0x2000, 0x200A),
    (0x2028, 0x2029), (0x202F, 0x202F), (0x205F, 0x205F), (0x3000, 0x3000)]

def isBlank (c : Char) : Bool :=
  blankRanges.any fun range => range.1 ≤ c.toNat && c.toNat ≤ range.2

example : (blankRanges.map fun range => range.2 - range.1 + 1).sum = 25 := by decide

def dropBlanks : List Char → List Char :=
  List.dropWhile isBlank

def trimEnd (text : String) : String :=
  String.ofList (dropBlanks text.toList.reverse).reverse

def trim (text : String) : String :=
  String.ofList (dropBlanks (dropBlanks text.toList).reverse).reverse

end SemanticQuery.Text
