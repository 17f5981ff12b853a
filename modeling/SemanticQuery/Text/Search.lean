/-!
# Cutting and replacing text

Literal search in a text, by its list of characters. Replacing goes from left to right, and what
has been put in is not searched again.
-/

namespace SemanticQuery.Text

def cutAt (mark : Char) : List Char → Option (List Char × List Char)
  | [] => none
  | c :: rest =>
      if c = mark then some ([], rest)
      else (cutAt mark rest).map fun parts => (c :: parts.1, parts.2)

def splitFirst? (mark : Char) (text : String) : Option (String × String) :=
  (cutAt mark text.toList).map fun parts => (String.ofList parts.1, String.ofList parts.2)

def splitLast? (mark : Char) (text : String) : Option (String × String) :=
  (cutAt mark text.toList.reverse).map fun parts =>
    (String.ofList parts.2.reverse, String.ofList parts.1.reverse)

def endsIn (ending text : String) : Bool :=
  ending.toList.isSuffixOf text.toList

/-- Replaces each occurrence of `pattern`, going left to right. The first argument counts the
characters of an occurrence that are still to be passed over. -/
def replaceFrom (pattern replacement : List Char) : Nat → List Char → List Char
  | _, [] => []
  | skip + 1, _ :: rest => replaceFrom pattern replacement skip rest
  | 0, c :: rest =>
      if pattern.isPrefixOf (c :: rest) then
        replacement ++ replaceFrom pattern replacement (pattern.length - 1) rest
      else c :: replaceFrom pattern replacement 0 rest

def replace (pattern replacement text : String) : String :=
  String.ofList (replaceFrom pattern.toList replacement.toList 0 text.toList)

/-- A text with each ASCII letter in lower case; other characters stay. -/
def lower (text : String) : String :=
  String.ofList (text.toList.map Char.toLower)

example : replace "ab" "ba" "aabb" = "abab" := by decide +kernel
example : splitLast? ':' "a:b:c" = some ("a:b", "c") := by decide +kernel

end SemanticQuery.Text
