import SemanticQuery.Text.Search

/-!
# Templates

A template describes an operation in words, with slots for descriptions of its arguments. Filling
works on the template's text: the mark of each slot is replaced in turn, from the first argument to
the last. `Template.instantiate` puts all descriptions in at once.
-/

namespace SemanticQuery

inductive TemplatePiece where
  | text (words : String)
  /-- The description of the argument at an index. -/
  | slot (index : Nat)
  /-- The description of the value that an analysis is about. -/
  | target
  deriving DecidableEq

abbrev Template := List TemplatePiece

namespace Template

def slotMark (index : Nat) : String :=
  "\x7b" ++ index.repr ++ "\x7d"

def targetMark : String :=
  "\x7btarget\x7d"

def pieceText : TemplatePiece → String
  | .text words => words
  | .slot index => slotMark index
  | .target => targetMark

def text (template : Template) : String :=
  String.join (template.map pieceText)

/-- Replaces the marks of the slots from an index on, one description after the other. -/
def fillFrom (text : String) : Nat → List String → String
  | _, [] => text
  | index, description :: rest =>
      fillFrom (Text.replace (slotMark index) description text) (index + 1) rest

def fill (text : String) (descriptions : List String) : String :=
  fillFrom text 0 descriptions

def aim (text target : String) : String :=
  Text.replace targetMark target text

/-- A piece with a description in place of its slot. A slot without a description keeps its mark. -/
def instantiatePiece (target : String) (descriptions : List String) : TemplatePiece → String
  | .text words => words
  | .slot index => descriptions[index]?.getD (slotMark index)
  | .target => target

/-- A template with all descriptions put in at once. -/
def instantiate (template : Template) (target : String) (descriptions : List String) : String :=
  String.join (template.map (instantiatePiece target descriptions))

def cutAtSlot (index : Nat) : Template → Option (Template × Template)
  | [] => none
  | piece :: rest =>
      if piece = .slot index then some ([], rest)
      else (cutAtSlot index rest).map fun parts => (piece :: parts.1, parts.2)

/-- Describes any number of arguments. With two slots, what stands between them connects the
arguments; otherwise they are listed in the first slot. -/
def spread (template : Template) (descriptions : List String) : String :=
  let listed := fill template.text [String.intercalate ", " descriptions]
  match cutAtSlot 0 template with
  | some (front, rest) =>
      match cutAtSlot 1 rest with
      | some (connector, back) =>
          text front ++ String.intercalate (text connector) descriptions ++ text back
      | none => listed
  | none => listed

end Template

end SemanticQuery
