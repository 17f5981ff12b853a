import SemanticQuery.Text.Utf8
import SemanticQuery.Value

/-!
# Database cells

What SQLite stores in one cell. Text is any sequence of bytes. Booleans are stored as integers,
and a number that is none is stored as null.
-/

namespace SemanticQuery

inductive Cell where
  | null
  | integer (value : Int)
  | real (value : Binary64)
  | text (bytes : List UInt8)
  | blob (bytes : List UInt8)
  deriving DecidableEq

namespace Cell

def ofValue : Value → Cell
  | .null => .null
  | .boolean value => .integer (if value then 1 else 0)
  | .integer value => .integer value
  | .float value => if value.isNaN then .null else .real value
  | .text value => .text value.toUTF8.toList

/-- The value that a cell is read as. Blobs are read as their hexadecimal digits. -/
def toValue : Cell → Value
  | .null => .null
  | .integer value => .integer value
  | .real value => .float value
  | .text bytes => .text (Text.decodeLossy bytes)
  | .blob bytes => .text (Text.hex bytes)

end Cell

end SemanticQuery
