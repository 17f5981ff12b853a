import SemanticQuery.CommandLine

/-!
# The program

Connects the command line to files and standard streams. No database engine is linked, so a query
that would be run fails.
-/

open SemanticQuery CommandLine

def reasonOf : IO.Error → String
  | .noFileOrDirectory .. => "No such file or directory (os error 2)"
  | error => toString error

/-- The result of an action, or the reason why it failed. -/
def attempt (action : IO String) : IO (Except String String) := do
  try return .ok (← action)
  catch error => return .error (reasonOf error)

def readFiles (words : List String) : IO (List (String × Except String String)) :=
  match request words with
  | .ok request =>
      ([request.ring, request.plan] ++ request.settings.toList).mapM fun (path : String) => do
        return (path, ← attempt (IO.FS.readFile path))
  | .error _ => return []

def readInput (words : List String) : IO (Except String String) :=
  attempt do if words.contains "-" then (← IO.getStdin).readToEnd else return ""

def main (words : List String) : IO UInt32 := do
  let files ← readFiles words
  let input ← readInput words
  let outcome := respond {
    file := fun path => (files.lookup path).getD (.error "file was not read")
    input := input
    database := fun _ statement => .error (.execution "no database engine is linked" statement.sql)
  } words
  IO.print outcome.output
  IO.eprint outcome.errors
  return outcome.exitCode.toUInt32
