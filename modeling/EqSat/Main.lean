import EqSat.CommandLine

/-!
# The program

Reads the rule files that the arguments name and the files these include, and the input if
terms come from there, and hands all of it to `CommandLine.run`.
-/

open EqSat

/-- The text of a file that can be read. -/
def readText? (p : Path) : IO (Option String) := do
  try return some (← IO.FS.readFile p.text) catch _ => return none

/-- Read the files at the paths and those they include, each of them once. -/
partial def gatherFiles : List Path → FileSet → IO FileSet
  | [], fs => return fs
  | p :: rest, fs => do
    if (fs.file? p.resolve).isSome then gatherFiles rest fs
    else match ← readText? p with
      | none => gatherFiles rest fs
      | some text => gatherFiles (Rule.includes p.parent text ++ rest) (fs.add p text)

/-- All lines of the input. -/
partial def readInput (stream : IO.FS.Stream) (text : String) : IO String := do
  let line ← stream.getLine
  if line.isEmpty then return text else readInput stream (text ++ line)

def main (args : List String) : IO UInt32 := do
  let fs ← gatherFiles (CommandLine.namedFiles args) .empty
  let input ← if CommandLine.readsInput args then readInput (← IO.getStdin) "" else pure ""
  match CommandLine.run fs args input with
  | .error e => throw (IO.userError e.message)
  | .ok outcome =>
    (← IO.getStderr).putStr outcome.stderr
    (← IO.getStdout).putStr outcome.stdout
    return outcome.exit.toUInt32
