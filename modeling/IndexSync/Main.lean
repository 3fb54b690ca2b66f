import IndexSync.CommandLine.Command

/-!
# The program

Reads the files that a command line names, and prints what
`CommandLine.answer` makes of them.
-/

namespace IndexSync.CommandLine

/-- The text of a file, if it can be read. -/
def readText (path : String) : IO (Option String) := do
  try
    return some (← IO.FS.readFile path)
  catch _ =>
    return none

end IndexSync.CommandLine

def main (words : List String) : IO UInt32 := do
  let paths := IndexSync.CommandLine.filesRead words
  let texts ← paths.mapM fun path => do
    return (path, ← IndexSync.CommandLine.readText path)
  let result := IndexSync.CommandLine.answer (fun path => (texts.lookup path).join) words
  IO.print result.output
  unless result.message.isEmpty do
    IO.eprintln result.message
  return UInt32.ofNat result.status
