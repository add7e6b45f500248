import ScriptFold.Command
/-!
The program: reads the arguments, reads the named file, prints the report of the request
line by line (standard output or standard error as each line says) and exits with the
report's status.
-/
namespace ScriptFold.Command

/-- Print a report's lines and give its status. -/
def emit (r : Report) : IO UInt32 := do
  for (channel, line) in r.lines do
    match channel with
    | .out => IO.println line
    | .err => IO.eprintln line
  return r.status.toUInt32

/-- Run what the arguments ask for. -/
def runArgs (args : List String) : IO UInt32 := do
  match Invocation.ofArgs args with
  | .answer r => emit r
  | .run request =>
    match ← (IO.FS.readFile request.file).toBaseIO with
    | .ok source => emit (request.report source)
    | .error err => emit (unreadable request.file (toString err))

end ScriptFold.Command

def main (args : List String) : IO UInt32 :=
  ScriptFold.Command.runArgs args
