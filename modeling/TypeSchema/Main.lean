import TypeSchema.CommandLine

namespace TypeSchema

/-- The text of a file, if it can be read. -/
def readText? (path : String) : IO (Option String) := do
  match ← (IO.FS.readFile path).toBaseIO with
  | .ok text => return some text
  | .error _ => return none

/-- Carry out an invocation. -/
def Invocation.perform (invocation : Invocation) : IO UInt32 := do
  let texts ← invocation.files.mapM fun path => return (path, ← readText? path)
  let standardInput ← if invocation.input = "-" then (← IO.getStdin).readToEnd else pure ""
  let production := invocation.produce ⟨fun path => (texts.find? (·.1 = path)).bind (·.2), standardInput⟩
  for warning in production.warnings do
    IO.eprintln (" WARN " ++ warning)
  match production.text, invocation.output with
  | .error failure, _ => fail failure
  | .ok text, none =>
    IO.print text
    return 0
  | .ok text, some path =>
    match ← (IO.FS.writeFile path text).toBaseIO with
    | .ok _ => return 0
    | .error _ => fail (.unwritable path)
where
  fail (failure : Failure) : IO UInt32 := do
    IO.eprintln ("error: " ++ failure.message)
    return 1

/-- Start with the arguments of the command line. -/
def start (arguments : List String) : IO UInt32 := do
  match Invocation.ofArguments arguments with
  | .ok invocation => invocation.perform
  | .error stop =>
    IO.print stop.text
    if stop = .misuse then IO.eprint usage
    return stop.exitCode.toUInt32

end TypeSchema

def main (arguments : List String) : IO UInt32 := TypeSchema.start arguments
