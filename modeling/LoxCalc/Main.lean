import LoxCalc.CommandLine.Run

/-!
# The program

The outermost layer: it reads arguments, environment, files and standard input,
and writes what the library has made of them.
-/

namespace LoxCalc.CommandLine

/-- Reads a file, with the cause if that fails.  What lies below a file cannot be
opened, and the error names it; a directory can be opened and not read. -/
def readScript (path : Path) : IO (Except ReadError (List UInt8)) := do
  try
    let bytes ← IO.FS.readBinFile path.text
    return .ok bytes.toList
  catch e =>
    return .error <| match e with
      | .noFileOrDirectory .. => .absent
      | .inappropriateType (some _) .. => .notDirectory
      | .inappropriateType none .. => .isDirectory
      | .permissionDenied .. => .other "Permission denied"
      | e => .other (toString e)

def finish (e : Ended) : IO UInt32 := do
  IO.eprint e.err
  IO.print e.out
  return e.status.code.toUInt32

/-- Writes what a reporter has been given and leaves its console blank. -/
def flush (r : Reporter Console) : IO (Reporter Console) := do
  IO.eprint r.sink.err
  IO.print r.sink.out
  (← IO.getStdout).flush
  return { r with sink := .blank r.sink.traces }

/-- Asks for lines and runs them until the input ends. -/
partial def converse (config : Config) (view : View) (r : Reporter Console) : IO Unit := do
  let asked ← flush (ask config r)
  let line ← (← IO.getStdin).getLine
  if line.isEmpty then
    discard (flush (asked.writeLine ""))
  else
    converse config view (← flush (runScript .standard config view (.text line) asked))

end LoxCalc.CommandLine

open LoxCalc LoxCalc.CommandLine

def main (arguments : List String) : IO UInt32 := do
  let mut environment : List (String × String) := []
  for field in [Config.Field.places, .prompt, .logLevel] do
    if let some value ← IO.getEnv field.variable then
      environment := (field.variable, value) :: environment
  match plan arguments (environment.lookup ·) with
  | .refuse refusal =>
    IO.eprintln ("Usage: lox [OPTIONS] [SCRIPTS]...\nError: " ++ refusal.message)
    return refusalCode.toUInt32
  | .finish ended => finish ended
  | .file config view path => finish (runFile .standard config view path (← readScript path))
  | .prompt config view =>
    converse config view (.onConsole config.logLevel)
    return 0
