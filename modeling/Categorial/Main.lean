import Categorial.CommandLine.Run

/-!
# The program

Reads the files a command names, runs it, and writes what it gives.
-/

namespace Categorial.CommandLine

/-- What is found under the name of a file. -/
def look (name : String) : IO Found := do
  try
    let s ← IO.FS.readFile name
    return .contents s
  catch e =>
    match e with
    | .noFileOrDirectory .. => return .missing
    | _ => return .unreadable

/-- The files a command may read. -/
def readInputs (c : Command) : IO Files := do
  let pairs ← c.inputs.mapM fun name => do return (name, ← look name)
  return fun name => (pairs.lookup name).getD .missing

/-- Report a failure. -/
def fail (f : Failure) : IO UInt32 := do
  IO.eprintln ("Error: " ++ f.message)
  return f.code.toUInt32

/-- Answer lines of standard input until it ends. -/
partial def converse (s : Session) : IO UInt32 := do
  let out ← IO.getStdout
  out.putStr Session.prompt
  out.flush
  let line ← (← IO.getStdin).getLine
  if line.isEmpty then return 0
  out.putStr (s.answer line)
  converse s

/-- Write files in turn, up to the first failure. -/
def writeOutputs : List Output → IO UInt32
  | [] => return 0
  | o :: rest => do
    let written ← try
        IO.FS.writeFile o.file o.contents
        pure true
      catch _ => pure false
    if written then writeOutputs rest
    else do
      IO.eprintln ("Error: cannot write " ++ o.file)
      return 1

/-- Run a command. -/
def execute (args : List String) : IO UInt32 := do
  match Command.ofArgs? args with
  | none => fail .usage
  | some command =>
    let files ← readInputs command
    match command with
    | .parse c =>
      match c.start files with
      | .error f => fail f
      | .ok s => converse s
    | .train c =>
      match c.run files with
      | .error f => fail f
      | .ok (stdout, outputs) =>
        IO.print stdout
        writeOutputs outputs

end Categorial.CommandLine

/-- The command line. -/
def main (args : List String) : IO UInt32 := Categorial.CommandLine.execute args
