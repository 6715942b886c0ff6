import X86Encoding.CommandLine.Report

set_option autoImplicit false

namespace X86Encoding

def readFile (path : Text) : IO (Except Text Text) := do
  try
    let contents ← IO.FS.readFile (String.ofList path)
    return .ok contents.toList
  catch
    | .noFileOrDirectory .. => return .error CommandLine.missingFile
    | e => return .error (toString e).toList

end X86Encoding

open X86Encoding in
def main (arguments : List String) : IO UInt32 := do
  let args := arguments.map String.toList
  let path := (CommandLine.Invocation.ofArguments? args).bind CommandLine.Invocation.path?
  let contents ←
    match path with
    | some p => readFile p
    | none => pure (.ok [])
  let outcome := CommandLine.run args fun _ => contents
  IO.print (String.ofList outcome.out)
  IO.eprint (String.ofList outcome.err)
  return UInt32.ofNat outcome.exit
