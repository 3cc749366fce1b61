import Stylesheet.Command

/-! The command line. -/
open Stylesheet

def readContent (path : String) : IO (Except ReadError Text) := do
  try
    return Command.decode (← IO.FS.readBinFile path)
  catch
    | .noFileOrDirectory .. => return .error .missing
    | .inappropriateType _ 21 _ => return .error .directory
    | .inappropriateType .. => return .error .notDirectory
    | .invalidArgument .. => return .error .nameTooLong
    | e => return .error (.other e.toString.toList)

def main (args : List String) : IO UInt32 := do
  let args := args.map String.toList
  let content ← match Options.none.read args with
    | .ok (.list ⟨some path, none, _, _, _⟩) => readContent (String.ofList path)
    | _ => pure (.ok [])
  let output := Command.answer args fun _ => content
  (← IO.getStdout).putStr (String.ofList output.out)
  (← IO.getStderr).putStr (String.ofList output.err)
  return output.code.toUInt32
