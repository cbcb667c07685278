import TensorNetwork.CommandLine

/-! The program as it is run. Files are read only if their number is right. -/
open TensorNetwork

def main (arguments : List String) : IO UInt32 := do
  let texts ← match arguments with
    | [file] => do pure [← IO.FS.readFile file]
    | _ => pure []
  match CommandLine.output texts with
  | .ok text =>
      IO.print text
      return 0
  | .error e =>
      IO.eprintln e.message
      return 1
