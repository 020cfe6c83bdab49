import ExtensionLowering.CommandLine.Run
/-!
# The program

Reads the files that a run of the command may look at and prints what the run gives.
-/

open ExtensionLowering

def readContent (address : String) : IO (Option (List Nat)) := do
  let path := (Config.dropBeginning? "file://" address).getD address
  try
    let bytes ← IO.FS.readBinFile path
    return some (bytes.toList.map UInt8.toNat)
  catch _ => return none

def main (args : List String) : IO UInt32 := do
  let here := (← IO.currentDir).toString
  let contents ← (CommandLine.addresses here args).mapM fun a => return (a, ← readContent a)
  let store : CommandLine.Store := { content? := fun a => (contents.lookup a).join }
  let err ← IO.getStderr
  match CommandLine.run? here store args (← err.isTty) with
  | none => return 2
  | some outcome =>
    IO.print outcome.stdout
    err.putStr outcome.stderr
    return outcome.code.toUInt32
