import BlockScript.CommandLine.Run

/-! The command line on the files of the machine. -/

namespace BlockScript

/-- The reason why a file cannot be read or written. -/
def systemReason : IO.Error → String
  | .noFileOrDirectory .. => "No such file or directory (os error 2)"
  | .permissionDenied .. => "Permission denied (os error 13)"
  | .inappropriateType _ 21 _ => "Is a directory (os error 21)"
  | .inappropriateType .. => "Not a directory (os error 20)"
  | e => toString e

def readUtf8 (path : String) : IO (Except String String) := do
  try
    match String.fromUTF8? (← IO.FS.readBinFile path) with
    | some text => return .ok text
    | none => return .error "stream did not contain valid UTF-8"
  catch e => return .error (systemReason e)

def writeUtf8 (path text : String) : IO (Except String Unit) := do
  try
    IO.FS.writeFile path text
    return .ok ()
  catch e => return .error (systemReason e)

end BlockScript

def main (arguments : List String) : IO UInt32 := do
  let outcome ← BlockScript.CommandLine.run
    { read := BlockScript.readUtf8, write := BlockScript.writeUtf8 } arguments
  IO.print outcome.stdout
  IO.eprint outcome.stderr
  return outcome.code
