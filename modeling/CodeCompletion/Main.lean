import CodeCompletion.CommandLine.Run

/-! The command line program. -/
open CodeCompletion.CommandLine

/-- Why the system does not read a file. It tells the two kinds of wrong type by number. -/
def fileError : IO.Error → FileError
  | .noFileOrDirectory .. => .missing
  | .permissionDenied .. => .denied
  | .inappropriateType _ 21 _ => .isFolder
  | .inappropriateType .. => .notFolder
  | .invalidArgument .. => .nameTooLong
  | e => .unreadable (toString e)

def readText (path : String) : IO FileText := do
  try
    let bytes ← IO.FS.readBinFile path
    return (String.fromUTF8? bytes).elim (.error .notText) .ok
  catch e => return .error (fileError e)

def main (arguments : List String) : IO UInt32 := do
  let texts ← (filesOf arguments).mapM fun path => return (path, ← readText path)
  let outcome := respond arguments fun path => (texts.lookup path).getD (.error .missing)
  IO.print outcome.out
  IO.eprint outcome.err
  return outcome.code.toUInt32
