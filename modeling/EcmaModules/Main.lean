import EcmaModules.CommandLine

/-!
# The program

The command line on the files of the system.
-/

open EcmaModules

/-- An error of the system as a file error. -/
def fileError : IO.Error → FileError
  | .noFileOrDirectory .. => .notFound
  | .inappropriateType _ code details =>
    if code = 20 then .notADirectory
    else if code = 21 then .isADirectory
    else .other (details ++ " (os error " ++ toString code ++ ")")
  | e => .other (toString e)

/-- The files of the system. -/
def systemFiles : Files IO where
  locate path := do
    try return .ok (← IO.FS.realPath path).toString
    catch e => return .error (fileError e)
  read path := do
    try
      let content ← IO.FS.readBinFile path
      match String.fromUTF8? content with
      | some text => return .ok text
      | none => return .error .notText
    catch e => return .error (fileError e)

/-- Runs the command line. -/
def main (args : List String) : IO UInt32 := do
  let output ← CommandLine.run systemFiles args
  IO.print output.stdout
  IO.eprint output.stderr
  return output.code.toUInt32
