/-!
# Files

What the command line needs from a file system: to find the file that a path leads to, and to read
it. Where the files are is left open; `EcmaModules.Directory` keeps them in memory.

A path that leads to a file is in its final form when it starts at the root and has no empty
component, `.` or `..` in it.
-/

namespace EcmaModules

/-- Why a file cannot be found or read. -/
inductive FileError where
  | notFound
  | notADirectory
  | isADirectory
  | nameTooLong
  /-- There is a zero character in the path. -/
  | zeroInPath
  /-- The file is no text in UTF-8. -/
  | notText
  | other (message : String)
deriving Repr, DecidableEq, Inhabited

/-- The text of a file error. -/
def FileError.message : FileError → String
  | .notFound => "No such file or directory (os error 2)"
  | .notADirectory => "Not a directory (os error 20)"
  | .isADirectory => "Is a directory (os error 21)"
  | .nameTooLong => "File name too long (os error 36)"
  | .zeroInPath => "file name contained an unexpected NUL byte"
  | .notText => "stream did not contain valid UTF-8"
  | .other message => message

/-- Access to files. -/
structure Files (m : Type → Type) where
  /-- The final form of a path, if it leads to a file or a directory. -/
  locate : String → m (Except FileError String)
  /-- The text of the file that a path in final form leads to. -/
  read : String → m (Except FileError String)

/-! ## Paths -/

namespace FilePath

/-- The components of a path, empty ones included. -/
def segments (path : String) : List String :=
  path.splitOn "/"

/-- The components of a path, without empty ones. -/
def components (path : String) : List String :=
  (segments path).filter (· != "")

/-- The path in final form with the given components. -/
def ofComponents (cs : List String) : String :=
  "/" ++ "/".intercalate cs

/-- The path is one from the root. -/
def isAbsolute (path : String) : Bool :=
  path.startsWith "/"

/-- A path, seen from the place that another path leads to. -/
def join (base path : String) : String :=
  if isAbsolute path || base.isEmpty then path
  else if base.endsWith "/" then base ++ path
  else base ++ "/" ++ path

/-- The directory that a file is in, for a path in final form. -/
def parent (path : String) : String :=
  ofComponents (components path).dropLast

/-- The last component of a path in final form, or the whole path if it has none. -/
def fileName (path : String) : String :=
  (components path).getLast?.getD path

/-- Paths are ordered component by component. -/
def le (a b : String) : Bool :=
  !decide (components b < components a)

end FilePath

end EcmaModules
