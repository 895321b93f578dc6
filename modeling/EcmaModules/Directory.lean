import EcmaModules.Files

/-!
# A directory in memory

A directory with the files in and below it, as far as reading files goes. It is at a place in an
otherwise empty file system, and paths that do not start at the root are seen from there. Every
component that a file's path goes through is a directory.
-/

namespace EcmaModules

/-- A directory in memory. -/
structure Directory where
  /-- The path of the directory, in final form. -/
  path : String
  /-- The contents of the files, by their paths seen from the directory. -/
  files : List (String × ByteArray)
deriving Inhabited

namespace Directory

/-- The components of the path of a file, from the root. -/
def fileComponents (d : Directory) (name : String) : List String :=
  FilePath.components d.path ++ FilePath.components name

/-- The content of the file with the given components. -/
def file? (d : Directory) (cs : List String) : Option ByteArray :=
  (d.files.find? fun f ↦ d.fileComponents f.1 == cs).map (·.2)

/-- The components are those of a directory. -/
def isDirectory (d : Directory) (cs : List String) : Bool :=
  cs.isPrefixOf (FilePath.components d.path)
    || d.files.any fun f ↦ cs.isPrefixOf (d.fileComponents f.1) && d.fileComponents f.1 != cs

/-- The number of bytes that a component may have. -/
def nameLimit : Nat := 255

/-- Follows components from a place. Only a directory has anything behind it, itself included. -/
def follow (d : Directory) : List String → List String → Except FileError (List String)
  | place, [] => .ok place
  | place, c :: rest =>
    if !d.isDirectory place then .error .notADirectory
    else if c = "" || c = "." then follow d place rest
    else if c = ".." then follow d place.dropLast rest
    else if nameLimit < c.utf8ByteSize then .error .nameTooLong
    else
      let next := place ++ [c]
      if d.isDirectory next || (d.file? next).isSome then follow d next rest else .error .notFound

/-- The final form of a path. -/
def locate (d : Directory) (path : String) : Except FileError String :=
  if path.isEmpty then .error .notFound
  else if path.contains '\x00' then .error .zeroInPath
  else
    let start := if FilePath.isAbsolute path then [] else FilePath.components d.path
    (d.follow start (FilePath.segments path)).map FilePath.ofComponents

/-- The text of the file that a path in final form leads to. -/
def read (d : Directory) (path : String) : Except FileError String :=
  match d.file? (FilePath.components path) with
  | some content =>
    match String.fromUTF8? content with
    | some text => .ok text
    | none => .error .notText
  | none => .error (if d.isDirectory (FilePath.components path) then .isADirectory else .notFound)

/-- The files of the directory. -/
def toFiles (d : Directory) : Files Id :=
  { locate := d.locate, read := d.read }

end Directory

end EcmaModules
