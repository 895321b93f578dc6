import EcmaModules.Files
import EcmaModules.Machine

/-!
# A host for files

A host whose modules are files. The specifier of a request is a path, seen from the directory of the
module that makes it. The attribute `type` says what to make of the file: without it the file is a
module, and with the type `text` it is a module whose default export is the text. The same file is
the same module only if it is requested with the same type.

A module made from a file prints a line when it is executed. One that awaits prints a second line
when it goes on, in a later job.
-/

namespace EcmaModules

/-- A host for files. -/
structure FileHost where
  /-- The modules by the paths and types they were requested with, the latest first. -/
  modules : List ((String × Option String) × ModuleId) := []
  /-- The text of some file was not a module. -/
  parseFailed : Bool := false
  /-- Deferred imports are switched on. -/
  deferring : Bool := true
deriving Inhabited

namespace FileHost

/-- What the module of a file does when it is executed. -/
def body (path : String) (awaits : Bool) : List Step :=
  let name := FilePath.fileName path
  if awaits then [.print (name ++ " - start"), .await, .print (name ++ " - finish")]
  else [.print name]

/-- The module that a text is, if it is one. -/
def content? (h : FileHost) (path text : String) : Option String → Option ModuleContent
  | some _ => some (.synthetic (.ofDefault (.string text)))
  | none =>
    (Entries.ofText? h.deferring text).map fun e ↦
      .sourceText { entries := e, body := body path e.awaits }

/-- A failure to load a file, as an error. -/
def fail (h : FileHost) (s : Store) (kind : ErrorKind) (message : String) :
    Outcome ModuleId × FileHost × Store :=
  let (e, s) := s.throw kind message
  (.error e, h, s)

/-- Makes the module of a file that has been read. -/
def addFile (h : FileHost) (s : Store) (path text : String) (type : Option String) :
    Outcome ModuleId × FileHost × Store :=
  match h.content? path text type with
  | none =>
    { h with parseFailed := true }.fail s .syntaxError ("Cannot parse module '" ++ path ++ "'")
  | some content =>
    let (m, s) := s.addModule { content := content, hostDefined := some path }
    (.ok m, { h with modules := ((path, type), m) :: h.modules }, s)

variable {m : Type → Type} [Monad m]

/-- The module of the file that a path leads to. -/
def loadFile (files : Files m) (h : FileHost) (s : Store) (path : String) (type : Option String) :
    m (Outcome ModuleId × FileHost × Store) := do
  match ← files.locate path with
  | .error e => return h.fail s .error ("Cannot find module '" ++ path ++ "': " ++ e.message)
  | .ok path =>
    match type with
    | some "text" | none =>
      match h.modules.lookup (path, type) with
      | some m => return (.ok m, h, s)
      | none =>
        match ← files.read path with
        | .error e => return h.fail s .error ("Cannot read module '" ++ path ++ "': " ++ e.message)
        | .ok text => return h.addFile s path text type
    | some other => return h.fail s .typeError ("Unsupported module type '" ++ other ++ "'")

/-- Answers a question of the machine, which this host never puts off. -/
def reply (files : Files m) (h : FileHost) (s : Store) :
    HostQuestion → m (List LoadAnswer × FileHost × Store)
  | .load call => do
    let base := (((s.module? call.referrer).bind (·.hostDefined)).map FilePath.parent).getD ""
    let path := FilePath.join base call.request.specifier
    let (outcome, h, s) ← loadFile files h s path (call.request.attribute? "type")
    return ([⟨call, outcome⟩], h, s)
  | .answer _ => return ([], h, s)

/-- Runs a task to its end. -/
def perform (files : Files m) (h : FileHost) (s : Store) (t : Task) :
    m (Result × FileHost × Store) :=
  Machine.perform (reply files) h s t

end FileHost

end EcmaModules
