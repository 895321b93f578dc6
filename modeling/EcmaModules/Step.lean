import EcmaModules.Request
import EcmaModules.Value

/-!
# Steps of module bodies

The graph of modules is what this library is about; what a module does when it runs is not. A body
is therefore a list of steps. They are the acts by which a body can touch the graph: it declares and
sets its own variables, waits, fails, reads namespaces, and calls back into linking and evaluation.
Whatever a body does to the outside is a line of text that it prints.

Modules are named in steps by the names under which the stage knows them (`Stage.modules`).
-/

namespace EcmaModules

/-- The kinds of errors that are thrown. -/
inductive ErrorKind where
  | error | referenceError | syntaxError | typeError
deriving Repr, DecidableEq, Inhabited

/-- The name of a kind of errors. -/
def ErrorKind.name : ErrorKind → String
  | .error => "Error"
  | .referenceError => "ReferenceError"
  | .syntaxError => "SyntaxError"
  | .typeError => "TypeError"

/-- A value as a step writes it down: a value known beforehand, or a namespace that is made when the
step runs. -/
inductive Operand where
  | value (v : Value)
  | namespaceOf (module : String) (phase : Phase)
deriving Repr, Inhabited

/-- A step of a module's body. -/
inductive Step where
  /-- Prints a line. -/
  | print (text : String)
  /-- Declares a function. It exists before the body runs, so the step itself does nothing. -/
  | declareFunction (name : String)
  /-- Initializes a variable of the module. -/
  | init (name : String) (value : Operand)
  /-- Goes on in a later job. -/
  | await
  /-- Goes on when somebody settles the promise that is kept under the label. -/
  | suspend (label : String)
  /-- Reads an export of the namespace that a local name holds; an error is thrown on. -/
  | read (space name : String)
  /-- Reads an export of the namespace that a local name holds; an error is printed. -/
  | probe (space name : String)
  | has (space name : String)
  | keys (space : String)
  /-- Prints what a local name holds. -/
  | binding (name : String)
  /-- Puts the namespace that a local name holds on the stage, for all modules. -/
  | expose (space : String)
  /-- Puts the namespace of a module on the stage. -/
  | exposeModule (module : String) (phase : Phase)
  /-- Reads an export of the namespace on the stage. -/
  | readExposed (name : String)
  | link (module : String)
  | evaluate (module : String)
  | status (module : String)
  /-- Sets an export of a synthetic module. -/
  | setExport (module name : String) (value : Operand)
  /-- Sets an export of the synthetic module whose step this is. -/
  | setOwn (name : String) (value : Operand)
  | throw (kind : ErrorKind) (message : String)
  /-- Rejects the promise of the module's own execution, if it has one, and goes on. -/
  | reject (kind : ErrorKind) (message : String)
  /-- Fulfills the promise of the module's own execution, if it has one, and goes on. -/
  | resolve
deriving Repr, Inhabited

end EcmaModules
