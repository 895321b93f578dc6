import EcmaModules.Syntax.Parser.Expression

/-!
# Statements

The rules for statements and for import and export declarations. The declarations may stand
wherever a statement may; only those at the top of a module mean anything to it. The exported names
of a text have to differ, wherever they stand.
-/

namespace EcmaModules.Syntax

open Reader

/-! ## Variables -/

/-- Declarations of this kind need an initializer for every variable. -/
def VariableKind.needsInitializer : VariableKind → Bool
  | .const | .using | .awaitUsing => true
  | .var | .let => false

/-- The declaration manages a resource, which has to be held by an identifier. -/
def VariableKind.isResource : VariableKind → Bool
  | .using | .awaitUsing => true
  | _ => false

/-- The pattern is a single identifier. -/
def Pattern.isLeaf : Pattern → Bool
  | .leaf _ => true
  | _ => false

/-- The variable may stand without an initializer, or it has one. -/
def Declarator.isComplete (kind : VariableKind) (d : Declarator) : Bool :=
  d.initializer.isSome || (d.target.isLeaf && !kind.needsInitializer)

/-- Reads one variable or pattern with its initializer, if there is one. -/
def readDeclarator (k : Rules) (c : Place) (kind : VariableKind) : Reader Declarator := do
  let target ← k.pattern c
  require (!kind.isResource || target.isLeaf)
  let initializer ← if ← eat .assign then some <$> k.assignment c else pure none
  return ⟨target, initializer⟩

/-- Reads the variables of a declaration. -/
def readVariables (k : Rules) (c : Place) (kind : VariableKind) : Reader Variables := do
  return ⟨kind, ← commaSeparated (readDeclarator k c kind)⟩

/-- Reads a declaration of variables after its keyword. -/
def readVariableStatement (k : Rules) (c : Place) (kind : VariableKind) : Reader Variables := do
  let v ← readVariables k c kind
  require (v.declarators.all (·.isComplete kind))
  endStatement
  return v

/-- A declaration with `using` begins at the place: an identifier follows on the same line. -/
def beginsUsing (l : Lexeme) : Bool :=
  if l.token == .word "using" false then
    let next := Lexeme.first l.rest
    next.token.isIdentifier && !next.newlineBefore
  else false

/-- The kind of the declaration that begins here, if it manages a resource. -/
def atResource : Reader (Option VariableKind) := do
  let l ← here
  if beginsUsing l then return some .using
  if l.token == .word "await" false then
    let next ← peekNext
    if beginsUsing next && !next.newlineBefore then return some .awaitUsing
  return none

/-- Moves on over the keywords of the kind of a declaration. -/
def skipKind : VariableKind → Reader Unit
  | .awaitUsing => do advance; advance
  | _ => advance

/-- What follows `let` shows that it is no keyword. -/
def letIsIdentifier (next : Token) (alone : Bool) : Bool :=
  match next with
  | .punct .dot | .punct .lparen | .punct .semicolon | .punct .assign => true
  | .punct .lbracket => false
  | t => alone || t.precedence?.isSome || t.isOperatorAssign

/-- A class begins here. -/
def atClass : Reader Bool := do
  return (← atWord "class") || (← atPunct .at)

/-- Reads a class with the decorators before it. It has a name unless it may go without. -/
def readClassDeclaration (k : Rules) (c : Place) (mayBeUnnamed : Bool) : Reader Class := do
  let decorators ← readDecorators k c
  let class_ ← readClass k c decorators
  require (mayBeUnnamed || class_.name?.isSome)
  return class_

/-! ## Names, requests and exported names -/

/-- Reads a name under which something is exported: a word or a text. Tells whether it is a
text. -/
def readModuleName : Reader (String × Bool) := do
  match ← peek with
  | .word name _ => advance; return (name, false)
  | .string value loneSurrogate =>
    require !loneSurrogate
    advance
    return (value, true)
  | _ => fail

/-- Reads a text. -/
def readString : Reader String := do
  match ← peek with
  | .string value _ => advance; return value
  | _ => fail

/-- Reads an import attribute. -/
def readAttribute : Reader Attribute := do
  let key ← match ← peek with
    | .word name _ => advance; pure name
    | .string value _ => advance; pure value
    | _ => fail
  expect .colon
  return ⟨key, ← readString⟩

/-- Reads the specifier and the attributes of a request. The keys of the attributes differ. -/
def readRequest (phase : Phase) : Reader Request := do
  let specifier ← readString
  let hasAttributes ← if ← eatWord "with" then pure true
    else if ← afterNewline then pure false else eatWord "assert"
  if hasAttributes then
    expect .lbrace
    let (attributes, _) ← commas .rbrace readAttribute
    require (attributes.map (·.key)).Nodup
    return { specifier, attributes, phase }
  return { specifier, phase }

/-- The identifiers that the pattern declares, in the order of the text. -/
def Pattern.names : Pattern → List String
  | .leaf (.identifier name) => [name]
  | .leaf _ => []
  | .array items => itemNames items
  | .object members => memberNames members
where
  /-- The identifiers that the elements of an array pattern declare. -/
  itemNames : List PatternItem → List String
    | [] => []
    | .hole :: r => itemNames r
    | .element p _ :: r => p.names ++ itemNames r
    | .rest p :: r => p.names ++ itemNames r
  /-- The identifiers that the members of an object pattern declare. -/
  memberNames : List PatternMember → List String
    | [] => []
    | .property _ p _ :: r => p.names ++ memberNames r
    | .rest p :: r => p.names ++ memberNames r

/-- The identifiers that are declared, in the order of the text. -/
def Variables.names (v : Variables) : List String :=
  v.declarators.flatMap (·.target.names)

/-- The names under which the declaration exports something. -/
def Declaration.exportedNames : Declaration → List String
  | .imports .. => []
  | .exportAll exported _ => exported.toList
  | .exportFrom specifiers _ => specifiers.map (·.exported)
  | .exportNames specifiers => specifiers.map (·.exported)
  | .exportVariables v => v.names
  | .exportFunction name => [name]
  | .exportClass c => c.name?.toList
  | .exportDefault _ | .exportDefaultFunction _ | .exportDefaultClass _ => ["default"]

/-- Notes the exported names of a declaration, which have to be new. -/
def noteExports (d : Declaration) : Reader Declaration := do
  let exported := d.exportedNames ++ (← get).exported
  require exported.Nodup
  modify fun s ↦ { s with exported := exported }
  return d

/-! ## Imports -/

/-- Reads an imported name with the name it gets. -/
def readImportSpecifier (c : Place) : Reader ImportSpecifier := do
  let (imported, isText) ← readModuleName
  if ← eatWord "as" then return ⟨some imported, ← readIdentifier c⟩
  require (!isText && c.isIdentifier imported)
  return ⟨some imported, imported⟩

/-- Reads `* as name`. -/
def readNamespaceSpecifier (c : Place) : Reader ImportSpecifier := do
  expect .star
  expectWord "as"
  return ⟨none, ← readIdentifier c⟩

/-- Reads the names in braces or the namespace that a declaration imports. -/
def readNamedImports (c : Place) : Reader (List ImportSpecifier) := do
  if ← eat .lbrace then return (← commas .rbrace (readImportSpecifier c)).1
  else return [← readNamespaceSpecifier c]

/-- Reads the end of an import declaration from the word `from` on. -/
def readImportFrom (specifiers : List ImportSpecifier) (phase : Phase) : Reader Declaration := do
  expectWord "from"
  let request ← readRequest phase
  endStatement
  return .imports specifiers request

/-- The word `source` is in front as a keyword: a name follows that is not the `from` of the
declaration. -/
def atImportSource : Reader Bool := do
  if ← atWord "source" then
    let next ← peekNext
    if next.token == .word "from" false then
      return (Lexeme.first next.rest).token == .word "from" false
    else return next.token.isIdentifier
  else return false

/-- Reads an import declaration after the word `import`. A deferred import is always one of a
namespace; otherwise `defer` is a name. -/
def readImport (c : Place) : Reader Declaration := do
  match ← peek with
  | .string .. =>
    let request ← readRequest .evaluation
    endStatement
    return .imports [] request
  | .word .. =>
    if (← atWord "defer") && (← peekNext).token == .punct .star then
      advance
      readImportFrom [← readNamespaceSpecifier c] .defer
    else
      if ← atImportSource then advance
      let first : ImportSpecifier := ⟨some "default", ← readIdentifier c⟩
      if ← eat .comma then readImportFrom (first :: (← readNamedImports c)) .evaluation
      else readImportFrom [first] .evaluation
  | _ => readImportFrom (← readNamedImports c) .evaluation

/-! ## Exports -/

/-- Reads an exported name with the name under which it is exported. Tells whether it can be the
name of a variable of this module. -/
def readExportSpecifier : Reader (ExportSpecifier × Bool) := do
  let (name, isText) ← readModuleName
  let isVariable := !isText && !isReserved name && !unexportableWords.contains name
  if ← eatWord "as" then return (⟨name, (← readModuleName).1⟩, isVariable)
  else return (⟨name, name⟩, isVariable)

/-- Reads a default export after the word `default`. -/
def readDefaultExport (k : Rules) (c : Place) : Reader Declaration := do
  if (← atWord "function") || (← atAsyncFunction) then
    return .exportDefaultFunction (← readFunction k c false)
  if ← atClass then return .exportDefaultClass (← readClassDeclaration k c true)
  let e ← k.assignment c
  endStatement
  return .exportDefault e

/-- Reads an export declaration after the word `export`. -/
def readExport (k : Rules) (c : Place) : Reader Declaration := do
  match ← peek with
  | .punct .star =>
    advance
    let exported ← if ← eatWord "as" then (some ·.1) <$> readModuleName else pure none
    expectWord "from"
    let request ← readRequest .evaluation
    endStatement
    return .exportAll exported request
  | .punct .lbrace =>
    advance
    let (specifiers, _) ← commas .rbrace readExportSpecifier
    if ← eatWord "from" then
      let request ← readRequest .evaluation
      endStatement
      return .exportFrom (specifiers.map (·.1)) request
    require (specifiers.all (·.2))
    endStatement
    return .exportNames (specifiers.map (·.1))
  | .word "default" false => advance; readDefaultExport k c
  | .word "var" false => advance; return .exportVariables (← readVariableStatement k c .var)
  | .word "let" false => advance; return .exportVariables (← readVariableStatement k c .let)
  | .word "const" false => advance; return .exportVariables (← readVariableStatement k c .const)
  | _ =>
    if ← atClass then return .exportClass (← readClassDeclaration k c false)
    else return .exportFunction (← ofOption (← readFunction k c false))

/-! ## Loops -/

/-- Reads what stands in the head of a `for` statement up to its first semicolon, `of` or `in`. -/
def readForInit (k : Rules) (c : Place) : Reader (Option ForInit) := do
  let head := { c with allowsIn := false }
  let next := (← peekNext).token
  if ← atPunct .semicolon then return none
  if ← eatWord "var" then return some (.vars (← readVariables k head .var))
  if ← eatWord "const" then return some (.vars (← readVariables k head .const))
  let declares := next == .punct .lbracket || next == .punct .lbrace || match next with
    | .word name _ => name != "in"
    | _ => false
  if (← atWord "let") && declares then
    advance
    return some (.vars (← readVariables k head .let))
  if let some kind ← atResource then
    skipKind kind
    return some (.vars (← readVariables k head kind))
  return some (.expression (← readExpression k head))

/-- What a `for` statement has read before `of` or `in`, as the target of each round. -/
def ForInit.toTarget : ForInit → Reader ForTarget
  | .vars v => return .vars v
  | .expression e => return .pattern (← readAsPattern e)

/-- The variables of a plain `for` loop are complete. -/
def ForInit.isComplete : ForInit → Bool
  | .vars v => v.declarators.all (·.isComplete v.kind)
  | .expression _ => true

/-- The kind of variables declared. -/
def ForInit.kind? : ForInit → Option VariableKind
  | .vars v => some v.kind
  | .expression _ => none

/-- Reads a statement with `for`. -/
def readFor (k : Rules) (c : Place) : Reader Statement := do
  advance
  let awaits ← eatWord "await"
  require (!awaits || c.allowsAwait)
  expect .lparen
  let asyncOf := (← atWord "async") && (← peekNext).token == .word "of" false
  let init ← readForInit k c
  match init, ← peek with
  | some init, .word "of" false =>
    require (awaits || !asyncOf)
    let target ← init.toTarget
    advance
    let source ← k.assignment c
    expect .rparen
    return .forOf awaits target source (← k.statement c true)
  | some init, .word "in" false =>
    require (!awaits && !(init.kind?.any (·.isResource)))
    let target ← init.toTarget
    advance
    let source ← readExpression k c
    expect .rparen
    return .forIn target source (← k.statement c true)
  | init, _ =>
    require (!awaits && init.all (·.isComplete))
    expect .semicolon
    let test ← if ← atPunct .semicolon then pure none else some <$> readExpression k c
    expect .semicolon
    let update ← if ← atPunct .rparen then pure none else some <$> readExpression k c
    expect .rparen
    return .forLoop init test update (← k.statement c true)

/-! ## Statements -/

/-- Reads an expression in parentheses. -/
def readCondition (k : Rules) (c : Place) : Reader Expression := do
  expect .lparen
  let e ← readExpression k c
  expect .rparen
  return e

/-- Reads statements in braces. -/
def readBlock (k : Rules) (c : Place) : Reader (List Statement) := do
  expect .lbrace
  many (eat .rbrace) (k.statement c false)

/-- Reads a `case` or the `default` of a `switch`. -/
def readCase (k : Rules) (c : Place) : Reader Case := do
  let test ←
    if ← eatWord "default" then pure none
    else
      expectWord "case"
      some <$> readExpression k c
  expect .colon
  let atEnd := return (← atWord "case") || (← atWord "default") || (← atPunct .rbrace)
  return .mk test (← many atEnd (k.statement c false))

/-- Reads a statement with `try`. -/
def readTry (k : Rules) (c : Place) : Reader Statement := do
  advance
  let body ← readBlock k c
  let catches ← eatWord "catch"
  let parameter ←
    if catches then
      if ← eat .lparen then
        let p ← k.pattern c
        expect .rparen
        pure (some p)
      else pure none
    else pure none
  let handler ← if catches then some <$> readBlock k c else pure none
  let finalizer ← if ← eatWord "finally" then some <$> readBlock k c else pure none
  require (catches || finalizer.isSome)
  return .tryCatch body parameter handler finalizer

/-- Reads a jump to a label, or to the end of the loop around it. -/
def readJump (c : Place) : Reader Statement := do
  advance
  if (← peek).isIdentifier && !(← afterNewline) then
    let _ ← readIdentifier c
  endStatement
  return .plain

/-- Reads an expression as a statement, or a statement with a label. -/
def readExpressionStatement (k : Rules) (c : Place) : Reader Statement := do
  match ← readExpression k c with
  | .identifier name =>
    if ← eat .colon then return .labeled (← k.statement c true)
    endStatement
    return .expression (.identifier name)
  | e =>
    endStatement
    return .expression e

/-- Reads a declaration that may not be the whole body of another statement. -/
def readDeclared (k : Rules) (c : Place) (alone : Bool) (kind : VariableKind) :
    Reader Statement := do
  require !alone
  skipKind kind
  return .vars (← readVariableStatement k c kind)

/-- Reads a function as a statement. -/
def readFunctionStatement (k : Rules) (c : Place) (alone : Bool) : Reader Statement := do
  let plain := (← atWord "function") && (← peekNext).token != .punct .star
  require (!alone || plain)
  return .function (← ofOption (← readFunction k c false))

/-- Reads a statement that begins with the given word. -/
def readWordStatement (k : Rules) (c : Place) (alone : Bool) (word : String) :
    Reader Statement := do
  match word with
  | "if" =>
    advance
    let test ← readCondition k c
    let consequent ← k.statement c true
    let alternate ← if ← eatWord "else" then some <$> k.statement c true else pure none
    return .branch test consequent alternate
  | "for" => readFor k c
  | "while" =>
    advance
    let test ← readCondition k c
    return .whileLoop test (← k.statement c true)
  | "do" =>
    advance
    let body ← k.statement c true
    expectWord "while"
    let test ← readCondition k c
    let _ ← eat .semicolon
    return .doWhile body test
  | "var" => advance; return .vars (← readVariableStatement k c .var)
  | "const" => readDeclared k c alone .const
  | "function" => readFunctionStatement k c alone
  | "class" =>
    require !alone
    return .classDeclaration (← readClassDeclaration k c false)
  | "return" =>
    require c.allowsReturn
    advance
    let l ← here
    let ended := l.newlineBefore || l.token == .punct .semicolon || l.token == .punct .rbrace
      || l.token == .eof
    let e ← if ended then pure none else some <$> readExpression k c
    endStatement
    return .returns e
  | "throw" =>
    advance
    require !(← afterNewline)
    let e ← readExpression k c
    endStatement
    return .throw e
  | "try" => readTry k c
  | "switch" =>
    advance
    let discriminant ← readCondition k c
    expect .lbrace
    return .switch discriminant (← many (eat .rbrace) (readCase k c))
  | "with" =>
    advance
    let scope ← readCondition k c
    return .withScope scope (← k.statement c true)
  | "break" | "continue" => readJump c
  | "debugger" => advance; endStatement; return .plain
  | "export" => advance; return .declaration (← noteExports (← readExport k c))
  | "import" =>
    let next := (← peekNext).token
    if next == .punct .lparen || next == .punct .dot then readExpressionStatement k c
    else advance; return .declaration (← readImport c)
  | "let" =>
    if letIsIdentifier (← peekNext).token alone then readExpressionStatement k c
    else readDeclared k c alone .let
  | _ =>
    if ← atAsyncFunction then return ← readFunctionStatement k c alone
    if let some kind ← atResource then return ← readDeclared k c alone kind
    readExpressionStatement k c

/-- Reads a statement; `alone` if it is the whole body of another one. -/
def readStatement (k : Rules) (c : Place) (alone : Bool) : Reader Statement := do
  let c := { c with allowsIn := true, inDecorator := false }
  match ← peek with
  | .punct .lbrace => return .block (← readBlock k c)
  | .punct .semicolon => advance; return .plain
  | .punct .at =>
    let decorators ← readDecorators k c
    if ← eatWord "export" then
      if ← eatWord "default" then
        return .declaration (← noteExports (.exportDefaultClass (← readClass k c decorators)))
      else
        let class_ ← readClass k c decorators
        require class_.name?.isSome
        return .declaration (← noteExports (.exportClass class_))
    require !alone
    let class_ ← readClass k c decorators
    require class_.name?.isSome
    return .classDeclaration class_
  | .word name false => readWordStatement k c alone name
  | _ => readExpressionStatement k c

end EcmaModules.Syntax
