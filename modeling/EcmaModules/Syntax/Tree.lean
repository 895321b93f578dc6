import EcmaModules.Request

/-!
# Syntax trees

The tree of a module keeps what the analysis of modules reads: the names that are declared,
imported and exported, the requests, and the shape of the expressions that are evaluated as part of
the module's own statements. Operators, the values of literals and the names of members are not
kept.

The inside of a function is not kept either, nor are the initializers of class fields and static
blocks: nothing in them is evaluated by the module's own statements. So a function, whatever its
kind, is a leaf, and an element of a class is just its decorators and its key.

One type of patterns serves declarations and assignments. In a declaration the leaves are
identifiers; in an assignment they may be members as well.
-/

namespace EcmaModules.Syntax

mutual

/-- An expression. -/
inductive Expression where
  | identifier (name : String)
  /-- A number, a string, a regular expression, `true`, `false` or `null`. -/
  | literal
  | this
  | super
  /-- `import.meta` and `new.target`. -/
  | metaProperty
  /-- A function, arrow functions included. -/
  | function
  | classExpression (c : Class)
  | array (items : List Item)
  | object (members : List Member)
  /-- A template, by the expressions in it. -/
  | template (parts : List Expression)
  | taggedTemplate (tag : Expression) (parts : List Expression)
  | parenthesized (e : Expression)
  /-- `base.name` -/
  | member (base : Expression)
  /-- `base[key]` -/
  | index (base key : Expression)
  /-- `base.#name` -/
  | privateMember (base : Expression)
  /-- `#name in base` -/
  | privateIn (base : Expression)
  /-- A chain of members and calls with a `?.` in it. -/
  | chain (e : Expression)
  | call (callee : Expression) (arguments : List Item)
  | new (callee : Expression) (arguments : List Item)
  /-- `import(source, options)` -/
  | importCall (source : Expression) (options : Option Expression)
  | await (e : Expression)
  | yield (e : Option Expression)
  | unary (e : Expression)
  /-- `++` or `--`, on either side. -/
  | update (target : Expression)
  | binary (left right : Expression)
  | conditional (test consequent alternate : Expression)
  | assign (target : Pattern) (value : Expression)
  /-- An assignment with an operator, `target += value`. -/
  | assignWith (target value : Expression)
  | sequence (es : List Expression)

/-- An element of an array or an argument of a call. -/
inductive Item where
  /-- A place in an array without an element. -/
  | hole
  | value (e : Expression)
  | spread (e : Expression)

/-- A member of an object expression. -/
inductive Member where
  | property (key : Key) (value : Expression)
  | shorthand (name : String)
  /-- `name = value`, which only a pattern can hold. -/
  | shorthandDefault (name : String) (value : Expression)
  | method (key : Key)
  | spread (e : Expression)

/-- The key of a member. -/
inductive Key where
  | named
  | computed (e : Expression)

/-- A class. -/
inductive Class where
  | mk (decorators : List Expression) (name : Option String) (heritage : Option Expression)
      (elements : List ClassElement)

/-- An element of a class. -/
inductive ClassElement where
  /-- A method, an accessor or a field. -/
  | member (decorators : List Expression) (key : Key)
  | staticBlock

/-- The target of a declaration or an assignment. -/
inductive Pattern where
  | leaf (e : Expression)
  | array (items : List PatternItem)
  | object (members : List PatternMember)

/-- An element of an array pattern. -/
inductive PatternItem where
  | hole
  | element (p : Pattern) (default : Option Expression)
  | rest (p : Pattern)

/-- A member of an object pattern. -/
inductive PatternMember where
  | property (key : Key) (p : Pattern) (default : Option Expression)
  | rest (p : Pattern)

end

instance : Inhabited Expression := ⟨.literal⟩
instance : Inhabited Pattern := ⟨.leaf .literal⟩
instance : Inhabited Class := ⟨.mk [] none none []⟩

/-- The name of a class. -/
def Class.name? : Class → Option String
  | .mk _ name _ _ => name

/-- How a variable is declared. -/
inductive VariableKind where
  | var | let | const | using | awaitUsing
deriving Repr, DecidableEq, Inhabited

/-- A declared variable or pattern with its initializer. -/
structure Declarator where
  target : Pattern
  initializer : Option Expression
deriving Inhabited

/-- A declaration of variables. -/
structure Variables where
  kind : VariableKind
  declarators : List Declarator
deriving Inhabited

/-- A name that is imported, with the name it gets; `none` for the namespace. -/
structure ImportSpecifier where
  imported : Option String
  name : String
deriving Repr, DecidableEq, Inhabited

/-- A name that is exported under another one. -/
structure ExportSpecifier where
  name : String
  exported : String
deriving Repr, DecidableEq, Inhabited

/-- An import or export declaration. The attributes of its request keep their order in the text. -/
inductive Declaration where
  | imports (specifiers : List ImportSpecifier) (request : Request)
  /-- `export * from` and `export * as name from` -/
  | exportAll (exported : Option String) (request : Request)
  /-- `export { … } from` -/
  | exportFrom (specifiers : List ExportSpecifier) (request : Request)
  /-- `export { … }` -/
  | exportNames (specifiers : List ExportSpecifier)
  | exportVariables (v : Variables)
  | exportFunction (name : String)
  | exportClass (c : Class)
  | exportDefault (e : Expression)
  | exportDefaultFunction (name : Option String)
  | exportDefaultClass (c : Class)
deriving Inhabited

/-- What a `for` statement declares or evaluates before its loop. -/
inductive ForInit where
  | vars (v : Variables)
  | expression (e : Expression)

/-- What a `for … of` or `for … in` statement binds in each round. -/
inductive ForTarget where
  | vars (v : Variables)
  | pattern (p : Pattern)

mutual

/-- A statement. -/
inductive Statement where
  | expression (e : Expression)
  | vars (v : Variables)
  | function (name : String)
  | classDeclaration (c : Class)
  | block (body : List Statement)
  | branch (test : Expression) (consequent : Statement) (alternate : Option Statement)
  /-- `for (target of source)`, or `for await (target of source)`. -/
  | forOf (awaits : Bool) (target : ForTarget) (source : Expression) (body : Statement)
  | forIn (target : ForTarget) (source : Expression) (body : Statement)
  | forLoop (init : Option ForInit) (test update : Option Expression) (body : Statement)
  | whileLoop (test : Expression) (body : Statement)
  | doWhile (body : Statement) (test : Expression)
  | throw (e : Expression)
  /-- `try`: the block, the parameter and the block of `catch`, the block of `finally`. -/
  | tryCatch (body : List Statement) (parameter : Option Pattern)
      (handler : Option (List Statement)) (finalizer : Option (List Statement))
  | labeled (body : Statement)
  | switch (discriminant : Expression) (cases : List Case)
  | returns (e : Option Expression)
  | withScope (object : Expression) (body : Statement)
  /-- An empty statement, `break`, `continue` and `debugger`. -/
  | plain
  /-- An import or export declaration. -/
  | declaration (d : Declaration)

/-- A `case` or the `default` of a `switch`. -/
inductive Case where
  | mk (test : Option Expression) (body : List Statement)

end

instance : Inhabited Statement := ⟨.plain⟩

end EcmaModules.Syntax
