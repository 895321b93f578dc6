import EcmaModules.Syntax.Tree

/-!
# Top-level await

Whether evaluating a module's own statements waits for something: an `await` expression, a
`for await` loop, or a declaration with `await using`. Functions are leaves of the tree, so nothing
inside them counts; of a class only the decorators, the heritage and the computed keys are looked
at.

Some places are evaluated with the module's statements and still not looked at: the keys and the
defaults of the pattern that a declaration binds, the parameter of a `catch`, what stands before
`of` and `in` in the head of a loop, and the body of `with`. An `await` there does not make a module
asynchronous.
-/

namespace EcmaModules.Syntax

/-! ## Expressions -/

mutual

/-- Evaluating the expression awaits. -/
def Expression.awaits : Expression → Bool
  | .await _ => true
  | .classExpression c => c.awaits
  | .array items => itemsAwait items
  | .object members => membersAwait members
  | .template parts => expressionsAwait parts
  | .taggedTemplate tag parts => tag.awaits || expressionsAwait parts
  | .parenthesized e => e.awaits
  | .member base => base.awaits
  | .index base key => base.awaits || key.awaits
  | .privateMember base => base.awaits
  | .privateIn base => base.awaits
  | .chain e => e.awaits
  | .call callee arguments => callee.awaits || itemsAwait arguments
  | .new callee arguments => callee.awaits || itemsAwait arguments
  | .importCall source options => source.awaits || optionAwaits options
  | .unary e => e.awaits
  | .update target => target.awaits
  | .binary left right => left.awaits || right.awaits
  | .conditional test consequent alternate =>
    test.awaits || consequent.awaits || alternate.awaits
  | .assign target value => target.awaits || value.awaits
  | .assignWith target value => target.awaits || value.awaits
  | .sequence es => expressionsAwait es
  | .identifier _ | .literal | .this | .super | .metaProperty | .function | .yield _ => false

/-- One of the expressions awaits. -/
def expressionsAwait : List Expression → Bool
  | [] => false
  | e :: es => e.awaits || expressionsAwait es

/-- There is an expression, and it awaits. -/
def optionAwaits : Option Expression → Bool
  | none => false
  | some e => e.awaits

/-- One of the elements or arguments awaits. -/
def itemsAwait : List Item → Bool
  | [] => false
  | i :: is => i.awaits || itemsAwait is

/-- The element or argument awaits. -/
def Item.awaits : Item → Bool
  | .hole => false
  | .value e => e.awaits
  | .spread e => e.awaits

/-- One of the members of an object awaits. -/
def membersAwait : List Member → Bool
  | [] => false
  | m :: ms => m.awaits || membersAwait ms

/-- The member of an object awaits. -/
def Member.awaits : Member → Bool
  | .property key value => key.awaits || value.awaits
  | .shorthand _ => false
  | .shorthandDefault _ _ => false
  | .method key => key.awaits
  | .spread e => e.awaits

/-- The key is computed, and that awaits. -/
def Key.awaits : Key → Bool
  | .named => false
  | .computed e => e.awaits

/-- The decorators, the heritage or a computed key of the class await. -/
def Class.awaits : Class → Bool
  | .mk decorators _ heritage elements =>
    expressionsAwait decorators || optionAwaits heritage || elementsAwait elements

/-- One of the elements of a class awaits. -/
def elementsAwait : List ClassElement → Bool
  | [] => false
  | e :: es => e.awaits || elementsAwait es

/-- The computed key or a decorator of the element awaits. -/
def ClassElement.awaits : ClassElement → Bool
  | .member decorators key => key.awaits || expressionsAwait decorators
  | .staticBlock => false

/-- Evaluating the target of an assignment awaits. -/
def Pattern.awaits : Pattern → Bool
  | .leaf e => e.awaits
  | .array items => patternItemsAwait items
  | .object members => patternMembersAwait members

/-- One of the elements of an array pattern awaits. -/
def patternItemsAwait : List PatternItem → Bool
  | [] => false
  | i :: is => i.awaits || patternItemsAwait is

/-- The element of an array pattern awaits. -/
def PatternItem.awaits : PatternItem → Bool
  | .hole => false
  | .element p default => p.awaits || optionAwaits default
  | .rest p => p.awaits

/-- One of the members of an object pattern awaits. -/
def patternMembersAwait : List PatternMember → Bool
  | [] => false
  | m :: ms => m.awaits || patternMembersAwait ms

/-- The member of an object pattern awaits. -/
def PatternMember.awaits : PatternMember → Bool
  | .property key p default => key.awaits || p.awaits || optionAwaits default
  | .rest p => p.awaits

end

/-! ## Declarations -/

/-- The declaration of variables awaits: an initializer does, or a resource that is declared has to
be disposed of asynchronously. The patterns are not looked at. -/
def Variables.awaits (v : Variables) : Bool :=
  v.kind == .awaitUsing || v.declarators.any fun d ↦ optionAwaits d.initializer

/-- What a `for` statement does before its loop awaits. -/
def ForInit.awaits : ForInit → Bool
  | .vars v => v.awaits
  | .expression e => e.awaits

/-- The declaration is exported, and evaluating it awaits. -/
def Declaration.awaits : Declaration → Bool
  | .exportVariables v => v.awaits
  | .exportClass c => c.awaits
  | .exportDefault e => e.awaits
  | .exportDefaultClass c => c.awaits
  | .imports .. | .exportAll .. | .exportFrom .. | .exportNames .. | .exportFunction ..
  | .exportDefaultFunction .. => false

/-! ## Statements -/

mutual

/-- Evaluating the statement awaits. -/
def Statement.awaits : Statement → Bool
  | .expression e => e.awaits
  | .vars v => v.awaits
  | .classDeclaration c => c.awaits
  | .block body => statementsAwait body
  | .branch test consequent alternate =>
    test.awaits || consequent.awaits || optionStatementAwaits alternate
  | .forOf awaits _ source body => awaits || source.awaits || body.awaits
  | .forIn _ source body => source.awaits || body.awaits
  | .forLoop init test update body =>
    init.any (·.awaits) || optionAwaits test || optionAwaits update || body.awaits
  | .whileLoop test body => test.awaits || body.awaits
  | .doWhile body test => test.awaits || body.awaits
  | .throw e => e.awaits
  | .tryCatch body _ handler finalizer =>
    statementsAwait body || blockAwaits handler || blockAwaits finalizer
  | .labeled body => body.awaits
  | .switch discriminant cases => discriminant.awaits || casesAwait cases
  | .declaration d => d.awaits
  | .function _ | .returns _ | .withScope .. | .plain => false

/-- One of the statements awaits. -/
def statementsAwait : List Statement → Bool
  | [] => false
  | s :: ss => s.awaits || statementsAwait ss

/-- There is a statement, and it awaits. -/
def optionStatementAwaits : Option Statement → Bool
  | none => false
  | some s => s.awaits

/-- There is a block, and one of its statements awaits. -/
def blockAwaits : Option (List Statement) → Bool
  | none => false
  | some body => statementsAwait body

/-- One of the cases awaits. -/
def casesAwait : List Case → Bool
  | [] => false
  | c :: cs => c.awaits || casesAwait cs

/-- The test of the case or one of its statements awaits. -/
def Case.awaits : Case → Bool
  | .mk test body => optionAwaits test || statementsAwait body

end

end EcmaModules.Syntax
