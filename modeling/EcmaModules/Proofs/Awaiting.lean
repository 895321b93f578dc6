import EcmaModules.Entries
import Mathlib.Logic.Relation
import Mathlib.Tactic.Common

/-!
# Where a module awaits

A module awaits at its top level if an `await` stands anywhere in its statements, functions and the
inside of classes apart. To say this without the analysis that finds it out, the trees of all sorts are
put together in one type, and all that matters of a tree is what its parts are: an `await` stands in a
tree if it is a part of a part of it, and so on.

The analysis goes through the parts as well, but passes over some: what a declaration binds, the
parameter of a `catch`, what stands before `of` and `in`, and all of a `with`. What it finds is there
(`Node.Contains`), and it finds whatever does not stand in a part that it passes over.

## Parts that no text has

A `return` or a `yield` of the module's own statements, and a member `name = value` outside of a pattern,
are trees, but no text is read as one. They are passed over, too, and counted among the parts that are.
-/

namespace EcmaModules.Syntax

/-! ## Parts of trees -/

/-- A tree of any sort. -/
inductive Node where
  | expression (e : Expression)
  | item (i : Item)
  | member (m : Member)
  | key (k : Key)
  | classTree (c : Class)
  | classElement (e : ClassElement)
  | pattern (p : Pattern)
  | patternItem (i : PatternItem)
  | patternMember (m : PatternMember)
  | vars (v : Variables)
  | forInit (i : ForInit)
  | forTarget (t : ForTarget)
  | declaration (d : Declaration)
  | statement (s : Statement)
  | case (c : Case)

/-- The parts of an expression. -/
def Expression.parts : Expression → List Node
  | .identifier _ | .literal | .this | .super | .metaProperty | .function => []
  | .classExpression c => [.classTree c]
  | .array items => items.map .item
  | .object members => members.map .member
  | .template es | .sequence es => es.map .expression
  | .taggedTemplate tag es => .expression tag :: es.map .expression
  | .parenthesized e | .member e | .privateMember e | .privateIn e | .chain e | .unary e | .update e
  | .await e => [.expression e]
  | .yield e => e.toList.map .expression
  | .index left right | .binary left right | .assignWith left right =>
    [.expression left, .expression right]
  | .call callee items | .new callee items => .expression callee :: items.map .item
  | .importCall source options => .expression source :: options.toList.map .expression
  | .conditional test consequent alternate =>
    [.expression test, .expression consequent, .expression alternate]
  | .assign target value => [.pattern target, .expression value]

/-- The parts of a declaration. -/
def Declaration.parts : Declaration → List Node
  | .exportVariables v => [.vars v]
  | .exportClass c | .exportDefaultClass c => [.classTree c]
  | .exportDefault e => [.expression e]
  | .imports .. | .exportAll .. | .exportFrom .. | .exportNames .. | .exportFunction ..
  | .exportDefaultFunction .. => []

/-- The parts of a statement. -/
def Statement.parts : Statement → List Node
  | .function _ | .plain => []
  | .expression e | .throw e => [.expression e]
  | .vars v => [.vars v]
  | .classDeclaration c => [.classTree c]
  | .block body => body.map .statement
  | .branch test consequent alternate =>
    .expression test :: .statement consequent :: alternate.toList.map .statement
  | .forOf _ target source body | .forIn target source body =>
    [.forTarget target, .expression source, .statement body]
  | .forLoop init test update body =>
    init.toList.map .forInit ++ test.toList.map .expression ++ update.toList.map .expression
      ++ [.statement body]
  | .whileLoop e body | .doWhile body e | .withScope e body => [.expression e, .statement body]
  | .tryCatch body parameter handler finalizer =>
    parameter.toList.map .pattern ++ body.map .statement
      ++ handler.toList.flatten.map .statement ++ finalizer.toList.flatten.map .statement
  | .labeled body => [.statement body]
  | .switch e cases => .expression e :: cases.map .case
  | .returns e => e.toList.map .expression
  | .declaration d => [.declaration d]

/-- The parts of a tree. -/
def Node.parts : Node → List Node
  | .expression e => e.parts
  | .item .hole => []
  | .item (.value e) | .item (.spread e) => [.expression e]
  | .member (.property k value) => [.key k, .expression value]
  | .member (.shorthand _) => []
  | .member (.shorthandDefault _ e) | .member (.spread e) => [.expression e]
  | .member (.method k) => [.key k]
  | .key .named => []
  | .key (.computed e) => [.expression e]
  | .classTree (.mk decorators _ heritage elements) =>
    decorators.map .expression ++ heritage.toList.map .expression ++ elements.map .classElement
  | .classElement (.member decorators k) => .key k :: decorators.map .expression
  | .classElement .staticBlock => []
  | .pattern (.leaf e) => [.expression e]
  | .pattern (.array items) => items.map .patternItem
  | .pattern (.object members) => members.map .patternMember
  | .patternItem .hole => []
  | .patternItem (.element p default) => .pattern p :: default.toList.map .expression
  | .patternItem (.rest p) | .patternMember (.rest p) => [.pattern p]
  | .patternMember (.property k p default) =>
    .key k :: .pattern p :: default.toList.map .expression
  | .vars v =>
    v.declarators.flatMap fun d ↦ .pattern d.target :: d.initializer.toList.map .expression
  | .forInit (.vars v) | .forTarget (.vars v) => [.vars v]
  | .forInit (.expression e) => [.expression e]
  | .forTarget (.pattern p) => [.pattern p]
  | .declaration d => d.parts
  | .statement s => s.parts
  | .case (.mk test body) => test.toList.map .expression ++ body.map .statement

namespace Node

/-- The tree itself is what awaits: an `await`, a `for await`, or a declaration with `await using`. -/
def IsAwait : Node → Prop
  | .expression (.await _) => True
  | .statement (.forOf awaits _ _ _) => awaits = true
  | .vars v => v.kind = .awaitUsing
  | _ => False

/-- The second tree is the first one, or a part of a part of it, and so on. -/
abbrev Contains : Node → Node → Prop := Relation.ReflTransGen fun n p ↦ p ∈ n.parts

/-- The part of the tree is passed over. -/
def passesOver : Node → Node → Bool
  | .vars _, .pattern _ => true
  | .statement (.tryCatch ..), .pattern _ => true
  | .statement _, .forTarget _ => true
  | .statement (.withScope ..), _ | .statement (.returns _), _ => true
  | .expression (.yield _), _ | .member (.shorthandDefault ..), _ => true
  | _, _ => false

/-- The second tree is found from the first one, part by part. -/
abbrev Sees : Node → Node → Prop :=
  Relation.ReflTransGen fun n p ↦ p ∈ n.parts ∧ n.passesOver p = false

theorem Sees.contains {n p : Node} (h : n.Sees p) : n.Contains p :=
  Relation.ReflTransGen.mono (fun _ _ hp ↦ hp.1) _ _ h

/-- A part is smaller than the whole. -/
theorem sizeOf_lt_of_mem_parts {n p : Node} (h : p ∈ n.parts) : sizeOf p < sizeOf n := by
  cases n with
  | expression e =>
    cases e <;> simp [parts, Expression.parts] at h <;> grind [→ List.sizeOf_lt_of_mem]
  | item i => cases i <;> simp [parts] at h <;> grind [→ List.sizeOf_lt_of_mem]
  | member m => cases m <;> simp [parts] at h <;> grind [→ List.sizeOf_lt_of_mem]
  | key k => cases k <;> simp [parts] at h <;> grind [→ List.sizeOf_lt_of_mem]
  | classTree c => cases c <;> simp [parts] at h <;> grind [→ List.sizeOf_lt_of_mem]
  | classElement e => cases e <;> simp [parts] at h <;> grind [→ List.sizeOf_lt_of_mem]
  | pattern p => cases p <;> simp [parts] at h <;> grind [→ List.sizeOf_lt_of_mem]
  | patternItem i => cases i <;> simp [parts] at h <;> grind [→ List.sizeOf_lt_of_mem]
  | patternMember m => cases m <;> simp [parts] at h <;> grind [→ List.sizeOf_lt_of_mem]
  | vars v =>
    obtain ⟨kind, ds⟩ := v
    simp only [parts, List.mem_flatMap] at h
    obtain ⟨⟨target, initializer⟩, hd, h⟩ := h
    have hlt := List.sizeOf_lt_of_mem hd
    simp at h hlt
    grind
  | forInit i => cases i <;> simp [parts] at h <;> grind [→ List.sizeOf_lt_of_mem]
  | forTarget t => cases t <;> simp [parts] at h <;> grind [→ List.sizeOf_lt_of_mem]
  | declaration d => cases d <;> simp [parts, Declaration.parts] at h <;> grind [→ List.sizeOf_lt_of_mem]
  | statement s => cases s <;> simp [parts, Statement.parts] at h <;> grind [→ List.sizeOf_lt_of_mem]
  | case c => cases c <;> simp [parts] at h <;> grind [→ List.sizeOf_lt_of_mem]

/-- The analysis, of a tree of any sort. -/
def awaits : Node → Bool
  | .expression e => e.awaits
  | .item i => i.awaits
  | .member m => m.awaits
  | .key k => k.awaits
  | .classTree c => c.awaits
  | .classElement e => e.awaits
  | .pattern p => p.awaits
  | .patternItem i => i.awaits
  | .patternMember m => m.awaits
  | .vars v => v.awaits
  | .forInit i => i.awaits
  | .forTarget (.vars v) => v.awaits
  | .forTarget (.pattern p) => p.awaits
  | .declaration d => d.awaits
  | .statement s => s.awaits
  | .case c => c.awaits

end Node

/-! ## The analysis of lists -/

@[simp]
theorem expressionsAwait_eq (es : List Expression) : expressionsAwait es = es.any (·.awaits) := by
  induction es with
  | nil => rfl
  | cons e es ih => simp [expressionsAwait, ih]

@[simp]
theorem optionAwaits_eq (e : Option Expression) :
    optionAwaits e = e.toList.any (·.awaits) := by
  cases e <;> simp [optionAwaits]

@[simp]
theorem itemsAwait_eq (is : List Item) : itemsAwait is = is.any (·.awaits) := by
  induction is with
  | nil => rfl
  | cons i is ih => simp [itemsAwait, ih]

@[simp]
theorem membersAwait_eq (ms : List Member) : membersAwait ms = ms.any (·.awaits) := by
  induction ms with
  | nil => rfl
  | cons m ms ih => simp [membersAwait, ih]

@[simp]
theorem elementsAwait_eq (es : List ClassElement) : elementsAwait es = es.any (·.awaits) := by
  induction es with
  | nil => rfl
  | cons e es ih => simp [elementsAwait, ih]

@[simp]
theorem patternItemsAwait_eq (is : List PatternItem) :
    patternItemsAwait is = is.any (·.awaits) := by
  induction is with
  | nil => rfl
  | cons i is ih => simp [patternItemsAwait, ih]

@[simp]
theorem patternMembersAwait_eq (ms : List PatternMember) :
    patternMembersAwait ms = ms.any (·.awaits) := by
  induction ms with
  | nil => rfl
  | cons m ms ih => simp [patternMembersAwait, ih]

@[simp]
theorem statementsAwait_eq (ss : List Statement) : statementsAwait ss = ss.any (·.awaits) := by
  induction ss with
  | nil => rfl
  | cons s ss ih => simp [statementsAwait, ih]

@[simp]
theorem optionStatementAwaits_eq (s : Option Statement) :
    optionStatementAwaits s = s.toList.any (·.awaits) := by
  cases s <;> simp [optionStatementAwaits]

@[simp]
theorem blockAwaits_eq (body : Option (List Statement)) :
    blockAwaits body = body.toList.flatten.any (·.awaits) := by
  cases body <;> simp [blockAwaits]

@[simp]
theorem casesAwait_eq (cs : List Case) : casesAwait cs = cs.any (·.awaits) := by
  induction cs with
  | nil => rfl
  | cons c cs ih => simp [casesAwait, ih]

namespace Node

section

attribute [local simp] awaits parts passesOver IsAwait Function.comp_def or_assoc List.any_flatMap
  Expression.parts Declaration.parts Statement.parts Expression.awaits Item.awaits Member.awaits
  Key.awaits Class.awaits ClassElement.awaits Pattern.awaits PatternItem.awaits
  PatternMember.awaits Variables.awaits ForInit.awaits Declaration.awaits Statement.awaits
  Case.awaits

attribute [-simp] List.any_eq_true

/-- One step of the analysis: a tree awaits by itself, or by one of the parts that are not passed
over. -/
theorem awaits_iff_any (n : Node) :
    n.awaits = true ↔ n.IsAwait ∨ n.parts.any (fun p ↦ !n.passesOver p && p.awaits) = true := by
  cases n with
  | expression e => cases e <;> simp
  | item i => cases i <;> simp
  | member m => cases m <;> simp
  | key k => cases k <;> simp
  | classTree c => cases c; simp
  | classElement e => cases e <;> simp
  | pattern p => cases p <;> simp
  | patternItem i => cases i <;> simp
  | patternMember m => cases m <;> simp
  | vars v => simp
  | forInit i => cases i <;> simp
  | forTarget t => cases t <;> simp
  | declaration d => cases d <;> simp
  | statement s =>
    cases s with
    | tryCatch body parameter handler finalizer => cases parameter <;> simp
    | forLoop init test update body => cases init <;> simp
    | _ => simp
  | case c => cases c; simp

end

/-- The analysis finds an `await` in a tree just if one can be reached without passing over a part. -/
theorem awaits_iff_sees (n : Node) : n.awaits = true ↔ ∃ p, n.Sees p ∧ p.IsAwait := by
  rw [awaits_iff_any, List.any_eq_true]
  constructor
  · rintro (h | ⟨p, hp, h⟩)
    · exact ⟨n, .refl, h⟩
    · obtain ⟨hpass, hawaits⟩ : n.passesOver p = false ∧ p.awaits = true := by simpa using h
      have := sizeOf_lt_of_mem_parts hp
      obtain ⟨q, hq, hq'⟩ := p.awaits_iff_sees.1 hawaits
      exact ⟨q, .head ⟨hp, hpass⟩ hq, hq'⟩
  · rintro ⟨q, hq, hq'⟩
    obtain rfl | ⟨p, ⟨hp, hpass⟩, hsees⟩ := hq.cases_head
    · exact .inl hq'
    · have := sizeOf_lt_of_mem_parts hp
      exact .inr ⟨p, hp, by simp [hpass, p.awaits_iff_sees.2 ⟨q, hsees, hq'⟩]⟩
termination_by sizeOf n

/-- An `await` stands in a part of the tree that is passed over, or in such a part of a part, and so
on. -/
def Overlooks (n : Node) : Prop :=
  ∃ m p, n.Contains m ∧ p ∈ m.parts ∧ m.passesOver p = true ∧ ∃ q, p.Contains q ∧ q.IsAwait

theorem Contains.sees_or_overlooks {n q : Node} (h : n.Contains q) (hq : q.IsAwait) :
    n.Sees q ∨ n.Overlooks := by
  induction h using Relation.ReflTransGen.head_induction_on with
  | refl => exact .inl .refl
  | @head n p hp h ih =>
    cases hpass : n.passesOver p with
    | true => exact .inr ⟨n, p, .refl, hp, hpass, q, h, hq⟩
    | false =>
      rcases ih with hsees | ⟨m, r, hm, hr⟩
      · exact .inl (.head ⟨hp, hpass⟩ hsees)
      · exact .inr ⟨m, r, .head hp hm, hr⟩

end Node

/-- An `await` stands in one of the statements. -/
def AwaitWithin (body : List Statement) : Prop :=
  ∃ s ∈ body, ∃ p, (Node.statement s).Contains p ∧ p.IsAwait

end EcmaModules.Syntax

namespace EcmaModules

open Syntax

/-- A module that is found to await has an `await` in its statements, and a module that has one is
found to await unless there is one in a part that is passed over. -/
theorem await_found_iff_within {deferring : Bool} {text : String} {e : Entries}
    (h : Entries.ofText? deferring text = some e) :
    ∃ body, parse? text = some body ∧ (e.awaits = true → AwaitWithin body) ∧
      ((∀ s ∈ body, ¬(Node.statement s).Overlooks) → AwaitWithin body → e.awaits = true) := by
  obtain ⟨body, hbody, rfl⟩ := Option.map_eq_some_iff.1 h
  have hawaits : (Entries.ofBody deferring body).awaits = true ↔
      ∃ s ∈ body, ∃ p, (Node.statement s).Sees p ∧ p.IsAwait := by
    simp [Entries.ofBody, ← Node.awaits_iff_sees, Node.awaits]
  refine ⟨body, hbody, fun hfound ↦ ?_, fun hseen ⟨s, hs, p, hp, hp'⟩ ↦ ?_⟩
  · obtain ⟨s, hs, p, hp, hp'⟩ := hawaits.1 hfound
    exact ⟨s, hs, p, hp.contains, hp'⟩
  · have hsees := (hp.sees_or_overlooks hp').resolve_right (hseen s hs)
    exact hawaits.2 ⟨s, hs, p, hsees, hp'⟩

/-- The computed key of a class is evaluated with the statements, and found wherever the class is. -/
theorem await_found_iff_within_computed_key :
    ∃ e, Entries.ofText? true "class C { [await k] = 1 }" = some e ∧ e.awaits = true ∧
      ∃ body, parse? "class C { [await k] = 1 }" = some body ∧ AwaitWithin body := by
  let element : ClassElement := .member [] (.computed (.await (.identifier "k")))
  let declared : Statement := .classDeclaration (.mk [] (some "C") none [element])
  have hparse : parse? "class C { [await k] = 1 }" = some [declared] := by rfl
  have he := congrArg (Option.map (Entries.ofBody true)) hparse
  have hawaits : (Entries.ofBody true [declared]).awaits = true := by rfl
  obtain ⟨body, hbody, hwithin, -⟩ := await_found_iff_within he
  exact ⟨_, he, hawaits, body, hbody, hwithin hawaits⟩

/-- The default of a pattern that a declaration binds is passed over. -/
theorem await_missed_in_declared_pattern :
    ∃ e body, Entries.ofText? true "const {a = await b} = c;" = some e ∧
      parse? "const {a = await b} = c;" = some body ∧ AwaitWithin body ∧ e.awaits = false := by
  let default : Expression := .await (.identifier "b")
  let member : PatternMember := .property .named (.leaf (.identifier "a")) (some default)
  let declared : Variables := ⟨.const, [⟨.object [member], some (.identifier "c")⟩]⟩
  have hparse : parse? "const {a = await b} = c;" = some [.vars declared] := by rfl
  have hmember : (Node.patternMember member).Contains (.expression default) :=
    .single (by simp [Node.parts, member])
  have hdeclared : (Node.statement (.vars declared)).Contains (.patternMember member) :=
    .trans (.single (b := .vars declared) (by simp [Node.parts, Statement.parts]))
      (.trans (.single (b := .pattern (.object [member])) (by simp [Node.parts, declared]))
        (.single (by simp [Node.parts])))
  exact ⟨_, _, congrArg (Option.map (Entries.ofBody true)) hparse, hparse,
    ⟨_, by simp, _, hdeclared.trans hmember, trivial⟩, rfl⟩

end EcmaModules
