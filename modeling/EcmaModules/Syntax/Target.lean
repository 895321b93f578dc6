import EcmaModules.Syntax.Tree

/-!
# Expressions read as targets

The left side of an assignment is read as an expression first; only the `=` after it tells that it
is a target. `Expression.simpleTarget?` and `Expression.toPattern?` turn the expression into the
target that it spells, if it spells one.

A member `name = value` of an object makes sense in a target only. `Expression.openDefaults` counts
those that become part of the target, so that the reader knows when one is left over.
-/

namespace EcmaModules.Syntax

/-- The identifier or member that can be assigned to. Parentheses around it do not matter. -/
def Expression.simpleTarget? : Expression → Option Expression
  | .identifier name => some (.identifier name)
  | .member base => some (.member base)
  | .index base key => some (.index base key)
  | .privateMember base => some (.privateMember base)
  | .parenthesized e => e.simpleTarget?
  | _ => none

mutual

/-- The pattern that the expression spells. A spread has to come last. -/
def Expression.toPattern? : Expression → Option Pattern
  | .array items => (itemsToPattern? items).map .array
  | .object members => (membersToPattern? members).map .object
  | e => e.simpleTarget?.map .leaf

/-- The elements of an array pattern. -/
def itemsToPattern? : List Item → Option (List PatternItem)
  | [] => some []
  | .hole :: r => (itemsToPattern? r).map (.hole :: ·)
  | .value (.assign p default) :: r => (itemsToPattern? r).map (.element p (some default) :: ·)
  | .value e :: r =>
    match e.toPattern?, itemsToPattern? r with
    | some p, some r => some (.element p none :: r)
    | _, _ => none
  | [.spread e] => e.toPattern?.map fun p ↦ [.rest p]
  | .spread _ :: _ :: _ => none

/-- The members of an object pattern. -/
def membersToPattern? : List Member → Option (List PatternMember)
  | [] => some []
  | .property key (.assign p default) :: r =>
    (membersToPattern? r).map (.property key p (some default) :: ·)
  | .property key e :: r =>
    match e.toPattern?, membersToPattern? r with
    | some p, some r => some (.property key p none :: r)
    | _, _ => none
  | .shorthand name :: r =>
    (membersToPattern? r).map (.property .named (.leaf (.identifier name)) none :: ·)
  | .shorthandDefault name default :: r =>
    (membersToPattern? r).map (.property .named (.leaf (.identifier name)) (some default) :: ·)
  | .method _ :: _ => none
  | [.spread e] => e.toPattern?.map fun p ↦ [.rest p]
  | .spread _ :: _ :: _ => none

end

mutual

/-- The number of members `name = value` that become part of the pattern. -/
def Expression.openDefaults : Expression → Nat
  | .array items => itemsOpenDefaults items
  | .object members => membersOpenDefaults members
  | _ => 0

/-- The same for the elements of an array. -/
def itemsOpenDefaults : List Item → Nat
  | [] => 0
  | .hole :: r => itemsOpenDefaults r
  | .value e :: r => e.openDefaults + itemsOpenDefaults r
  | .spread e :: r => e.openDefaults + itemsOpenDefaults r

/-- The same for the members of an object. -/
def membersOpenDefaults : List Member → Nat
  | [] => 0
  | .property _ e :: r => e.openDefaults + membersOpenDefaults r
  | .shorthandDefault _ _ :: r => 1 + membersOpenDefaults r
  | .shorthand _ :: r => membersOpenDefaults r
  | .method _ :: r => membersOpenDefaults r
  | .spread e :: r => e.openDefaults + membersOpenDefaults r

end

end EcmaModules.Syntax
