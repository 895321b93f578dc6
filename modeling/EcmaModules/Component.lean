import EcmaModules.Store

/-!
# Components of the graph

Modules that request each other in a circle are linked together and evaluated together. The walks
that do this find such components by Tarjan's algorithm: they go depth first along the requests,
give each module the point at which they came to it, and let each module know the earliest point
that it leads back to. A module that leads back to no earlier one is the root of its component.
-/

namespace EcmaModules.Store

/-- Gives a module the point at which a walk came to it. -/
def setDfsIndex (s : Store) (m : ModuleId) (index : Nat) : Store :=
  s.modifySource m fun r ↦ { r with dfsIndex := index, dfsAncestorIndex := index }

/-- Lets a module know an earlier point that it leads back to. -/
def lowerAncestor (s : Store) (m : ModuleId) (index : Nat) : Store :=
  s.modifySource m fun r ↦ { r with dfsAncestorIndex := min r.dfsAncestorIndex index }

/-- The module leads back to no earlier one. -/
def isComponentRoot (s : Store) (m : ModuleId) : Bool :=
  (s.source? m).any fun r ↦ r.dfsAncestorIndex == r.dfsIndex

end EcmaModules.Store
