/-!
# Names of predicate nodes
-/

namespace ShardSearch

/-- The name of a predicate node: its place in the tree that holds it. -/
structure NodeId where
  index : Nat
  deriving DecidableEq, Inhabited

namespace NodeId

/-- A node is shown as a hash sign and its index. -/
protected def toString (id : NodeId) : String := "#" ++ toString id.index

instance : ToString NodeId := ⟨NodeId.toString⟩

end NodeId

end ShardSearch
