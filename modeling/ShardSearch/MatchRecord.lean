import ShardSearch.NodeId

/-!
# Match records

A `MatchRecord` is one document found in a shard, with the predicate node it was found for.
Records are ordered and identified by uid alone: which node found a document does not make it a
different document.
-/

namespace ShardSearch

/-- A document uid and the predicate node the match is credited to. -/
structure MatchRecord where
  uid : String
  node : Option NodeId
  deriving DecidableEq, Inhabited

namespace MatchRecord

/-- Whether two records stand for one document. -/
def sameDocument (a b : MatchRecord) : Bool := a.uid == b.uid

/-- The order of records: the order of their uids. -/
def compare (a b : MatchRecord) : Ordering := Ord.compare a.uid b.uid

/-- The same document credited to `node`. -/
def withNode (r : MatchRecord) (node : Option NodeId) : MatchRecord := { r with node }

/-- A record is shown as its uid, followed by an at sign and the node if there is one. -/
protected def toString (r : MatchRecord) : String :=
  match r.node with
  | some node => r.uid ++ "@" ++ toString node
  | none => r.uid

instance : ToString MatchRecord := ⟨MatchRecord.toString⟩

end MatchRecord

end ShardSearch
