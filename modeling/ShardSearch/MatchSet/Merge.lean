import ShardSearch.MatchSet.Basic

/-!
# Sets of one shard, combined

What a conjunction and a disjunction make of the sets their parts found in one shard.  The sets
come in the order of the parts, and that order decides who is credited with a document: the
leftmost part that lists it.
-/

namespace ShardSearch.MatchSet

/-- The documents of `shard` that every set admits.  Infinite sets admit everything, so the
    records are those of the leftmost finite set that all other finite sets list; each is credited
    to `node`, or stays as it is if there is no node.  Without a finite set all is admitted. -/
def intersect (shard : String) (node : Option NodeId) (sets : List MatchSet) : MatchSet :=
  match sets.filter (!·.infinite) with
  | [] => everything shard (node <|> sets.head?.bind (·.node))
  | first :: others =>
    ofRecords shard (node <|> first.node)
      ((first.records.filter (fun r => others.all (·.contains r.uid))).map
        (fun r => r.withNode (node <|> r.node)))

/-- The documents of `shard` that some set admits: the records of all sets, the leftmost record
    for each uid, and everything if one of the sets is infinite. -/
def unite (shard : String) (node : Option NodeId) (sets : List MatchSet) : MatchSet :=
  { ofRecords shard (node <|> sets.head?.bind (·.node)) (sets.flatMap (·.records)) with
    infinite := sets.any (·.infinite) }

end ShardSearch.MatchSet
