import ShardSearch.Index.ScanStats
import ShardSearch.Stream.Head

/-!
# Scanners

A `Scanner` is a lazy source of match sets that has not been looked into.  `Scanner.pull` takes
one item out of it and turns it into the head of a stream.  Only shards above the last one are
let through, whatever the source yields.
-/

namespace ShardSearch

/-- What a source of match sets yields when it is asked. -/
inductive ScanItem where
  /-- The matches of one shard. -/
  | found (set : MatchSet)
  /-- The source broke. -/
  | failure (error : Error)
  /-- Nothing this time, although more would come later. -/
  | pause
  deriving DecidableEq, Inhabited

/-- A source of match sets under way: the items it has still to yield, the last shard that was let
    through, and a count of the sets taken out of it. -/
structure Scanner where
  coming : List ScanItem
  last : Option String
  tally : ScanStats
  deriving DecidableEq, Inhabited

namespace Scanner

/-- A source that will yield the given items and has not been asked yet. -/
def ofItems (items : List ScanItem) : Scanner := ⟨items, none, .zero⟩

/-- Takes one item out of the source.  A set is let through if its shard lies above the last one
    that was; a source that has nothing, be it for now, is at its end. -/
def pull (s : Scanner) : Head × Scanner :=
  match s.coming with
  | [] => (.ended, s)
  | .pause :: rest => (.ended, { s with coming := rest })
  | .failure e :: rest => (.failed e, { s with coming := rest })
  | .found set :: rest =>
    let s := { s with coming := rest, tally := s.tally.recordShard set }
    match s.last with
    | none => (.ready set.entry, { s with last := some set.shard })
    | some last =>
      if last < set.shard then (.ready set.entry, { s with last := some set.shard })
      else (.failed (.scannerNotAscending last set.shard), s)

end Scanner

end ShardSearch
