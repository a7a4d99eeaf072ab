import ShardSearch.Index.Scan
import ShardSearch.Query.Basic

/-!
# Leaves out of an index

Terms of fields without an index are put off, terms that no shard holds match nothing, and all
others are scanned as the stream is read.
-/

namespace ShardSearch

namespace ScanOptions

/-- What settings ask of every scan. -/
def ofConfig (c : EngineConfig) : ScanOptions := ⟨none, c.uidThreshold⟩

/-- Restricts scans to a range of days. -/
def withRange (o : ScanOptions) (r : ShardRange) : ScanOptions := { o with range := some r }

end ScanOptions

namespace ShardIndex

/-- The leaf for a term of the index, and the index with the scan counted if there is one. -/
def leafOf (o : ScanOptions) : LeafSource ShardIndex := fun id field value ix =>
  let label := PredicateTree.termText field value
  match ix.status field value with
  | .unindexed => (.ok ((Stream.unindexed (some id)).withLabel label), ix)
  | .missing => (.ok ((Stream.absent (some id)).withLabel label), ix)
  | .found =>
    let (scan, ix) := ix.openScan field value (some id) o
    (.ok ((Stream.ofScanner (some id) (.ofItems (scan.sets.map .found))).withLabel label), ix)

/-- The counts of an index after a stream over it has been read as far as it is. -/
def statsAfter {Slot : Type} (ix : ShardIndex) (s : Stream Slot) : ScanStats := ix.stats + s.tally

end ShardIndex

end ShardSearch
