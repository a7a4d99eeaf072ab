import ShardSearch.MatchSet.Basic

/-!
# What scans cost
-/

namespace ShardSearch

/-- Counts of the work done by scans of an index. -/
structure ScanStats where
  /-- Scans started. -/
  scans : Nat
  /-- Shards handed out. -/
  shards : Nat
  /-- Those of them handed out as infinite sets, for holding too many uids. -/
  overThreshold : Nat
  deriving DecidableEq, Inhabited

namespace ScanStats

/-- Nothing counted yet. -/
def zero : ScanStats := ⟨0, 0, 0⟩

instance : Add ScanStats :=
  ⟨fun a b => ⟨a.scans + b.scans, a.shards + b.shards, a.overThreshold + b.overThreshold⟩⟩

/-- Counts a scan as started. -/
def recordScan (t : ScanStats) : ScanStats := { t with scans := t.scans + 1 }

/-- Counts a set as handed out. -/
def recordShard (t : ScanStats) (set : MatchSet) : ScanStats :=
  { t with
    shards := t.shards + 1
    overThreshold := t.overThreshold + if set.infinite then 1 else 0 }

end ScanStats

end ShardSearch
