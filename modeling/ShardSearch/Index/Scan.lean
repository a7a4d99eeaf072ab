import ShardSearch.Index.Basic
import ShardSearch.ShardRange

/-!
# Scans of one term

A `TermScan` hands out, one at a time and in order, a match set for every shard that holds a term
and lies in the range asked for.  A shard with more uids than the threshold comes as an infinite
set.  `TermScan.sets` lists what a scan has still to hand out, and `TermScan.next` hands out the
first of these (`sets_next`).
-/

namespace ShardSearch

/-- What is asked of a scan besides its term. -/
structure ScanOptions where
  /-- The days to which the scan is restricted. -/
  range : Option ShardRange
  /-- The number of uids above which a shard is not enumerated. -/
  uidThreshold : Option Nat
  deriving DecidableEq

namespace ScanOptions

/-- Every shard, fully enumerated. -/
def unrestricted : ScanOptions := ⟨none, none⟩

/-- Whether shards from here on need not be looked at. -/
def isPastEnd (o : ScanOptions) (shard : String) : Bool := o.range.any (·.isPastEnd shard)

/-- Whether a shard is asked for. -/
def admits (o : ScanOptions) (shard : String) : Bool := o.range.all (·.contains shard)

/-- Whether a shard holds too many uids to be enumerated. -/
def isOverThreshold (o : ScanOptions) (posting : PostingList) : Bool :=
  o.uidThreshold.any (· < posting.size)

end ScanOptions

/-- A scan under way: the shards it has not come to, and what was asked for. -/
structure TermScan where
  coming : List (String × PostingList)
  node : Option NodeId
  options : ScanOptions

namespace TermScan

/-- The set handed out for a shard. -/
def setOf (node : Option NodeId) (o : ScanOptions) (shard : String) (posting : PostingList) :
    MatchSet :=
  if o.isOverThreshold posting then .everything shard node else .ofUids shard node posting.uids

/-- The sets handed out for the given shards, up to the first one past the end. -/
def setsOf (node : Option NodeId) (o : ScanOptions) : List (String × PostingList) → List MatchSet
  | [] => []
  | (shard, posting) :: rest =>
    if o.isPastEnd shard then []
    else if o.admits shard then setOf node o shard posting :: setsOf node o rest
    else setsOf node o rest

/-- All sets a scan has still to hand out. -/
def sets (s : TermScan) : List MatchSet := setsOf s.node s.options s.coming

/-- Passes over the shards that are not asked for.  At the first shard past the end nothing is
    left to come. -/
def advance (o : ScanOptions) : List (String × PostingList) → List (String × PostingList)
  | [] => []
  | (shard, posting) :: rest =>
    if o.isPastEnd shard then []
    else if o.admits shard then (shard, posting) :: rest
    else advance o rest

/-- Hands out the next set, or none when the scan has ended. -/
def next (s : TermScan) : Option MatchSet × TermScan :=
  match advance s.options s.coming with
  | [] => (none, { s with coming := [] })
  | (shard, posting) :: rest =>
    (some (setOf s.node s.options shard posting), { s with coming := rest })

/-- What is handed out is the first of the sets to come, and the others are still to come. -/
theorem sets_next (s : TermScan) : s.sets = s.next.1.toList ++ s.next.2.sets := by
  obtain ⟨coming, node, o⟩ := s
  simp only [sets, next]
  induction coming with
  | nil => rfl
  | cons e rest ih =>
    obtain ⟨shard, posting⟩ := e
    simp only [setsOf, advance]
    split
    · rfl
    · split
      · rfl
      · exact ih

end TermScan

namespace ShardIndex

/-- Starts a scan of a term, crediting its matches to `node`.  A restricted scan starts at the
    first shard that is not before the range. -/
def openScan (ix : ShardIndex) (field value : String) (node : Option NodeId) (o : ScanOptions) :
    TermScan × ShardIndex :=
  let shards := (ix.shardsOf field value).entries
  let coming := match o.range with
    | some r => shards.dropWhile (fun e => e.1 < r.first)
    | none => shards
  (⟨coming, node, o⟩, { ix with stats := ix.stats.recordScan })

/-- Takes the next set out of a scan and counts it. -/
def pull (ix : ShardIndex) (s : TermScan) : Option MatchSet × TermScan × ShardIndex :=
  match s.next with
  | (some set, s) => (some set, s, { ix with stats := ix.stats.recordShard set })
  | (none, s) => (none, s, ix)

/-- Takes up to `n` sets out of a scan, fewer if it ends before. -/
def pullMany (ix : ShardIndex) (s : TermScan) : (n : Nat) → List MatchSet × ShardIndex
  | 0 => ([], ix)
  | n + 1 =>
    match ix.pull s with
    | (some set, s, ix) =>
      let (sets, ix) := ix.pullMany s n
      (set :: sets, ix)
    | (none, _, ix) => ([], ix)

/-- Scans a term for the first `limit` sets, or for all without a limit. -/
def scan (ix : ShardIndex) (field value : String) (node : Option NodeId) (o : ScanOptions)
    (limit : Option Nat) : List MatchSet × ShardIndex :=
  let (s, ix) := ix.openScan field value node o
  ix.pullMany s (limit.getD s.coming.length)

end ShardIndex

end ShardSearch
