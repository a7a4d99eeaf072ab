import ShardSearch.MatchRecord
import ShardSearch.SortedMap

/-!
# Match sets

A `MatchSet` holds what one predicate matched within one shard: a record for each document found,
at most one per uid, in uid order.  An infinite set stands for every document of its shard; the
records it may carry are a sample and bound nothing.  The first record given for a uid stays.
-/

namespace ShardSearch

/-- The matches of one predicate within one shard. -/
structure MatchSet where
  shard : String
  /-- The node the set as a whole belongs to. -/
  node : Option NodeId
  /-- Whether the set stands for every document of the shard. -/
  infinite : Bool
  /-- The node each uid found is credited to. -/
  credits : SortedMap String (Option NodeId)
  deriving DecidableEq, Inhabited

namespace MatchSet

/-- The finite set without records. -/
def empty (shard : String) (node : Option NodeId) : MatchSet := ⟨shard, node, false, .empty⟩

/-- Every document of the shard, with no record listed. -/
def everything (shard : String) (node : Option NodeId) : MatchSet := ⟨shard, node, true, .empty⟩

/-- The record for `uid`. -/
def get? (s : MatchSet) (uid : String) : Option MatchRecord :=
  (s.credits.get? uid).map (MatchRecord.mk uid)

/-- Whether a record for `uid` is listed. -/
def contains (s : MatchSet) (uid : String) : Bool := s.credits.contains uid

/-- The records, in uid order. -/
def records (s : MatchSet) : List MatchRecord := s.credits.entries.map (fun e => ⟨e.1, e.2⟩)

/-- The uids, in order. -/
def uids (s : MatchSet) : List String := s.credits.keys

/-- The number of records listed. -/
def size (s : MatchSet) : Nat := s.credits.size

/-- Whether no record is listed. -/
def isEmpty (s : MatchSet) : Bool := s.credits.isEmpty

/-- Whether no document at all can match: nothing is listed and nothing is left open. -/
def matchesNothing (s : MatchSet) : Bool := !s.infinite && s.isEmpty

/-- Adds a record unless its uid is listed already. -/
def add (s : MatchSet) (r : MatchRecord) : MatchSet :=
  { s with credits := s.credits.insertIfNew r.uid r.node }

/-- Adds a record, and tells whether its uid was new. -/
def insert (s : MatchSet) (r : MatchRecord) : Bool × MatchSet := (!s.contains r.uid, s.add r)

/-- Adds records one after the other. -/
def addAll (s : MatchSet) (rs : List MatchRecord) : MatchSet := rs.foldl add s

/-- Lets the set stand for every document of its shard; the records stay as a sample. -/
def markInfinite (s : MatchSet) : MatchSet := { s with infinite := true }

/-- Hands the set as a whole to `node`; the records keep theirs. -/
def setNode (s : MatchSet) (node : Option NodeId) : MatchSet := { s with node }

/-- The finite set of the given records. -/
def ofRecords (shard : String) (node : Option NodeId) (rs : List MatchRecord) : MatchSet :=
  (empty shard node).addAll rs

/-- The finite set of the given uids, every record credited to the node of the set. -/
def ofUids (shard : String) (node : Option NodeId) (uids : List String) : MatchSet :=
  ofRecords shard node (uids.map (⟨·, node⟩))

/-- Keeps the records that satisfy `p`. -/
def filter (p : MatchRecord → Bool) (s : MatchSet) : MatchSet :=
  { s with credits := s.credits.filter (fun uid node => p ⟨uid, node⟩) }

/-- Whether two sets belong to the same shard and node, are both finite or both infinite, and
    list the same documents. -/
def sameDocuments (s t : MatchSet) : Bool :=
  s.shard == t.shard && s.node == t.node && s.infinite == t.infinite && s.uids == t.uids

@[simp] theorem shard_addAll (s : MatchSet) (rs : List MatchRecord) :
    (s.addAll rs).shard = s.shard := by
  induction rs generalizing s with
  | nil => rfl
  | cons r rs ih => exact ih (s.add r)

@[simp] theorem node_addAll (s : MatchSet) (rs : List MatchRecord) :
    (s.addAll rs).node = s.node := by
  induction rs generalizing s with
  | nil => rfl
  | cons r rs ih => exact ih (s.add r)

@[simp] theorem infinite_addAll (s : MatchSet) (rs : List MatchRecord) :
    (s.addAll rs).infinite = s.infinite := by
  induction rs generalizing s with
  | nil => rfl
  | cons r rs ih => exact ih (s.add r)

end MatchSet

/-- What a stream hands out: a shard and what was matched there. -/
structure Entry where
  shard : String
  set : MatchSet
  deriving DecidableEq, Inhabited

/-- The entry of a set, under the shard the set names. -/
def MatchSet.entry (s : MatchSet) : Entry := ⟨s.shard, s⟩

end ShardSearch
