import ShardSearch.Context
import ShardSearch.MatchSet.Overlap
import ShardSearch.Stream.Scanner

/-!
# Index streams

A `Stream` yields the entries of one predicate in ascending shard order, one entry per shard.
Leaves hold their entries or pull them out of a scanner; composites combine the entries of other
streams, shard by shard, and look at most one entry ahead.

The parts of a stream that lie in lists are gone through by a companion function: `heldAll` for
`held`, and so on.

An ancestor stream has room for something of its own: nothing in a `Stream`, an entry that was shown
in a stream as a reader of it is given (`SlottedStream`).
-/

namespace ShardSearch

/-- A sequence of entries for one predicate, read from the front.  Its ancestor streams keep a
    `Slot` each. -/
inductive Stream (Slot : Type := Unit) where
  /-- Entries that are in memory. -/
  | leaf (node : Option NodeId) (context : Context) (label : String) (entries : List Entry)
  /-- Entries pulled out of a scanner. -/
  | scan (node : Option NodeId) (label : String) (scanner : Scanner) (head : Head)
  /-- The shards all `filters` hold; the streams in `deferred` are never read. -/
  | intersection (node : Option NodeId) (context : Context) (filters deferred : List (Stream Slot))
      (head : Head)
  /-- The shards some of the `sources` hold; `prunes` tells whether these are all the shards with
      a match. -/
  | union (node : Option NodeId) (context : Context) (prunes : Bool) (sources : List (Stream Slot))
      (head : Head)
  /-- The entries of `delegate`, without the descendants of documents already found; `parent` is
      the node under which the stream hangs. -/
  | ancestor (delegate : Stream Slot) (parent : Option NodeId) (slot : Slot)
  deriving Inhabited

namespace Stream

variable {Slot : Type}

/-- The head of a stream, as far as it is known. -/
def head : Stream Slot → Head
  | leaf _ _ _ [] => .ended
  | leaf _ _ _ (e :: _) => .ready e
  | scan _ _ _ head => head
  | intersection _ _ _ _ head => head
  | union _ _ _ _ head => head
  | ancestor delegate _ _ => delegate.head.mapSet .removeOverlapping

/-- Passes the next entry, if it is known. -/
def pop : Stream Slot → Stream Slot
  | leaf node context label entries => leaf node context label entries.tail
  | scan node label scanner (.ready _) => scan node label scanner .unread
  | intersection node context filters deferred (.ready _) =>
    intersection node context filters deferred .unread
  | union node context prunes sources (.ready _) => union node context prunes sources .unread
  | ancestor delegate parent slot => ancestor delegate.pop parent slot
  | s => s

/-- The shard of the next entry, if it is known. -/
def headShard? (s : Stream) : Option String := s.head.entry?.map (·.shard)

/-- The set of the next entry, if that entry is known and lies at `shard`. -/
def setAt? (shard : String) (s : Stream) : Option MatchSet :=
  (s.head.entry?.filter (·.shard = shard)).map (·.set)

/-! ## Measures -/

mutual

/-- The number of entries a stream can still yield, at most: those it holds and those that its
    parts, if they are read, hold. -/
def held : Stream Slot → Nat
  | leaf _ _ _ entries => entries.length
  | scan _ _ scanner head => scanner.coming.length + head.entry?.toList.length
  | intersection _ _ filters _ head => heldAll filters + head.entry?.toList.length
  | union _ _ _ sources head => heldAll sources + head.entry?.toList.length
  | ancestor delegate _ _ => held delegate

/-- The number of entries some streams can still yield together. -/
def heldAll : List (Stream Slot) → Nat
  | [] => 0
  | s :: rest => held s + heldAll rest

end

mutual

/-- The number of streams on a longest path down through the parts that are read. -/
def height : Stream Slot → Nat
  | leaf .. => 1
  | scan .. => 1
  | intersection _ _ filters _ _ => 1 + heightAll filters
  | union _ _ _ sources _ => 1 + heightAll sources
  | ancestor delegate _ _ => 1 + height delegate

/-- The greatest height among some streams. -/
def heightAll : List (Stream Slot) → Nat
  | [] => 0
  | s :: rest => max (height s) (heightAll rest)

end

mutual

/-- The sets taken so far out of all scanners of a stream. -/
def tally : Stream Slot → ScanStats
  | leaf .. => .zero
  | scan _ _ scanner _ => scanner.tally
  | intersection _ _ filters deferred _ => tallyAll filters + tallyAll deferred
  | union _ _ _ sources _ => tallyAll sources
  | ancestor delegate _ _ => tally delegate

/-- The sets taken so far out of all scanners of some streams. -/
def tallyAll : List (Stream Slot) → ScanStats
  | [] => .zero
  | s :: rest => tally s + tallyAll rest

end

theorem height_le_heightAll {s : Stream Slot} {ss : List (Stream Slot)} (h : s ∈ ss) :
    height s ≤ heightAll ss := by
  induction ss with
  | nil => exact absurd h List.not_mem_nil
  | cons t rest ih =>
    simp only [heightAll]
    rcases List.mem_cons.1 h with rfl | h
    · omega
    · have := ih h
      omega

end Stream

end ShardSearch
