import ShardSearch.MatchSet.Merge
import ShardSearch.Stream.Basic

/-!
# Finding the next entry

`Stream.fill` makes the head of a stream known.  For a composite this takes rounds: a round lines
its parts up at one shard, as far as they go, and either settles the head or, having consumed an
entry of some part, leaves the next round to try again.  A composite never needs more rounds than
its parts hold entries, plus one.

The functions here take the way parts are filled as an argument; `fillAt` closes the circle, going
down the parts of a stream by their height.
-/

namespace ShardSearch.Stream

/-- Applies `step` to streams from left to right, up to the first whose head then satisfies
    `stop`.  Answers that head, if there is one, and the streams as they are now. -/
def sweep (step : Stream → Stream) (stop : Head → Bool) : List Stream → Option Head × List Stream
  | [] => (none, [])
  | s :: rest =>
    let s := step s
    if stop s.head then (some s.head, s :: rest)
    else
      let (stopped, rest) := sweep step stop rest
      (stopped, s :: rest)

/-- Passes the entries of a stream that lie before `shard`, at most `n` of them, and makes the head
    known. -/
def seekWithin (fill : Stream → Stream) (shard : String) : (n : Nat) → Stream → Stream
  | 0, s => fill s
  | n + 1, s =>
    let s := fill s
    if s.headShard?.any (· < shard) then seekWithin fill shard n s.pop else s

/-- Passes the entries of a stream that lie before `shard` and makes the head known. -/
def seek (fill : Stream → Stream) (shard : String) (s : Stream) : Stream :=
  seekWithin fill shard s.held s

/-- The greatest of some shards. -/
def greatest : List String → Option String
  | [] => none
  | s :: rest => some (rest.foldl (fun a b => if a < b then b else a) s)

/-- The least of some shards. -/
def least : List String → Option String
  | [] => none
  | s :: rest => some (rest.foldl (fun a b => if b < a then b else a) s)

/-- What a round has come to. -/
inductive Round (σ : Type := Stream) where
  /-- The head of the composite is known. -/
  | settled (head : Head) (parts : List σ)
  /-- An entry was consumed to no avail. -/
  | again (parts : List σ)

/-- A round of an intersection: lines all parts up at the greatest shard among their heads and, if
    they all hold that shard, consumes it.  Where one part is over, so is the intersection. -/
def meetRound (fill : Stream → Stream) (node : Option NodeId) (parts : List Stream) : Round :=
  match sweep fill Head.isOver parts with
  | (some head, parts) => .settled head parts
  | (none, parts) =>
    match greatest (parts.filterMap headShard?) with
    | none => .settled .ended parts
    | some shard =>
      match sweep (seek fill shard) Head.isOver parts with
      | (some head, parts) => .settled head parts
      | (none, parts) =>
        if parts.all (fun s => (s.setAt? shard).isSome) then
          let set := MatchSet.intersect shard node (parts.filterMap (setAt? shard))
          if set.matchesNothing then .again (parts.map pop)
          else .settled (.ready ⟨shard, set⟩) (parts.map pop)
        else .again parts

/-- A round of a union: consumes the least shard among the heads of all parts wherever it is held.
    A part that has ended is passed over; a failure is not. -/
def joinRound (fill : Stream → Stream) (node : Option NodeId) (parts : List Stream) : Round :=
  match sweep fill Head.isFailure parts with
  | (some head, parts) => .settled head parts
  | (none, parts) =>
    match least (parts.filterMap headShard?) with
    | none => .settled .ended parts
    | some shard =>
      let set := MatchSet.unite shard node (parts.filterMap (setAt? shard))
      let parts := parts.map (fun s => if (s.setAt? shard).isSome then s.pop else s)
      if set.matchesNothing then .again parts else .settled (.ready ⟨shard, set⟩) parts

/-- Goes through rounds, at most `n` of them, until the head is settled. -/
def settleWithin {σ : Type} (round : List σ → Round σ) : (n : Nat) → List σ → Head × List σ
  | 0, parts => (.ended, parts)
  | n + 1, parts =>
    match round parts with
    | .settled head parts => (head, parts)
    | .again parts => settleWithin round n parts

/-- Goes through rounds until the head is settled. -/
def settle {Slot : Type} (round : List (Stream Slot) → Round (Stream Slot))
    (parts : List (Stream Slot)) : Head × List (Stream Slot) :=
  settleWithin round (heldAll parts + 1) parts

/-- Makes the head of a stream known, for a stream of the given height at most. -/
def fillAt : (height : Nat) → Stream → Stream
  | 0, s => s
  | h + 1, s =>
    match s with
    | scan node label scanner .unread =>
      let (head, scanner) := scanner.pull
      scan node label scanner head
    | intersection node context filters deferred .unread =>
      let (head, filters) := settle (meetRound (fillAt h) node) filters
      intersection node context filters deferred head
    | union node context prunes sources .unread =>
      let (head, sources) := settle (joinRound (fillAt h) node) sources
      union node context prunes sources head
    | ancestor delegate parent slot => ancestor (fillAt h delegate) parent slot
    | s => s

/-- Makes the head of a stream known. -/
def fill (s : Stream) : Stream := fillAt s.height s

end ShardSearch.Stream
