import ShardSearch.Stream.Advance
import ShardSearch.Stream.Calls

/-!
# Reading a stream

The calls a reader has.  Each answers, and leaves the stream as it is after the call.
-/

namespace ShardSearch.Stream

/-- The calls on a stream. -/
def calls : Calls Stream := callsBy fill

/-- Whether there is a next entry. -/
def hasNext (s : Stream) : Except Error Bool × Stream := calls.hasNext s

/-- The next entry, which stays the next. -/
def peek (s : Stream) : Except Error Entry × Stream := calls.peek s

/-- The next entry, which is passed. -/
def next (s : Stream) : Except Error Entry × Stream := calls.next s

/-- Entries cannot be removed. -/
def remove (s : Stream) : Except Error Unit × Stream := calls.remove s

/-- Reads up to `n` entries, fewer if the stream ends before. -/
def drainWithin : (n : Nat) → Stream → Except Error (List Entry) × Stream
  | 0, s => (.ok [], s)
  | n + 1, s =>
    let s := s.fill
    match s.head with
    | .ready entry =>
      let (rest, s) := drainWithin n s.pop
      (rest.map (entry :: ·), s)
    | .failed e => (.error e, s)
    | _ => (.ok [], s)

/-- Reads all entries there are.  If the stream fails, what was read before is lost. -/
def drain (s : Stream) : Except Error (List Entry) × Stream := drainWithin (s.held + 1) s

end ShardSearch.Stream
