import ShardSearch.Stream.Advance
import ShardSearch.Stream.Calls

/-!
# Streams with slots

In a `SlottedStream` every ancestor stream, at any depth, keeps the entry it has shown in a slot of
its own until that entry is passed, while its delegate, which has the entry prepared as well, goes
on to hold it.  So what a composite is told by a part depends on the calls it makes, and the rounds
of a composite are spelled out here by calls: first whether there is an entry, then which, and only
then the one that passes it.
-/

namespace ShardSearch

/-- A stream whose ancestor streams keep what they have shown of their next entry. -/
abbrev SlottedStream := Stream (Option Entry)

namespace Stream

variable {Slot Slot' : Type}

mutual

/-- A stream with its slots changed by `f`. -/
def mapSlots (f : Slot → Slot') : Stream Slot → Stream Slot'
  | leaf node context label entries => leaf node context label entries
  | scan node label scanner head => scan node label scanner head
  | intersection node context filters deferred head =>
    intersection node context (mapAllSlots f filters) (mapAllSlots f deferred) head
  | union node context prunes sources head =>
    union node context prunes (mapAllSlots f sources) head
  | ancestor delegate parent slot => ancestor (mapSlots f delegate) parent (f slot)

/-- Some streams with their slots changed by `f`. -/
def mapAllSlots (f : Slot → Slot') : List (Stream Slot) → List (Stream Slot')
  | [] => []
  | s :: rest => mapSlots f s :: mapAllSlots f rest

end

/-- A stream that is to be read by calls.  Nothing has been shown yet. -/
def slotted (s : Stream) : SlottedStream := s.mapSlots fun _ => none

/-- A stream without its slots. -/
def unslotted (s : SlottedStream) : Stream := s.mapSlots fun _ => ()

end Stream

/-! ## Rounds by calls -/

/-- Applies `step` to some `σ` from left to right and collects what it comes to, up to the first
    where it comes to a head instead. -/
def each {σ α : Type} (step : σ → Except Head α × σ) : List σ → Except Head (List α) × List σ
  | [] => (.ok [], [])
  | s :: rest =>
    match step s with
    | (.error head, s) => (.error head, s :: rest)
    | (.ok a, s) =>
      match each step rest with
      | (.error head, rest) => (.error head, s :: rest)
      | (.ok as, rest) => (.ok (a :: as), s :: rest)

namespace Calls

variable {σ Slot : Type}

/-- Asks for the next entry, if there is one. -/
def offer (calls : Calls σ) (s : σ) : Except Head (Option Entry) × σ :=
  match calls.hasNext s with
  | (.error e, s) => (.error (.failed e), s)
  | (.ok false, s) => (.ok none, s)
  | (.ok true, s) =>
    match calls.peek s with
    | (.error e, s) => (.error (.failed e), s)
    | (.ok entry, s) => (.ok (some entry), s)

/-- Asks for the next entry, of which there has to be one. -/
def front (calls : Calls σ) (s : σ) : Except Head Entry × σ :=
  match calls.offer s with
  | (.error head, s) => (.error head, s)
  | (.ok none, s) => (.error .ended, s)
  | (.ok (some entry), s) => (.ok entry, s)

/-- Passes the next entry. -/
def take (calls : Calls σ) (s : σ) : Except Head Entry × σ :=
  match calls.next s with
  | (.error e, s) => (.error (.failed e), s)
  | (.ok entry, s) => (.ok entry, s)

/-- Passes the next entry if it lies at `shard`. -/
def takeAt (calls : Calls σ) (shard : String) (s : σ) : Except Head (Option Entry) × σ :=
  match calls.offer s with
  | (.error head, s) => (.error head, s)
  | (.ok none, s) => (.ok none, s)
  | (.ok (some entry), s) =>
    if entry.shard = shard then
      match calls.take s with
      | (.error head, s) => (.error head, s)
      | (.ok taken, s) => (.ok (some taken), s)
    else (.ok none, s)

/-- Passes the entries that lie before `shard`, at most `n` of them, and asks for the one after. -/
def seekWithin (calls : Calls σ) (shard : String) : (n : Nat) → σ → Except Head Entry × σ
  | 0, s => calls.front s
  | n + 1, s =>
    match calls.offer s with
    | (.error head, s) => (.error head, s)
    | (.ok none, s) => calls.front s
    | (.ok (some entry), s) =>
      if entry.shard < shard then
        match calls.take s with
        | (.error head, s) => (.error head, s)
        | (.ok _, s) => calls.seekWithin shard n s
      else calls.front s

/-- Passes the entries that lie before `shard` and asks for the one after. -/
def seek (calls : Calls (Stream Slot)) (shard : String) (s : Stream Slot) :
    Except Head Entry × Stream Slot :=
  calls.seekWithin shard s.held s

/-- A round of an intersection: all parts are asked for their entries and made to pass those before
    the greatest shard among them.  If they all hold that shard then, it is consumed. -/
def meetRound (calls : Calls (Stream Slot)) (node : Option NodeId) (parts : List (Stream Slot)) :
    Stream.Round (Stream Slot) :=
  match each calls.front parts with
  | (.error head, parts) => .settled head parts
  | (.ok fronts, parts) =>
    match Stream.greatest (fronts.map (·.shard)) with
    | none => .settled .ended parts
    | some shard =>
      match each (calls.seek shard) parts with
      | (.error head, parts) => .settled head parts
      | (.ok fronts, parts) =>
        if fronts.all (·.shard = shard) then
          match each calls.take parts with
          | (.error head, parts) => .settled head parts
          | (.ok taken, parts) =>
            let set := MatchSet.intersect shard node (taken.map (·.set))
            if set.matchesNothing then .again parts else .settled (.ready ⟨shard, set⟩) parts
        else .again parts

/-- A round of a union: all parts are asked for their entries, and the least shard among these is
    consumed wherever it is held. -/
def joinRound (calls : Calls (Stream Slot)) (node : Option NodeId) (parts : List (Stream Slot)) :
    Stream.Round (Stream Slot) :=
  match each calls.offer parts with
  | (.error head, parts) => .settled head parts
  | (.ok offers, parts) =>
    match Stream.least (offers.filterMap (Option.map (·.shard))) with
    | none => .settled .ended parts
    | some shard =>
      match each (calls.takeAt shard) parts with
      | (.error head, parts) => .settled head parts
      | (.ok taken, parts) =>
        let set := MatchSet.unite shard node (taken.filterMap (Option.map (·.set)))
        if set.matchesNothing then .again parts else .settled (.ready ⟨shard, set⟩) parts

/-- Reads up to `n` entries, fewer if there are no more. -/
def drainWithin (calls : Calls σ) : (n : Nat) → σ → Except Error (List Entry) × σ
  | 0, s => (.ok [], s)
  | n + 1, s =>
    match calls.hasNext s with
    | (.error e, s) => (.error e, s)
    | (.ok false, s) => (.ok [], s)
    | (.ok true, s) =>
      match calls.next s with
      | (.error e, s) => (.error e, s)
      | (.ok entry, s) =>
        let (rest, s) := calls.drainWithin n s
        (rest.map (entry :: ·), s)

end Calls

namespace SlottedStream

/-- Makes the head of a scan or a composite known, by calls on its parts. -/
def fillWith (below : Calls SlottedStream) : SlottedStream → SlottedStream
  | .scan node label scanner .unread =>
    let (head, scanner) := scanner.pull
    .scan node label scanner head
  | .intersection node context filters deferred .unread =>
    let (head, filters) := Stream.settle (below.meetRound node) filters
    .intersection node context filters deferred head
  | .union node context prunes sources .unread =>
    let (head, sources) := Stream.settle (below.joinRound node) sources
    .union node context prunes sources head
  | s => s

/-- The ancestor stream that a decorator is. -/
def ofDecorator (d : Decorator SlottedStream) : SlottedStream :=
  .ancestor d.delegate d.parent d.pending

/-- The calls on a stream, by calls on its parts. -/
def callsWith (below : Calls SlottedStream) : Calls SlottedStream where
  hasNext
    | .ancestor delegate parent pending =>
      ((Decorator.calls below).hasNext ⟨delegate, parent, pending⟩).map id ofDecorator
    | s => (Stream.callsBy (fillWith below)).hasNext s
  peek
    | .ancestor delegate parent pending =>
      ((Decorator.calls below).peek ⟨delegate, parent, pending⟩).map id ofDecorator
    | s => (Stream.callsBy (fillWith below)).peek s
  next
    | .ancestor delegate parent pending =>
      ((Decorator.calls below).next ⟨delegate, parent, pending⟩).map id ofDecorator
    | s => (Stream.callsBy (fillWith below)).next s
  remove
    | .ancestor delegate parent pending =>
      ((Decorator.calls below).remove ⟨delegate, parent, pending⟩).map id ofDecorator
    | s => (Stream.callsBy (fillWith below)).remove s

/-- The calls on a stream of the given height at most. -/
def callsAt : (height : Nat) → Calls SlottedStream
  | 0 => Stream.callsBy id
  | h + 1 => callsWith (callsAt h)

/-- The calls on a stream. -/
def calls : Calls SlottedStream where
  hasNext s := (callsAt s.height).hasNext s
  peek s := (callsAt s.height).peek s
  next s := (callsAt s.height).next s
  remove s := (callsAt s.height).remove s

/-- Reads all entries there are.  If the stream fails, what was read before is lost. -/
def drain (s : SlottedStream) : Except Error (List Entry) × SlottedStream :=
  calls.drainWithin (s.held + 1) s

end SlottedStream

end ShardSearch
