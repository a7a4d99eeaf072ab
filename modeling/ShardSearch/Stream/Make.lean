import ShardSearch.Stream.Classify

/-!
# Making streams

What a stream settles, and which of its parts it reads, is decided here once and for all.
-/

namespace ShardSearch.Stream

/-! ## Leaves -/

/-- The label of a leaf that was not given one. -/
def defaultLabel (node : Option NodeId) : String :=
  match node with
  | some id => toString id
  | none => "<no node>"

/-- Checks that shards ascend strictly, and reports the first that does not. -/
def checkAscending : List MatchSet → Except Error Unit
  | a :: b :: rest =>
    if a.shard < b.shard then checkAscending (b :: rest)
    else .error (.shardsNotAscending a.shard b.shard)
  | _ => .ok ()

/-- A leaf over sets in memory, whose shards have to ascend strictly. -/
def leafOf (node : Option NodeId) (context : Context) (sets : List MatchSet) :
    Except Error Stream := do
  checkAscending sets
  return leaf node context (defaultLabel node) (sets.map (·.entry))

/-- A leaf over all data there is for its predicate; without data nothing matches. -/
def ofSets (node : Option NodeId) (sets : List MatchSet) : Except Error Stream :=
  leafOf node (if sets.isEmpty then .absent else .present) sets

/-- A leaf over some of the data there is for its predicate. -/
def varying (node : Option NodeId) (sets : List MatchSet) : Except Error Stream :=
  leafOf node .varying sets

/-- A leaf for a predicate that nothing matches. -/
def absent (node : Option NodeId) : Stream := leaf node .absent (defaultLabel node) []

/-- A leaf for a predicate that is put off to the reading of documents. -/
def delayed (node : Option NodeId) : Stream := leaf node .delayed (defaultLabel node) []

/-- A leaf for a predicate on a field without an index. -/
def unindexed (node : Option NodeId) : Stream := leaf node .unindexed (defaultLabel node) []

/-- A leaf over a scanner that has not been asked for anything yet. -/
def ofScanner (node : Option NodeId) (scanner : Scanner) : Stream :=
  scan node (defaultLabel node) scanner .unread

/-- Gives a leaf a label of its own. -/
def withLabel (s : Stream) (label : String) : Stream :=
  match s with
  | leaf node context _ entries => leaf node context label entries
  | scan node _ scanner head => scan node label scanner head
  | s => s

/-! ## Composites -/

variable {Slot : Type}

/-- The context of a composite of the given parts. -/
def contextOf (parts : List (Stream Slot)) : Context :=
  (Context.weakest (parts.map context)).getD .absent

/-- The head of a composite that has not been read yet: without parts to read it has ended. -/
def firstHead (parts : List (Stream Slot)) : Head := if parts.isEmpty then .ended else .unread

/-- The stream of what all children match, of which there have to be two at least.  One absent
    child leaves nothing.  Children that cannot narrow the shards down are put off. -/
def intersect (node : Option NodeId) (children : List (Stream Slot)) :
    Except Error (Stream Slot) :=
  if children.length < 2 then .error (.tooFewChildren "intersection" children.length)
  else if children.any (·.context = .absent) then
    .ok (intersection node .absent [] children .ended)
  else
    let filters := children.filter canPrune
    let deferred := children.filter (!·.canPrune)
    .ok (intersection node (contextOf (filters ++ deferred)) filters deferred (firstHead filters))

/-- The stream of what some child matches, of which there have to be two at least.  Absent
    children are left out. -/
def unite (node : Option NodeId) (children : List (Stream Slot)) :
    Except Error (Stream Slot) :=
  if children.length < 2 then .error (.tooFewChildren "union" children.length)
  else
    let sources := children.filter (·.context ≠ .absent)
    .ok (union node (contextOf sources) (!sources.isEmpty && sources.all canPrune) sources
      (firstHead sources))

/-- Drops from a stream the descendants of documents already found.  Nothing has been shown yet. -/
def dropDescendants [Inhabited Slot] (delegate : Stream Slot) (parent : Option NodeId) :
    Stream Slot :=
  ancestor delegate parent default

/-- The stream below an ancestor stream, read as far as the ancestor stream was. -/
def undecorated : Stream Slot → Stream Slot
  | ancestor delegate _ _ => delegate
  | s => s

end ShardSearch.Stream
