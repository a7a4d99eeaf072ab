import ShardSearch.Stream.Basic

/-!
# What a stream says of its predicate

None of this depends on how far a stream has been read.
-/

namespace ShardSearch.Stream

variable {Slot : Type}

/-- How far the predicate is settled by the index. -/
def context : Stream Slot → Context
  | leaf _ context _ _ => context
  | scan .. => .initialized
  | intersection _ context _ _ _ => context
  | union _ context _ _ _ => context
  | ancestor delegate _ _ => delegate.context

/-- The predicate node the stream answers. -/
def node : Stream Slot → Option NodeId
  | leaf node _ _ _ => node
  | scan node _ _ _ => node
  | intersection node _ _ _ _ => node
  | union node _ _ _ _ => node
  | ancestor delegate _ _ => delegate.node

/-- The node under which an ancestor stream hangs. -/
def parent : Stream Slot → Option NodeId
  | ancestor _ parent _ => parent
  | _ => none

/-- Whether every match lies in a shard the stream yields, so that an intersection may read the
    stream to narrow its shards down.  An intersection can do so with one such part, even when it
    puts off the others. -/
def canPrune : Stream Slot → Bool
  | leaf _ context _ _ => context.canFilter
  | scan .. => Context.initialized.canFilter
  | intersection _ _ filters _ _ => !filters.isEmpty
  | union _ _ prunes _ _ => prunes
  | ancestor delegate _ _ => delegate.canPrune

mutual

/-- The nodes still to be checked against each document that the stream yields: for an
    intersection those of the parts it puts off, then those its filters put off in turn. -/
def deferredNodes : Stream Slot → List NodeId
  | leaf .. => []
  | scan .. => []
  | intersection _ context filters deferred _ =>
    if context = .absent then [] else deferred.filterMap node ++ deferredNodesAll filters
  | union _ _ _ sources _ => deferredNodesAll sources
  | ancestor delegate _ _ => deferredNodes delegate

/-- The nodes put off by some streams, in the order of the streams. -/
def deferredNodesAll : List (Stream Slot) → List NodeId
  | [] => []
  | s :: rest => deferredNodes s ++ deferredNodesAll rest

end

theorem deferredNodesAll_eq_flatMap (ss : List (Stream Slot)) :
    deferredNodesAll ss = ss.flatMap deferredNodes := by
  induction ss with
  | nil => simp [deferredNodesAll]
  | cons s rest ih => simp [deferredNodesAll, ih]

/-- How a kind of stream is called in an error.  An ancestor stream goes by its delegate. -/
def kindName : Stream Slot → String
  | leaf .. => "leaf"
  | scan .. => "scan"
  | intersection .. => "intersection"
  | union .. => "union"
  | ancestor delegate _ _ => delegate.kindName

mutual

/-- How a stream reads in a report: its kind, its context and its parts.  A scan also tells the
    last shard it let through. -/
def describe : Stream Slot → String
  | leaf _ context label _ => "Leaf[" ++ context.label ++ "](" ++ label ++ ")"
  | scan _ label scanner _ =>
    "Scan[" ++ Context.initialized.label ++ "](" ++ label ++ ", last="
      ++ scanner.last.getD "-" ++ ")"
  | intersection _ context filters deferred _ =>
    "Intersection[" ++ context.label ++ "](" ++ ", ".intercalate (describeAll filters)
      ++ "; deferred: " ++ ", ".intercalate (describeAll deferred) ++ ")"
  | union _ context _ sources _ =>
    "Union[" ++ context.label ++ "](" ++ ", ".intercalate (describeAll sources) ++ ")"
  | ancestor delegate _ _ => "Ancestor(" ++ describe delegate ++ ")"

/-- How each of some streams reads. -/
def describeAll : List (Stream Slot) → List String
  | [] => []
  | s :: rest => describe s :: describeAll rest

end

end ShardSearch.Stream
