import ShardSearch.NodeId

/-!
# Errors

An `Error` says what kind of thing went wrong and carries the words for it; `Error.message` is
the sentence shown to a user.  Every failure the library itself raises is named below, so the
wording of each is written once.
-/

namespace ShardSearch

/-- What can go wrong while an index is described, searched or configured. -/
inductive Error where
  /-- A caller handed in something that cannot be used. -/
  | invalidArgument (text : String)
  /-- A call came at a time when it has no answer, or data broke its order. -/
  | illegalState (text : String)
  /-- The operation is never available. -/
  | unsupported (operation : String)
  /-- A scan of the index failed; `source` names the scan. -/
  | scan (source text : String)
  /-- The settings cannot be used. -/
  | config (text : String)
  deriving DecidableEq, Inhabited

namespace Error

/-- The sentence shown for an error. -/
def message : Error → String
  | invalidArgument text => "invalid argument: " ++ text
  | illegalState text => "illegal state: " ++ text
  | unsupported operation => "unsupported operation: " ++ operation
  | scan source text => "scan failed on " ++ source ++ ": " ++ text
  | config text => "invalid configuration: " ++ text

/-- Whether a scan of the index failed, as opposed to the request or its order of calls. -/
def isScanFailure : Error → Bool
  | scan _ _ => true
  | _ => false

/-! ## The failures the library raises -/

/-- A stream of the given kind was read past its end. -/
def exhausted (kind : String) : Error := illegalState (kind ++ " stream is exhausted")

/-- Streams are read-only. -/
def readOnly : Error := unsupported "remove"

/-- In-memory shard data has to ascend strictly. -/
def shardsNotAscending (previous shard : String) : Error :=
  invalidArgument ("leaf shards must ascend strictly: '" ++ shard ++ "' follows '" ++ previous
    ++ "'")

/-- A scanner went back to a shard it had already passed. -/
def scannerNotAscending (previous shard : String) : Error :=
  illegalState ("scanner emitted shard '" ++ shard ++ "' after '" ++ previous ++ "'")

/-- A composite of the given kind combines at least two streams. -/
def tooFewChildren (kind : String) (count : Nat) : Error :=
  invalidArgument (kind ++ " requires at least two children, got " ++ toString count)

/-- No node of the tree has this name. -/
def unknownNode (id : NodeId) : Error := invalidArgument ("unknown predicate node " ++ toString id)

/-- No name is left for a further node of the tree. -/
def treeFull (count : Nat) : Error :=
  invalidArgument ("predicate tree is full at " ++ toString count ++ " nodes")

/-- The tree was never given a root. -/
def noRoot : Error := invalidArgument "predicate tree has no root"

/-- A conjunction or disjunction of nothing cannot be searched. -/
def childlessComposite (id : NodeId) : Error :=
  invalidArgument ("composite node " ++ toString id ++ " has no children")

/-- A bound of a range has to be a day. -/
def notADay (bound : String) : Error :=
  invalidArgument ("shard range bound '" ++ bound ++ "' is not a yyyyMMdd day")

/-- A range cannot begin after it ends. -/
def reversedRange (first last : String) : Error :=
  invalidArgument ("shard range begins after it ends (" ++ first ++ " > " ++ last ++ ")")

/-- No leaf was laid out for the term that reads `term`. -/
def noSuchLeaf (term : String) : Error := scan term "no such leaf"

/-- A threshold of zero would leave every shard uncounted. -/
def zeroThreshold : Error := config "shard_uid_threshold must be greater than zero"

end Error

end ShardSearch
