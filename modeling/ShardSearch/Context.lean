/-!
# What a stream knows about its own predicate

A `Context` is fixed when a stream is made.  Contexts are ranked by how much of the predicate is
put off to the reading of documents; `Absent` stands outside the ranking, for it says that there
is nothing to put off.  A composite reports the `weakest` context among its parts.
-/

namespace ShardSearch

/-- How far a stream settles its predicate from the index alone. -/
inductive Context where
  /-- All data is at hand. -/
  | present
  /-- The index answers, but nothing has been read yet. -/
  | initialized
  /-- Data is at hand, but there may be matches outside it. -/
  | varying
  /-- The predicate is checked against documents on purpose. -/
  | delayed
  /-- The field has no index. -/
  | unindexed
  /-- Nothing matches. -/
  | absent
  deriving DecidableEq, Inhabited

namespace Context

/-- The name of a context in reports. -/
def label : Context → String
  | present => "PRESENT"
  | initialized => "INITIALIZED"
  | varying => "VARIABLE"
  | delayed => "DELAYED"
  | unindexed => "UNINDEXED"
  | absent => "ABSENT"

instance : ToString Context := ⟨label⟩

/-- How much is put off to the reading of documents; `absent` has no rank. -/
def rank : Context → Option Nat
  | present => some 0
  | initialized => some 1
  | varying => some 2
  | delayed => some 3
  | unindexed => some 4
  | absent => none

/-- Whether a stream of this context can hold shards. -/
def carriesData : Context → Bool
  | present | initialized | varying => true
  | _ => false

/-- Whether the shards of a stream of this context cover all its matches. -/
def canFilter : Context → Bool
  | present | initialized => true
  | _ => false

/-- Whether some of the predicate is left to the reading of documents. -/
def isDeferred : Context → Bool
  | varying | delayed | unindexed => true
  | _ => false

/-- The context that puts off more; `absent` yields to any other, and `a` wins a tie. -/
def weaker (a b : Context) : Context :=
  match a.rank, b.rank with
  | none, _ => b
  | _, none => a
  | some i, some j => if i < j then b else a

/-- The context that puts off the most among those that are not `absent`, if there is one. -/
def weakest (contexts : List Context) : Option Context :=
  match contexts.filter (· ≠ absent) with
  | [] => none
  | c :: rest => some (rest.foldl weaker c)

end Context

end ShardSearch
