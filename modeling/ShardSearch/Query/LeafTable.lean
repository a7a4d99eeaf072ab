import ShardSearch.Query.Basic

/-!
# Leaves laid out in advance

A `LeafTable` lists, term by term, what the leaf for that term holds.  It stands in for an index
where one wants to say exactly what each scan yields, and it logs what it was asked for.
-/

namespace ShardSearch

/-- What a leaf holds. -/
inductive LeafPlan where
  /-- All data there is. -/
  | complete (sets : List MatchSet)
  /-- Some of the data there is. -/
  | varying (sets : List MatchSet)
  | absent
  | delayed
  | unindexed
  /-- Whatever a scanner yields. -/
  | scan (items : List ScanItem)

/-- The leaf of a plan, for the given node. -/
def LeafPlan.stream (node : Option NodeId) : LeafPlan → Except Error Stream
  | complete sets => Stream.ofSets node sets
  | varying sets => Stream.varying node sets
  | absent => .ok (Stream.absent node)
  | delayed => .ok (Stream.delayed node)
  | unindexed => .ok (Stream.unindexed node)
  | scan items => .ok (Stream.ofScanner node (.ofItems items))

/-- A leaf laid out for a term, with a label of its own or the usual one. -/
structure LeafRow where
  field : String
  value : String
  plan : LeafPlan
  label : Option String

/-- A term a source was asked for. -/
structure LeafRequest where
  node : NodeId
  field : String
  value : String
  deriving DecidableEq, Inhabited

/-- The leaf of a row, for the given node. -/
def LeafRow.stream (row : LeafRow) (node : Option NodeId) : Except Error Stream :=
  (row.plan.stream node).map (fun s => row.label.elim s s.withLabel)

/-- The leaf of the first row for a term; a term without a row fails as a scan.  The log grows by
    the term either way. -/
def leafFromTable (rows : List LeafRow) : LeafSource (List LeafRequest) :=
  fun id field value log =>
    let leaf := match rows.find? (fun row => row.field = field ∧ row.value = value) with
      | some row => row.stream (some id)
      | none => .error (.noSuchLeaf (PredicateTree.termText field value))
    (leaf, log ++ [⟨id, field, value⟩])

end ShardSearch
