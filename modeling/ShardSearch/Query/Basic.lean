import ShardSearch.Config.Basic
import ShardSearch.Predicate.View
import ShardSearch.Stream.Make

/-!
# From queries to streams

A `Query` is turned into a stream by going down its predicate tree from the left.  Terms become
leaves, which a source supplies; conjunctions and disjunctions become composites; a negation or a
delayed part becomes a leaf that puts it off to the reading of documents, and is not entered.

A source has a state, since a scan may count or log.  The state a failed query leaves is that
after its last scan.
-/

namespace ShardSearch

/-- Supplies the leaf for a term: given the node, the field and the value, and its own state. -/
abbrev LeafSource (σ : Type) := NodeId → String → String → σ → Except Error Stream × σ

/-- A predicate tree and the settings under which it is searched. -/
structure Query where
  tree : PredicateTree
  config : EngineConfig
  deriving DecidableEq, Inhabited

namespace Query

variable {σ : Type}

/-- Makes a stream for each node in turn, up to the first that fails. -/
def streamsOf (make : NodeId → σ → Except Error Stream × σ) :
    List NodeId → σ → Except Error (List Stream) × σ
  | [], st => (.ok [], st)
  | id :: rest, st =>
    match make id st with
    | (.error e, st) => (.error e, st)
    | (.ok s, st) =>
      let (streams, st) := streamsOf make rest st
      (streams.map (s :: ·), st)

/-- The stream of a composite node: a single child stands for itself, and a composite without
    children is refused. -/
def combine (id : NodeId) (make : List Stream → Except Error Stream) :
    List Stream → Except Error Stream
  | [] => .error (.childlessComposite id)
  | [s] => .ok s
  | streams => make streams

/-- The stream for the part of a tree below `id`, looking at `levels` levels at most. -/
def streamWithin (t : PredicateTree) (source : LeafSource σ) :
    (levels : Nat) → NodeId → σ → Except Error Stream × σ
  | 0, id, st => (.error (.unknownNode id), st)
  | n + 1, id, st =>
    match t.node? id with
    | none => (.error (.unknownNode id), st)
    | some node =>
      match node.predicate with
      | .term field value => source id field value st
      | .and children =>
        let (streams, st) := streamsOf (streamWithin t source n) children st
        (streams.bind (combine id (Stream.intersect (some id))), st)
      | .or children =>
        let (streams, st) := streamsOf (streamWithin t source n) children st
        (streams.bind (combine id (Stream.unite (some id))), st)
      | .not _ => (.ok ((Stream.delayed (some id)).withLabel (t.describe id)), st)
      | .delayed _ => (.ok ((Stream.delayed (some id)).withLabel (t.describe id)), st)

/-- The stream for the part of the tree below `id`.  The settings are not looked at. -/
def streamAt (q : Query) (source : LeafSource σ) (id : NodeId) (st : σ) :
    Except Error Stream × σ :=
  streamWithin q.tree source q.tree.size id st

/-- The stream for the root of the tree.  The settings are checked first, then the root, before
    any leaf is asked for. -/
def stream (q : Query) (source : LeafSource σ) (st : σ) : Except Error Stream × σ :=
  match q.config.validate, q.tree.root with
  | .error e, _ => (.error e, st)
  | .ok (), none => (.error .noRoot, st)
  | .ok (), some root =>
    let (s, st) := q.streamAt source root st
    (s.map (fun s => if q.config.ancestorDedup then s.dropDescendants none else s), st)

end Query

end ShardSearch
