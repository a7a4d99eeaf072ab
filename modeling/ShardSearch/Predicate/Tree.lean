import ShardSearch.Error

/-!
# Predicate trees

A `PredicateTree` holds the nodes of a query.  A node is made over nodes that are there already,
so every child comes before its parent and no node lies below itself.  Nodes may be shared.
-/

namespace ShardSearch

/-- What a predicate node says about a document. -/
inductive Predicate where
  /-- The field has the value. -/
  | term (field value : String)
  /-- All children hold. -/
  | and (children : List NodeId)
  /-- Some child holds. -/
  | or (children : List NodeId)
  /-- The child does not hold. -/
  | not (child : NodeId)
  /-- The child holds; to be checked against the document itself. -/
  | delayed (child : NodeId)
  deriving DecidableEq, Inhabited

/-- The nodes a predicate is made over. -/
def Predicate.children : Predicate → List NodeId
  | term _ _ => []
  | and children => children
  | or children => children
  | not child => [child]
  | delayed child => [child]

/-- A node of a predicate tree, with its own name. -/
structure PredicateNode where
  id : NodeId
  predicate : Predicate
  deriving DecidableEq, Inhabited

/-- The nodes of a query in the order they were made, and the one that is asked for. -/
structure PredicateTree where
  nodes : List PredicateNode
  root : Option NodeId
  deriving DecidableEq, Inhabited

namespace PredicateTree

/-- The tree without nodes. -/
def empty : PredicateTree := ⟨[], none⟩

/-- The number of nodes. -/
def size (t : PredicateTree) : Nat := t.nodes.length

/-- Whether there is no node. -/
def isEmpty (t : PredicateTree) : Bool := t.nodes.isEmpty

/-- The node of a name. -/
def node? (t : PredicateTree) (id : NodeId) : Option PredicateNode := t.nodes[id.index]?

/-- Whether a node has this name. -/
def contains (t : PredicateTree) (id : NodeId) : Bool := id.index < t.size

/-- The name of the node that comes after `count` others.  A place is written with 32 bits. -/
def nextId (count : Nat) : Except Error NodeId :=
  if count < UInt32.size then .ok ⟨count⟩ else .error (.treeFull count)

/-- Adds a node.  If a child is not in the tree, the first such child is reported; if all are and
    there is no name left, that is.  The tree then stays as it is. -/
def add (t : PredicateTree) (predicate : Predicate) : Except Error NodeId × PredicateTree :=
  match predicate.children.find? (!t.contains ·) with
  | some child => (.error (.unknownNode child), t)
  | none =>
    match nextId t.size with
    | .error e => (.error e, t)
    | .ok id => (.ok id, { t with nodes := t.nodes ++ [⟨id, predicate⟩] })

/-- Chooses the node that is asked for.  An unknown one is reported and the tree stays as it
    is. -/
def setRoot (t : PredicateTree) (id : NodeId) : Except Error Unit × PredicateTree :=
  if t.contains id then (.ok (), { t with root := some id }) else (.error (.unknownNode id), t)

end PredicateTree

end ShardSearch
