import ShardSearch.Predicate.Tree
import ShardSearch.SortedMap

/-!
# Looking at a predicate tree

The depth, the fields and the text of the part of a tree below a node.  The depth and the text go
down as many levels as the tree has nodes, and no path is longer than that, since every child comes
before its parent.  The fields are found by a search, which ends for the same reason.
-/

namespace ShardSearch

/-- The field that a term asks for. -/
def Predicate.field? : Predicate → Option String
  | term field _ => some field
  | and _ | or _ | not _ | delayed _ => none

namespace PredicateTree

/-- The number of nodes on a longest path down from `id`, looking at `levels` levels at most. -/
def depthWithin (t : PredicateTree) : (levels : Nat) → NodeId → Nat
  | 0, _ => 0
  | n + 1, id =>
    match t.node? id with
    | none => 0
    | some node => 1 + (node.predicate.children.map (t.depthWithin n)).foldl max 0

/-- The number of nodes on a longest path down from `id`; none for an unknown name. -/
def depth (t : PredicateTree) (id : NodeId) : Nat := t.depthWithin t.size id

/-- Looks for the fields of terms.  Of the pending nodes the first is taken up next; the field of a
    term is added to those found, and the children of a node are pending from then on, the last of
    them in front.  A node that is met again is taken up again.  There is no answer if the search
    does not come to an end. -/
def fieldsFrom (t : PredicateTree) (found : SortedMap String Unit) :
    (pending : List NodeId) → Option (SortedMap String Unit)
  | [] => some found
  | id :: pending =>
    match t.node? id with
    | none => t |>.fieldsFrom found pending
    | some node =>
      t |>.fieldsFrom (node.predicate.field?.elim found (found.insert · ()))
        (node.predicate.children.reverse ++ pending)
partial_fixpoint

/-- The fields of the terms below `id`, each once and in order. -/
def fields (t : PredicateTree) (id : NodeId) : List String :=
  ((t.fieldsFrom .empty [id]).getD .empty).keys

/-- How a term reads. -/
def termText (field value : String) : String := field ++ " == '" ++ value ++ "'"

/-- How a name without a node reads. -/
def missingText (id : NodeId) : String := "<missing " ++ toString id ++ ">"

/-- How the part of the tree below `id` reads, looking at `levels` levels at most. -/
def describeWithin (t : PredicateTree) : (levels : Nat) → NodeId → String
  | 0, id => missingText id
  | n + 1, id =>
    match t.node? id with
    | none => missingText id
    | some node =>
      match node.predicate with
      | .term field value => termText field value
      | .and children => "(" ++ " && ".intercalate (children.map (t.describeWithin n)) ++ ")"
      | .or children => "(" ++ " || ".intercalate (children.map (t.describeWithin n)) ++ ")"
      | .not child => "!(" ++ t.describeWithin n child ++ ")"
      | .delayed child => "delayed(" ++ t.describeWithin n child ++ ")"

/-- How the part of the tree below `id` reads. -/
def describe (t : PredicateTree) (id : NodeId) : String := t.describeWithin t.size id

end PredicateTree

end ShardSearch
