import ShardSearch.MatchSet.Basic

/-!
# Descendants of documents already found

In a store of nested documents the uid of a document occurs within the uids of its descendants.
`MatchSet.removeOverlapping` visits the records in uid order and drops one whose uid contains the
uid of a record kept earlier for the same node.
-/

namespace ShardSearch

/-- Whether `xs` stands somewhere within a text. -/
def occursIn (xs : List Char) : List Char → Bool
  | [] => xs.isEmpty
  | y :: ys => xs.isPrefixOf (y :: ys) || occursIn xs ys

theorem occursIn_iff_infix {xs ys : List Char} : occursIn xs ys = true ↔ xs <:+: ys := by
  induction ys with
  | nil => simp [occursIn]
  | cons y ys ih => simp [occursIn, ih, List.infix_cons_iff]

/-- Whether `a` is credited to the node of `r` and its uid stands within the uid of `r`. -/
def MatchRecord.covers (a r : MatchRecord) : Bool :=
  a.node == r.node && occursIn a.uid.toList r.uid.toList

/-- Goes through records in order and keeps each that no record kept before covers; `kept` are
    those kept so far. -/
def keepUncovered (kept : List MatchRecord) : List MatchRecord → List MatchRecord
  | [] => []
  | r :: rest =>
    if kept.any (·.covers r) then keepUncovered kept rest
    else r :: keepUncovered (r :: kept) rest

/-- Drops the records whose document lies below another one of the same node, found earlier in uid
    order.  Shard, node and the infinite mark stay. -/
def MatchSet.removeOverlapping (s : MatchSet) : MatchSet :=
  let kept := keepUncovered [] s.records
  s.filter (· ∈ kept)

end ShardSearch
