import ShardSearch.SortedMap

/-!
# Posting lists
-/

namespace ShardSearch

/-- The uids that hold a term within one shard, in order. -/
structure PostingList where
  members : SortedMap String Unit
  deriving DecidableEq, Inhabited

namespace PostingList

/-- The list without uids. -/
def empty : PostingList := ⟨.empty⟩

/-- Whether `uid` is listed. -/
def contains (p : PostingList) (uid : String) : Bool := p.members.contains uid

/-- The uids, in order. -/
def uids (p : PostingList) : List String := p.members.keys

/-- The number of uids. -/
def size (p : PostingList) : Nat := p.members.size

/-- Whether no uid is listed. -/
def isEmpty (p : PostingList) : Bool := p.members.isEmpty

/-- Lists `uid`. -/
def insert (p : PostingList) (uid : String) : PostingList := ⟨p.members.insert uid ()⟩

/-- Drops `uid` from the list. -/
def erase (p : PostingList) (uid : String) : PostingList := ⟨p.members.erase uid⟩

/-- Lists `uid`, and tells whether it is new. -/
def add (p : PostingList) (uid : String) : Bool × PostingList := (!p.contains uid, p.insert uid)

/-- Drops `uid`, and tells whether it was listed. -/
def remove (p : PostingList) (uid : String) : Bool × PostingList := (p.contains uid, p.erase uid)

theorem contains_insert (p : PostingList) (u v : String) :
    (p.insert u).contains v = (u == v || p.contains v) :=
  p.members.contains_insert u v ()

theorem contains_erase (p : PostingList) (u v : String) :
    (p.erase u).contains v = (u != v && p.contains v) :=
  p.members.contains_erase u v

/-- Dropping a uid that is not listed changes nothing. -/
theorem erase_eq_self {p : PostingList} {u : String} (h : p.contains u = false) :
    p.erase u = p := by
  refine congrArg PostingList.mk (SortedMap.alter_eq_self ?_)
  cases hget : p.members.get? u with
  | none => rfl
  | some v => rw [contains, SortedMap.contains, hget] at h; cases h

end PostingList

end ShardSearch
