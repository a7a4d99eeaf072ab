import ShardSearch.Index.PostingList
import ShardSearch.Index.ScanStats

/-!
# The sharded field index

A `ShardIndex` answers, for a term `field == value`, which shards hold it and which uids hold it
there.  It keeps two collections: the fields that are indexed, whether or not any term was added,
and the terms that some uid holds, each with its shards.  That a term is listed only if its field
is indexed, and a shard only if a uid holds the term there, is for the updates to see to.
-/

namespace ShardSearch

/-- What looking a term up says about it. -/
inductive TermStatus where
  /-- The field has no index, so the term cannot be scanned. -/
  | unindexed
  /-- The field has an index, but no shard holds the term. -/
  | missing
  /-- Some shard holds the term. -/
  | found
  deriving DecidableEq, Inhabited

/-- A field and a value. -/
structure Term where
  field : String
  value : String
  deriving DecidableEq, Inhabited

namespace Term

/-- Terms come in the order of their fields, and those of one field in the order of their
    values. -/
instance : LT Term := ⟨fun s t => s.field < t.field ∨ s.field = t.field ∧ s.value < t.value⟩

instance : DecidableLT Term := fun s t =>
  inferInstanceAs (Decidable (s.field < t.field ∨ s.field = t.field ∧ s.value < t.value))

instance : StrictOrder Term where
  irrefl t := by
    rintro (h | ⟨-, h⟩)
    · exact String.lt_irrefl _ h
    · exact String.lt_irrefl _ h
  trans := by
    rintro ⟨f, v⟩ ⟨f', v'⟩ ⟨f'', v''⟩ (h | ⟨rfl, h⟩) (h' | ⟨rfl, h'⟩)
    · exact .inl (String.lt_trans h h')
    · exact .inl h
    · exact .inl h'
    · exact .inr ⟨rfl, String.lt_trans h h'⟩
  eq_of_not_lt := by
    rintro ⟨f, v⟩ ⟨f', v'⟩ h h'
    obtain rfl : f = f' := StrictOrder.eq_of_not_lt (fun hf => h (.inl hf)) fun hf => h' (.inl hf)
    obtain rfl : v = v' :=
      StrictOrder.eq_of_not_lt (fun hv => h (.inr ⟨rfl, hv⟩)) fun hv => h' (.inr ⟨rfl, hv⟩)
    rfl

end Term

/-- The shards that hold one term, each with the uids that hold it there. -/
abbrev TermShards := SortedMap String PostingList

/-- The fields that are indexed, the terms that are held, and a count of the scans made. -/
structure ShardIndex where
  indexed : SortedMap String Unit
  terms : SortedMap Term TermShards
  stats : ScanStats
  deriving DecidableEq, Inhabited

namespace ShardIndex

/-- The index of no field. -/
def empty : ShardIndex := ⟨.empty, .empty, .zero⟩

/-- Whether a field is indexed. -/
def isIndexed (ix : ShardIndex) (field : String) : Bool := ix.indexed.contains field

/-- The shards that hold a term, if it is held at all. -/
def lookup? (ix : ShardIndex) (field value : String) : Option TermShards :=
  ix.terms.get? ⟨field, value⟩

/-- The shards that hold a term. -/
def shardsOf (ix : ShardIndex) (field value : String) : TermShards :=
  (ix.lookup? field value).getD .empty

/-- The uids that hold a term in one shard. -/
def postingOf (ix : ShardIndex) (field value shard : String) : PostingList :=
  ((ix.shardsOf field value).get? shard).getD .empty

/-- Whether a uid holds a term in a shard. -/
def holds (ix : ShardIndex) (field value shard uid : String) : Bool :=
  (ix.postingOf field value shard).contains uid

/-- What is known about a term without scanning it. -/
def status (ix : ShardIndex) (field value : String) : TermStatus :=
  if ix.isIndexed field then
    if (ix.lookup? field value).isSome then .found else .missing
  else .unindexed

/-- The number of shards that hold a term. -/
def shardCount (ix : ShardIndex) (field value : String) : Nat := (ix.shardsOf field value).size

/-- Gives a field an index, if it has none. -/
def declareIndexed (ix : ShardIndex) (field : String) : ShardIndex :=
  { ix with indexed := ix.indexed.insert field () }

/-- Enters a uid under a term in a shard; the field is indexed from now on.  Tells whether the
    entry is new. -/
def add (ix : ShardIndex) (field value shard uid : String) : Bool × ShardIndex :=
  let shards := ix.shardsOf field value
  let (new, posting) := ((shards.get? shard).getD .empty).add uid
  (new,
    { ix with
      indexed := ix.indexed.insert field ()
      terms := ix.terms.insert ⟨field, value⟩ (shards.insert shard posting) })

/-- Takes a uid out of a term in a shard, and with it the shard and the term that are left with
    nothing; the field stays indexed.  Tells whether the entry was there. -/
def remove (ix : ShardIndex) (field value shard uid : String) : Bool × ShardIndex :=
  match ix.lookup? field value with
  | none => (false, ix)
  | some shards =>
    match shards.get? shard with
    | none => (false, ix)
    | some posting =>
      let (removed, posting) := posting.remove uid
      let shards := if posting.isEmpty then shards.erase shard else shards.insert shard posting
      let terms :=
        if shards.isEmpty then ix.terms.erase ⟨field, value⟩
        else ix.terms.insert ⟨field, value⟩ shards
      (removed, { ix with terms })

/-- Starts the counts anew, and tells what they were. -/
def clearStats (ix : ShardIndex) : ScanStats × ShardIndex := (ix.stats, { ix with stats := .zero })

end ShardIndex

end ShardSearch
