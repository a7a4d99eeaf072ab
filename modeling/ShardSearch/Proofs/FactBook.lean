import Mathlib.Data.Finset.Card
import ShardSearch.Proofs.IndexUpdate

/-!
# An index against a plain set of facts

A `FactBook` is what an index is an account of: the entries made, as one flat set, and the fields
that are indexed.  Whatever calls an index has been through, it answers as the book kept of these
calls does (`ShardIndex.after_answersAs`), for it holds the same entries and no level of it is
empty.
-/

namespace ShardSearch

/-- An entry of an index: in a shard, a uid holds a term. -/
structure Fact where
  field : String
  value : String
  shard : String
  uid : String
  deriving DecidableEq

/-- The entries made, and the fields that are indexed. -/
structure FactBook where
  facts : Finset Fact
  indexed : Finset String

namespace FactBook

/-- The book without entries. -/
def empty : FactBook := ⟨∅, ∅⟩

/-- The entries of one term. -/
def factsOf (book : FactBook) (field value : String) : Finset Fact :=
  book.facts.filter fun fact => fact.field = field ∧ fact.value = value

/-- What is known about a term: whether its field is indexed, and if so, whether it is held. -/
def status (book : FactBook) (field value : String) : TermStatus :=
  if field ∈ book.indexed then
    if (book.factsOf field value).Nonempty then .found else .missing
  else .unindexed

/-- The number of shards in which some uid holds a term. -/
def shardCount (book : FactBook) (field value : String) : Nat :=
  ((book.factsOf field value).image (·.shard)).card

end FactBook

/-- A call that changes an index. -/
inductive Update where
  | declareIndexed (field : String)
  | add (fact : Fact)
  | remove (fact : Fact)

/-- The index after a call. -/
def ShardIndex.update (ix : ShardIndex) : Update → ShardIndex
  | .declareIndexed field => ix.declareIndexed field
  | .add fact => (ix.add fact.field fact.value fact.shard fact.uid).2
  | .remove fact => (ix.remove fact.field fact.value fact.shard fact.uid).2

/-- The book after a call: an entry made indexes its field, and no entry removed takes that
    back. -/
def FactBook.update (book : FactBook) : Update → FactBook
  | .declareIndexed field => { book with indexed := insert field book.indexed }
  | .add fact => ⟨insert fact book.facts, insert fact.field book.indexed⟩
  | .remove fact => { book with facts := book.facts.erase fact }

/-- The index after some calls, from an empty one. -/
def ShardIndex.after (calls : List Update) : ShardIndex := calls.foldl update .empty

/-- The book after some calls, from an empty one. -/
def FactBook.after (calls : List Update) : FactBook := calls.foldl update .empty

/-- The index has come about by calls that the book was kept of. -/
structure ShardIndex.RecordedBy (ix : ShardIndex) (book : FactBook) : Prop where
  reachable : ix.Reachable
  isIndexed : ∀ field, ix.isIndexed field = true ↔ field ∈ book.indexed
  holds : ∀ field value shard uid,
    ix.holds field value shard uid = true ↔ ⟨field, value, shard, uid⟩ ∈ book.facts

namespace ShardIndex.RecordedBy

variable {ix : ShardIndex} {book : FactBook}

theorem empty : RecordedBy .empty .empty :=
  ⟨.empty, fun _ => ⟨nofun, nofun⟩, fun _ _ _ _ => ⟨nofun, nofun⟩⟩

/-- A call keeps the index and the book in step. -/
theorem update (h : ix.RecordedBy book) (call : Update) :
    (ix.update call).RecordedBy (book.update call) := by
  cases call with
  | declareIndexed field =>
    refine ⟨.declareIndexed field h.reachable, ?_, ?_⟩
    · intro field'
      rw [ShardIndex.update, isIndexed_declareIndexed, Bool.or_eq_true, beq_iff_eq, h.isIndexed,
        FactBook.update, Finset.mem_insert, eq_comm]
    · intro field' value' shard' uid'
      rw [ShardIndex.update, holds_declareIndexed]
      exact h.holds field' value' shard' uid'
  | add fact =>
    refine ⟨.add _ _ _ _ h.reachable, ?_, ?_⟩
    · intro field'
      rw [ShardIndex.update, isIndexed_add, Bool.or_eq_true, beq_iff_eq, h.isIndexed,
        FactBook.update, Finset.mem_insert, eq_comm]
    · intro field' value' shard' uid'
      rw [ShardIndex.update, holds_add, h.holds, FactBook.update, Finset.mem_insert, Fact.mk.injEq]
      simp only [eq_comm]
  | remove fact =>
    refine ⟨.remove _ _ _ _ h.reachable, ?_, ?_⟩
    · intro field'
      rw [ShardIndex.update, isIndexed_remove]
      exact h.isIndexed field'
    · intro field' value' shard' uid'
      rw [ShardIndex.update, holds_remove, h.holds, FactBook.update, Finset.mem_erase, ne_eq,
        Fact.mk.injEq]
      simp only [eq_comm]

/-- Calls one after the other keep the index and the book in step. -/
theorem after (calls : List Update) :
    (ShardIndex.after calls).RecordedBy (FactBook.after calls) := by
  have hfrom : ∀ ix book, RecordedBy ix book →
      RecordedBy (calls.foldl ShardIndex.update ix) (calls.foldl FactBook.update book) := by
    induction calls with
    | nil => exact fun ix book h => h
    | cons call calls ih => exact fun ix book h => ih _ _ (h.update call)
  exact hfrom .empty .empty .empty

/-! ## What the index answers -/

section Answers

variable (h : ix.RecordedBy book) {field value shard : String}

include h

/-- A shard is listed for a term if the book has an entry for the term there. -/
theorem mem_keys_shardsOf :
    shard ∈ (ix.shardsOf field value).keys ↔
      ∃ fact ∈ book.factsOf field value, fact.shard = shard := by
  have hlisted : shard ∈ (ix.shardsOf field value).keys ↔
      ∃ uid, ix.holds field value shard uid = true := by
    rw [← SortedMap.contains_iff_mem_keys, SortedMap.contains, Option.isSome_iff_exists]
    constructor
    · rintro ⟨posting, hget⟩
      obtain ⟨uid, huid⟩ := h.reachable.exists_uid hget
      exact ⟨uid, holds_iff_exists.2 ⟨posting, hget, huid⟩⟩
    · rintro ⟨uid, hholds⟩
      obtain ⟨posting, hget, -⟩ := holds_iff_exists.1 hholds
      exact ⟨posting, hget⟩
  rw [hlisted]
  constructor
  · rintro ⟨uid, hholds⟩
    have hmem := (h.holds field value shard uid).1 hholds
    exact ⟨_, Finset.mem_filter.2 ⟨hmem, rfl, rfl⟩, rfl⟩
  · rintro ⟨⟨field', value', shard', uid⟩, hfact, rfl⟩
    obtain ⟨hmem, rfl, rfl⟩ := Finset.mem_filter.1 hfact
    exact ⟨uid, (h.holds _ _ _ _).2 hmem⟩

theorem shardCount_eq : ix.shardCount field value = book.shardCount field value := by
  have hshards : (ix.shardsOf field value).keys.toFinset =
      (book.factsOf field value).image (·.shard) := by
    ext shard
    rw [List.mem_toFinset, h.mem_keys_shardsOf, Finset.mem_image]
  rw [FactBook.shardCount, ← hshards, List.toFinset_card_of_nodup (SortedMap.nodup_keys _)]
  exact (List.length_map _).symm

/-- A term can be looked up if the book has an entry for it. -/
theorem isSome_lookup? :
    (ix.lookup? field value).isSome ↔ (book.factsOf field value).Nonempty := by
  constructor
  · intro hsome
    obtain ⟨shards, hlookup⟩ := Option.isSome_iff_exists.1 hsome
    obtain ⟨shard, uid, hholds⟩ := h.reachable.exists_holds hlookup
    have hmem := (h.holds field value shard uid).1 hholds
    exact ⟨_, Finset.mem_filter.2 ⟨hmem, rfl, rfl⟩⟩
  · rintro ⟨⟨field', value', shard, uid⟩, hfact⟩
    obtain ⟨hmem, rfl, rfl⟩ := Finset.mem_filter.1 hfact
    obtain ⟨posting, hget, -⟩ := holds_iff_exists.1 ((h.holds _ _ _ _).2 hmem)
    rw [get?_shardsOf] at hget
    obtain ⟨shards, hlookup, -⟩ := Option.bind_eq_some_iff.1 hget
    rw [hlookup]
    rfl

theorem status_eq : ix.status field value = book.status field value :=
  if_congr (h.isIndexed field) (if_congr h.isSome_lookup? rfl rfl) rfl

/-- No term is listed without its field or without a shard, and no shard without a uid. -/
theorem levels_filled {term : Term} {shards : TermShards}
    (hterm : (term, shards) ∈ ix.terms.entries) :
    ix.isIndexed term.field = true ∧ shards.entries ≠ [] ∧
      ∀ shard posting, (shard, posting) ∈ shards.entries → posting.uids ≠ [] := by
  have hlookup : ix.lookup? term.field term.value = some shards :=
    SortedMap.get?_eq_some_iff.2 hterm
  refine ⟨h.reachable.isIndexed hlookup, ?_, ?_⟩
  · obtain ⟨shard, hshard⟩ :=
      SortedMap.isEmpty_eq_false_iff.1 (h.reachable.isEmpty_eq_false hlookup)
    rw [SortedMap.contains_iff_mem_keys] at hshard
    exact fun hnil => List.ne_nil_of_mem hshard (List.map_eq_nil_iff.2 hnil)
  · intro shard posting hposting
    have hget : (ix.shardsOf term.field term.value).get? shard = some posting := by
      rw [shardsOf_eq hlookup]
      exact SortedMap.get?_eq_some_iff.2 hposting
    obtain ⟨uid, huid⟩ := h.reachable.exists_uid hget
    exact List.ne_nil_of_mem (SortedMap.contains_iff_mem_keys.1 huid)

end Answers

end ShardIndex.RecordedBy

/-- The index answers every call as a plain set of facts does. -/
structure ShardIndex.AnswersAs (ix : ShardIndex) (book : FactBook) : Prop where
  /-- Adding tells whether the entry is new. -/
  add_iff : ∀ field value shard uid,
    (ix.add field value shard uid).1 = true ↔ ⟨field, value, shard, uid⟩ ∉ book.facts
  /-- Removing tells whether the entry was there. -/
  remove_iff : ∀ field value shard uid,
    (ix.remove field value shard uid).1 = true ↔ ⟨field, value, shard, uid⟩ ∈ book.facts
  /-- Removing what is not there leaves the index as it is, in every respect. -/
  remove_eq_self : ∀ field value shard uid,
    (ix.remove field value shard uid).1 = false → (ix.remove field value shard uid).2 = ix
  isIndexed_iff : ∀ field, ix.isIndexed field = true ↔ field ∈ book.indexed
  status_eq : ∀ field value, ix.status field value = book.status field value
  shardCount_eq : ∀ field value, ix.shardCount field value = book.shardCount field value
  /-- No term is listed without its field or without a shard, and no shard without a uid. -/
  levels_filled : ∀ term shards, (term, shards) ∈ ix.terms.entries →
    ix.isIndexed term.field = true ∧ shards.entries ≠ [] ∧
      ∀ shard posting, (shard, posting) ∈ shards.entries → posting.uids ≠ []

/-- After any calls that declare fields, add entries and remove them, the index answers as the
    plain set of facts and the plain set of fields that the calls come to. -/
theorem ShardIndex.after_answersAs (calls : List Update) :
    (ShardIndex.after calls).AnswersAs (FactBook.after calls) := by
  have h : (ShardIndex.after calls).RecordedBy (FactBook.after calls) := .after calls
  generalize ShardIndex.after calls = ix at h
  generalize FactBook.after calls = book at h
  refine ⟨?_, ?_, ?_, h.isIndexed, fun _ _ => h.status_eq, fun _ _ => h.shardCount_eq,
    fun _ _ => h.levels_filled⟩
  · intro field value shard uid
    rw [← h.holds, Bool.not_eq_true, ← Bool.not_eq_true']
    rfl
  · intro field value shard uid
    rw [ShardIndex.fst_remove, h.holds]
  · intro field value shard uid hout
    rw [ShardIndex.fst_remove] at hout
    exact h.reachable.remove_eq_self hout

end ShardSearch
