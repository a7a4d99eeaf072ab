import ShardSearch.Index.Basic

/-!
# What updates do to an index

An update changes the uids of one term in one shard and leaves all others alone (`get?_add`,
`get?_remove`).  A `Reachable` index lists a shard for a term only while some uid holds the term
there (`Reachable.exists_uid`), and a term only if its field is indexed (`Reachable.isIndexed`):
nothing in its two collections says so, but every update sees to it.
-/

namespace ShardSearch

namespace SortedMap

variable {α : Type}

/-- A map that is made where there is none has nothing to look up yet. -/
theorem get?_getD_empty (m : Option (SortedMap String α)) (k : String) :
    (m.getD .empty).get? k = m.bind (·.get? k) := by
  cases m <;> rfl

/-- A map that is dropped for being empty has nothing to look up any more. -/
theorem bind_get?_filter (m : Option (SortedMap String α)) (k : String) :
    (m.filter (!·.isEmpty)).bind (·.get? k) = m.bind (·.get? k) := by
  match m with
  | none => rfl
  | some ⟨[], _⟩ => rfl
  | some ⟨_ :: _, _⟩ => rfl

/-- To erase or to insert, as a value is empty or not, is to bind it if it is not. -/
theorem erase_or_insert {κ : Type} [LT κ] [DecidableEq κ] [DecidableLT κ] [StrictOrder κ]
    (m : SortedMap κ α) (k : κ) (v : α) (isEmpty : α → Bool) :
    (if isEmpty v then m.erase k else m.insert k v) =
      m.alter k fun _ => (some v).filter (!isEmpty ·) := by
  cases h : isEmpty v <;> simp [h, erase, insert, Option.filter]

end SortedMap

theorem PostingList.isEmpty_eq_false_iff {p : PostingList} :
    p.isEmpty = false ↔ ∃ uid, p.contains uid = true :=
  SortedMap.isEmpty_eq_false_iff

/-- A posting list that is dropped for being empty lists nothing any more. -/
theorem PostingList.contains_getD_filter (p : Option PostingList) (uid : String) :
    ((p.filter (!·.isEmpty)).getD .empty).contains uid = (p.getD .empty).contains uid := by
  match p with
  | none => rfl
  | some ⟨⟨[], _⟩⟩ => rfl
  | some ⟨⟨_ :: _, _⟩⟩ => rfl

namespace ShardIndex

variable {ix : ShardIndex} {field value shard field' value' shard' : String}

/-- The uids of a term in a shard are those of the shard in the term, if it is held at all. -/
theorem get?_shardsOf (ix : ShardIndex) (field value shard : String) :
    (ix.shardsOf field value).get? shard = (ix.lookup? field value).bind (·.get? shard) :=
  SortedMap.get?_getD_empty _ shard

theorem shardsOf_eq {shards : TermShards} (h : ix.lookup? field value = some shards) :
    ix.shardsOf field value = shards := by
  rw [shardsOf, h]
  rfl

/-! ## What an update does to the fields -/

theorem isIndexed_declareIndexed :
    (ix.declareIndexed field).isIndexed field' = (field == field' || ix.isIndexed field') :=
  ix.indexed.contains_insert field field' ()

theorem isIndexed_add (uid : String) :
    (ix.add field value shard uid).2.isIndexed field' = (field == field' || ix.isIndexed field') :=
  ix.indexed.contains_insert field field' ()

/-! ## What an update does to the shards of a term -/

/-- Nothing is removed from a term that the shard does not hold. -/
theorem remove_of_get?_eq_none {uid : String}
    (h : (ix.shardsOf field value).get? shard = none) :
    ix.remove field value shard uid = (false, ix) := by
  rw [get?_shardsOf] at h
  unfold remove
  cases hlookup : ix.lookup? field value with
  | none => rfl
  | some shards =>
    rw [hlookup] at h
    simp only [Option.bind_some] at h
    simp only [h]

/-- Removing an entry keeps its term only if a shard of it is left, and the shard of the entry
    only if a uid is left there. -/
theorem remove_of_get?_eq_some {uid : String} {shards : TermShards} {posting : PostingList}
    (hlookup : ix.lookup? field value = some shards) (hget : shards.get? shard = some posting) :
    ix.remove field value shard uid =
      (posting.contains uid,
        { ix with
          terms := ix.terms.alter ⟨field, value⟩ fun _ =>
            (some (shards.alter shard fun _ =>
              (some (posting.erase uid)).filter (!·.isEmpty))).filter (!·.isEmpty) }) := by
  rw [← SortedMap.erase_or_insert ix.terms, ← SortedMap.erase_or_insert shards, remove, hlookup]
  simp only [hget]
  rfl

/-- Removing tells whether the entry was there. -/
theorem fst_remove (uid : String) :
    (ix.remove field value shard uid).1 = ix.holds field value shard uid := by
  rw [holds, postingOf]
  cases hget : (ix.shardsOf field value).get? shard with
  | none =>
    rw [remove_of_get?_eq_none hget]
    rfl
  | some posting =>
    rw [get?_shardsOf] at hget
    obtain ⟨shards, hlookup, hget⟩ := Option.bind_eq_some_iff.1 hget
    rw [remove_of_get?_eq_some hlookup hget]
    rfl

/-- Removing an entry leaves the fields that are indexed as they are. -/
theorem isIndexed_remove (uid : String) :
    (ix.remove field value shard uid).2.isIndexed field' = ix.isIndexed field' := by
  unfold remove
  cases ix.lookup? field value with
  | none => rfl
  | some shards =>
    simp only
    cases shards.get? shard <;> rfl

theorem lookup?_declareIndexed :
    (ix.declareIndexed field).lookup? field' value' = ix.lookup? field' value' :=
  rfl

/-- Adding an entry makes its term one that is held, in the shard of the entry among others. -/
theorem lookup?_add (uid : String) :
    (ix.add field value shard uid).2.lookup? field' value' =
      if field = field' ∧ value = value' then
        some ((ix.shardsOf field value).insert shard
          ((((ix.shardsOf field value).get? shard).getD .empty).insert uid))
      else ix.lookup? field' value' := by
  simp only [lookup?, add, PostingList.add, SortedMap.get?_insert, Term.mk.injEq]

/-- A term that is looked up after an entry was removed was held before, and if it is the term of
    the entry, a shard of it is left. -/
theorem lookup?_of_remove {uid : String} {shards : TermShards}
    (h : (ix.remove field value shard uid).2.lookup? field' value' = some shards) :
    ix.lookup? field' value' = some shards ∨
      (ix.lookup? field' value').isSome ∧ shards.isEmpty = false := by
  cases hget : (ix.shardsOf field value).get? shard with
  | none =>
    rw [remove_of_get?_eq_none hget] at h
    exact .inl h
  | some posting =>
    rw [get?_shardsOf] at hget
    obtain ⟨before, hlookup, hget⟩ := Option.bind_eq_some_iff.1 hget
    rw [remove_of_get?_eq_some hlookup hget] at h
    simp only [lookup?, SortedMap.get?_alter, Term.mk.injEq] at h
    split at h
    · next hterm =>
      obtain ⟨rfl, rfl⟩ := hterm
      refine .inr ⟨by simp [hlookup], ?_⟩
      have hkept := Option.filter_eq_some_iff.1 h
      simpa using hkept.2
    · exact .inl h

/-! ## What an update does to the uids of a term in a shard -/

theorem get?_declareIndexed :
    ((ix.declareIndexed field).shardsOf field' value').get? shard' =
      (ix.shardsOf field' value').get? shard' := by
  rw [get?_shardsOf, get?_shardsOf, lookup?_declareIndexed]

/-- Adding an entry adds the uid to those of its term in its shard. -/
theorem get?_add (uid : String) :
    ((ix.add field value shard uid).2.shardsOf field' value').get? shard' =
      if field = field' ∧ value = value' ∧ shard = shard' then
        some ((((ix.shardsOf field value).get? shard).getD .empty).insert uid)
      else (ix.shardsOf field' value').get? shard' := by
  rw [get?_shardsOf, lookup?_add, get?_shardsOf ix field']
  by_cases hterm : field = field' ∧ value = value'
  · obtain ⟨rfl, rfl⟩ := hterm
    by_cases hshard : shard = shard' <;> simp [hshard, SortedMap.get?_insert, get?_shardsOf]
  · rw [if_neg hterm, if_neg fun h => hterm ⟨h.1, h.2.1⟩]

/-- Removing an entry drops the uid from those of its term in its shard, and drops the shard if
    none is left. -/
theorem get?_remove (uid : String) :
    ((ix.remove field value shard uid).2.shardsOf field' value').get? shard' =
      if field = field' ∧ value = value' ∧ shard = shard' then
        (((ix.shardsOf field value).get? shard).map (·.erase uid)).filter (!·.isEmpty)
      else (ix.shardsOf field' value').get? shard' := by
  cases hget : (ix.shardsOf field value).get? shard with
  | none =>
    rw [remove_of_get?_eq_none hget]
    split
    · next h =>
      obtain ⟨rfl, rfl, rfl⟩ := h
      exact hget
    · rfl
  | some posting =>
    rw [get?_shardsOf] at hget
    obtain ⟨shards, hlookup, hget⟩ := Option.bind_eq_some_iff.1 hget
    rw [remove_of_get?_eq_some hlookup hget, get?_shardsOf, get?_shardsOf ix field']
    simp only [lookup?, SortedMap.get?_alter, Term.mk.injEq]
    by_cases hterm : field = field' ∧ value = value'
    · obtain ⟨rfl, rfl⟩ := hterm
      rw [if_pos ⟨rfl, rfl⟩, SortedMap.bind_get?_filter]
      have hterms : ix.terms.get? ⟨field, value⟩ = some shards := hlookup
      by_cases hshard : shard = shard' <;> simp [hshard, hterms, SortedMap.get?_alter]
    · rw [if_neg hterm, if_neg fun h => hterm ⟨h.1, h.2.1⟩]

/-! ## Which entries an index holds -/

theorem holds_iff_exists {uid : String} :
    ix.holds field value shard uid = true ↔
      ∃ posting, (ix.shardsOf field value).get? shard = some posting ∧
        posting.contains uid = true := by
  rw [holds, postingOf]
  cases (ix.shardsOf field value).get? shard with
  | none => simp [PostingList.contains, PostingList.empty, SortedMap.contains]
  | some posting => simp

theorem holds_declareIndexed {uid : String} :
    (ix.declareIndexed field).holds field' value' shard' uid =
      ix.holds field' value' shard' uid := by
  rw [holds, postingOf, get?_declareIndexed]
  rfl

/-- Adding an entry adds this one and no other. -/
theorem holds_add {uid uid' : String} :
    (ix.add field value shard uid).2.holds field' value' shard' uid' = true ↔
      (field = field' ∧ value = value' ∧ shard = shard' ∧ uid = uid') ∨
        ix.holds field' value' shard' uid' = true := by
  rw [holds, postingOf, get?_add]
  split
  · next h =>
    obtain ⟨rfl, rfl, rfl⟩ := h
    simp [PostingList.contains_insert, holds, postingOf]
  · next h =>
    refine ⟨.inr, ?_⟩
    rintro (⟨hfield, hvalue, hshard, -⟩ | hholds)
    · exact absurd ⟨hfield, hvalue, hshard⟩ h
    · exact hholds

/-- Removing an entry removes this one and no other. -/
theorem holds_remove {uid uid' : String} :
    (ix.remove field value shard uid).2.holds field' value' shard' uid' = true ↔
      ¬ (field = field' ∧ value = value' ∧ shard = shard' ∧ uid = uid') ∧
        ix.holds field' value' shard' uid' = true := by
  rw [holds, postingOf, get?_remove]
  split
  · next h =>
    obtain ⟨rfl, rfl, rfl⟩ := h
    rw [PostingList.contains_getD_filter, holds, postingOf]
    cases (ix.shardsOf field value).get? shard with
    | none => simp [PostingList.contains, PostingList.empty, SortedMap.contains]
    | some posting => simp [PostingList.contains_erase]
  · next h =>
    refine ⟨fun hholds => ⟨?_, hholds⟩, And.right⟩
    rintro ⟨hfield, hvalue, hshard, -⟩
    exact h ⟨hfield, hvalue, hshard⟩

/-! ## Indexes that can come about -/

/-- The indexes that can come about: by declaring fields, by adding and removing entries, and by
    scans being counted. -/
inductive Reachable : ShardIndex → Prop where
  | empty : Reachable .empty
  | declareIndexed {ix : ShardIndex} (field : String) (before : Reachable ix) :
      Reachable (ix.declareIndexed field)
  | add {ix : ShardIndex} (field value shard uid : String) (before : Reachable ix) :
      Reachable (ix.add field value shard uid).2
  | remove {ix : ShardIndex} (field value shard uid : String) (before : Reachable ix) :
      Reachable (ix.remove field value shard uid).2
  | counted {ix : ShardIndex} (stats : ScanStats) (before : Reachable ix) :
      Reachable { ix with stats }

/-- A shard is listed for a term only if some uid holds the term there. -/
theorem Reachable.exists_uid (h : ix.Reachable) {posting : PostingList}
    (hget : (ix.shardsOf field value).get? shard = some posting) :
    ∃ uid, posting.contains uid = true := by
  induction h generalizing field value shard posting with
  | empty => cases hget
  | declareIndexed field' before ih =>
    rw [get?_declareIndexed] at hget
    exact ih hget
  | add field' value' shard' uid before ih =>
    rw [get?_add] at hget
    split at hget
    · cases hget
      exact ⟨uid, by simp [PostingList.contains_insert]⟩
    · exact ih hget
  | remove field' value' shard' uid before ih =>
    rw [get?_remove] at hget
    split at hget
    · have hkept := (Option.filter_eq_some_iff.1 hget).2
      exact PostingList.isEmpty_eq_false_iff.1 (by simpa using hkept)
    · exact ih hget
  | counted stats before ih => exact ih hget

/-- A term is looked up to some shards only if there are any. -/
theorem Reachable.isEmpty_eq_false (h : ix.Reachable) {shards : TermShards}
    (hlookup : ix.lookup? field value = some shards) : shards.isEmpty = false := by
  induction h generalizing field value shards with
  | empty => cases hlookup
  | declareIndexed field' before ih => exact ih hlookup
  | add field' value' shard' uid before ih =>
    rw [lookup?_add] at hlookup
    split at hlookup
    · cases hlookup
      refine SortedMap.isEmpty_eq_false_iff.2 ⟨shard', ?_⟩
      rw [SortedMap.contains, SortedMap.get?_insert, if_pos rfl]
      rfl
    · exact ih hlookup
  | remove field' value' shard' uid before ih =>
    rcases lookup?_of_remove hlookup with hsame | ⟨-, hleft⟩
    · exact ih hsame
    · exact hleft
  | counted stats before ih => exact ih hlookup

/-- A term is listed only if its field is indexed. -/
theorem Reachable.isIndexed (h : ix.Reachable) {shards : TermShards}
    (hlookup : ix.lookup? field value = some shards) : ix.isIndexed field = true := by
  induction h generalizing field value shards with
  | empty => cases hlookup
  | declareIndexed field' before ih => simp [isIndexed_declareIndexed, ih hlookup]
  | add field' value' shard' uid before ih =>
    rw [lookup?_add] at hlookup
    rw [isIndexed_add]
    split at hlookup
    · next hterm => simp [hterm.1]
    · simp [ih hlookup]
  | remove field' value' shard' uid before ih =>
    rw [isIndexed_remove]
    rcases lookup?_of_remove hlookup with hsame | ⟨hheld, -⟩
    · exact ih hsame
    · obtain ⟨before, hbefore⟩ := Option.isSome_iff_exists.1 hheld
      exact ih hbefore
  | counted stats before ih => exact ih hlookup

/-- A term is looked up to some shards only if some uid holds it somewhere. -/
theorem Reachable.exists_holds (h : ix.Reachable) {shards : TermShards}
    (hlookup : ix.lookup? field value = some shards) :
    ∃ shard uid, ix.holds field value shard uid = true := by
  obtain ⟨shard, hshard⟩ := SortedMap.isEmpty_eq_false_iff.1 (h.isEmpty_eq_false hlookup)
  obtain ⟨posting, hget⟩ := Option.isSome_iff_exists.1 hshard
  rw [← shardsOf_eq hlookup] at hget
  obtain ⟨uid, huid⟩ := h.exists_uid hget
  exact ⟨shard, uid, holds_iff_exists.2 ⟨posting, hget, huid⟩⟩

/-- Removing an entry that is not there leaves the index as it is: nothing is dropped, for
    nothing is empty. -/
theorem Reachable.remove_eq_self (h : ix.Reachable) {uid : String}
    (hout : ix.holds field value shard uid = false) :
    (ix.remove field value shard uid).2 = ix := by
  cases hget : (ix.shardsOf field value).get? shard with
  | none => rw [remove_of_get?_eq_none hget]
  | some posting =>
    have hposting : posting.erase uid = posting := by
      apply PostingList.erase_eq_self
      rw [← hout, holds, postingOf, hget]
      rfl
    have huids : posting.isEmpty = false := PostingList.isEmpty_eq_false_iff.2 (h.exists_uid hget)
    rw [get?_shardsOf] at hget
    obtain ⟨shards, hlookup, hget⟩ := Option.bind_eq_some_iff.1 hget
    have hshards : (shards.alter shard fun _ =>
        (some (posting.erase uid)).filter (!·.isEmpty)) = shards := by
      apply SortedMap.alter_eq_self
      simp [hposting, huids, hget]
    have hterms : (ix.terms.alter ⟨field, value⟩ fun _ => (some shards).filter (!·.isEmpty)) =
        ix.terms := by
      apply SortedMap.alter_eq_self
      rw [← lookup?, hlookup]
      simp [h.isEmpty_eq_false hlookup]
    rw [remove_of_get?_eq_some hlookup hget, hshards, hterms]

end ShardIndex

end ShardSearch
