import ShardSearch.Index.Scan
import ShardSearch.Proofs.DayOrder
import ShardSearch.Proofs.MatchSets

/-!
# What a scan hands out

Neither the skip to the first day of the range nor the stop behind its last one loses a shard:
a scan hands out one set for each shard that holds the term and is asked for (`sets_openScan`).
-/

namespace ShardSearch

namespace ScanOptions

variable {o : ScanOptions} {s t : String}

theorem not_admits_of_isPastEnd (hst : s ≤ t) (h : o.isPastEnd s = true) : o.admits t = false := by
  obtain ⟨_ | r, threshold⟩ := o
  · cases h
  · exact ShardRange.not_contains_of_isPastEnd hst h

end ScanOptions

namespace TermScan

variable {node : Option NodeId} {o : ScanOptions} {shard uid : String} {posting : PostingList}

/-- In ascending shards nothing is asked for behind the first shard past the end. -/
theorem setsOf_eq {shards : List (String × PostingList)}
    (h : shards.Pairwise (fun a b => a.1 < b.1)) :
    setsOf node o shards =
      (shards.filter (o.admits ·.1)).map fun e => setOf node o e.1 e.2 := by
  induction shards with
  | nil => rfl
  | cons e shards ih =>
    obtain ⟨shard, posting⟩ := e
    obtain ⟨hlt, hshards⟩ := List.pairwise_cons.1 h
    rw [setsOf]
    split
    · next hpast =>
      have hnone : ((shard, posting) :: shards).filter (o.admits ·.1) = [] := by
        apply List.filter_eq_nil_iff.2
        intro e he
        rw [Bool.not_eq_true]
        rcases List.mem_cons.1 he with rfl | he
        · exact ScanOptions.not_admits_of_isPastEnd (String.le_refl shard) hpast
        · exact ScanOptions.not_admits_of_isPastEnd (Std.le_of_lt (hlt e he)) hpast
      rw [hnone]
      rfl
    · rw [List.filter_cons]
      split
      · rw [List.map_cons, ih hshards]
      · exact ih hshards

@[simp] theorem shard_setOf : (setOf node o shard posting).shard = shard := by
  unfold setOf
  split <;> simp [MatchSet.everything, MatchSet.ofUids]

@[simp] theorem infinite_setOf :
    (setOf node o shard posting).infinite = o.isOverThreshold posting := by
  unfold setOf
  split <;> simp_all [MatchSet.everything, MatchSet.ofUids]

theorem creditIn_map_mk (uids : List String) :
    creditIn uid (uids.map fun u => ⟨u, node⟩) = if uid ∈ uids then some node else none := by
  induction uids with
  | nil => rfl
  | cons u uids ih =>
    rw [List.map_cons, creditIn_cons, ih]
    by_cases h : u = uid
    · simp [h]
    · simp [h, Ne.symm h]


/-- A shard that is enumerated credits each uid of the term to the node. -/
theorem get?_setOf (h : o.isOverThreshold posting = false) :
    (setOf node o shard posting).credits.get? uid =
      if posting.contains uid then some node else none := by
  rw [setOf, if_neg (by simp [h]), MatchSet.ofUids, MatchSet.get?_ofRecords, creditIn_map_mk]
  simp only [PostingList.uids, ← SortedMap.contains_iff_mem_keys]
  rfl

/-- A shard with too many uids lists none. -/
theorem get?_setOf_of_isOverThreshold (h : o.isOverThreshold posting = true) :
    (setOf node o shard posting).credits.get? uid = none := by
  rw [setOf, if_pos h]
  rfl

/-- The set of a shard lets through the uids of the term, or all of them if they are too many. -/
theorem allows_setOf :
    (setOf node o shard posting).Allows uid ↔
      posting.contains uid = true ∨ o.isOverThreshold posting = true := by
  rw [MatchSet.Allows, infinite_setOf, MatchSet.contains_eq]
  cases hover : o.isOverThreshold posting with
  | true => simp
  | false =>
    rw [get?_setOf hover]
    split <;> simp_all

/-- All records of a shard are credited to the node of the scan. -/
theorem credit_of_get?_setOf {credit : Option NodeId}
    (h : (setOf node o shard posting).credits.get? uid = some credit) : credit = node := by
  cases hover : o.isOverThreshold posting with
  | true => rw [get?_setOf_of_isOverThreshold hover] at h; cases h
  | false =>
    rw [get?_setOf hover] at h
    split at h
    · exact (Option.some.inj h).symm
    · cases h

end TermScan

theorem filter_dropWhile {α : Type} {p q : α → Bool} {xs : List α}
    (h : ∀ x, p x = true → ¬ q x = true) : (xs.dropWhile p).filter q = xs.filter q := by
  induction xs with
  | nil => rfl
  | cons x xs ih =>
    rw [List.dropWhile_cons]
    split
    · next hp => rw [ih, List.filter_cons_of_neg (h x hp)]
    · rfl

namespace ShardIndex

variable {ix : ShardIndex} {field value : String} {node : Option NodeId} {o : ScanOptions}

/-- A scan hands out a set for every shard that holds the term and is asked for. -/
theorem sets_openScan :
    (ix.openScan field value node o).1.sets =
      ((ix.shardsOf field value).entries.filter (o.admits ·.1)).map fun e =>
        TermScan.setOf node o e.1 e.2 := by
  have hasc := (ix.shardsOf field value).ascending
  obtain ⟨_ | r, threshold⟩ := o
  · exact TermScan.setsOf_eq hasc
  · have hdropped := hasc.sublist (List.dropWhile_sublist fun e => e.1 < r.first)
    refine (TermScan.setsOf_eq hdropped).trans (congrArg (List.map _) ?_)
    apply filter_dropWhile
    intro e hbefore hadmits
    have hle := ShardRange.first_le_of_contains hadmits
    exact String.not_lt.2 hle (of_decide_eq_true hbefore)

end ShardIndex

end ShardSearch
