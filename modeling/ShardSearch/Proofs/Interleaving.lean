import Mathlib.Data.Set.Card
import ShardSearch.Proofs.IndexUpdate
import ShardSearch.Proofs.Leaves
import ShardSearch.Proofs.TermScan

/-!
# Scans side by side

Any number of scans may be open on one index, and pulls of them may be made in any order.  Each scan
hands out the sets that its request asks for, one for each shard (`lists_sets`), as if it was the
only one; what they share is the count of the work done.  `ScanSession.Standing` says how a session
stands after some calls; each call keeps it (`Standing.call`).
-/

namespace ShardSearch

/-! ## What is asked for -/

/-- The term a scan is started for, the node its matches are credited to, and the options. -/
structure ScanRequest where
  field : String
  value : String
  node : Option NodeId
  options : ScanOptions

namespace ScanRequest

/-- The uids that hold the term in a shard. -/
def uidsIn (q : ScanRequest) (ix : ShardIndex) (shard : String) : Set String :=
  {uid | ix.holds q.field q.value shard uid = true}

/-- The set says of its shard what the index does: it lists the uids that hold the term, or stands
    for all documents if there are more of these than the threshold. -/
structure IsHit (q : ScanRequest) (ix : ShardIndex) (set : MatchSet) : Prop where
  node : set.node = q.node
  infinite : set.infinite = true ↔
    ∃ cap, q.options.uidThreshold = some cap ∧ cap < (q.uidsIn ix set.shard).ncard
  unlisted : set.infinite = true → set.records = []
  listed : set.infinite = false → ∀ uid, set.contains uid = true ↔ uid ∈ q.uidsIn ix set.shard
  credited : ∀ r ∈ set.records, r.node = q.node

/-- The sets are what is asked for: one for each shard that holds the term and lies in the range,
    in ascending order. -/
structure Lists (q : ScanRequest) (ix : ShardIndex) (sets : List MatchSet) : Prop where
  ascending : AscendingSets sets
  shards : ∀ shard, (∃ set ∈ sets, set.shard = shard) ↔
    (q.uidsIn ix shard).Nonempty ∧
      ∀ range, q.options.range = some range → range.contains shard = true
  hits : ∀ set ∈ sets, q.IsHit ix set

/-- All sets that a scan hands out. -/
def sets (q : ScanRequest) (ix : ShardIndex) : List MatchSet :=
  (ix.openScan q.field q.value q.node q.options).1.sets

variable {q : ScanRequest} {ix : ShardIndex}

theorem uidsIn_eq {shard : String} {posting : PostingList}
    (h : (ix.shardsOf q.field q.value).get? shard = some posting) :
    q.uidsIn ix shard = {uid | posting.contains uid = true} := by
  ext uid
  simp [uidsIn, ShardIndex.holds_iff_exists, h]

theorem ncard_contains (posting : PostingList) :
    {uid | posting.contains uid = true}.ncard = posting.size := by
  have hkeys : {uid | posting.contains uid = true} = (posting.uids.toFinset : Set String) := by
    ext uid
    simp [PostingList.contains, PostingList.uids, SortedMap.contains_iff_mem_keys]
  have hnodup : posting.uids.Nodup := SortedMap.nodup_keys _
  rw [hkeys, Set.ncard_coe_finset, List.toFinset_card_of_nodup hnodup]
  exact List.length_map _

theorem isHit_setOf {shard : String} {posting : PostingList}
    (h : (ix.shardsOf q.field q.value).get? shard = some posting) :
    q.IsHit ix (TermScan.setOf q.node q.options shard posting) := by
  have huids : q.uidsIn ix (TermScan.setOf q.node q.options shard posting).shard =
      {uid | posting.contains uid = true} := by
    rw [TermScan.shard_setOf, uidsIn_eq h]
  refine ⟨?_, ?_, ?_, ?_, ?_⟩
  · unfold TermScan.setOf
    split <;> simp [MatchSet.everything, MatchSet.ofUids]
  · rw [TermScan.infinite_setOf, huids, ncard_contains]
    simp [ScanOptions.isOverThreshold, Option.any_eq_true]
  · intro hinfinite
    rw [TermScan.infinite_setOf] at hinfinite
    rw [TermScan.setOf, if_pos hinfinite]
    rfl
  · intro hfinite uid
    rw [TermScan.infinite_setOf] at hfinite
    rw [MatchSet.contains_eq, TermScan.get?_setOf hfinite, huids]
    split <;> simp_all
  · intro r hr
    exact TermScan.credit_of_get?_setOf (MatchSet.mem_records_iff.1 hr)

theorem admits_iff {o : ScanOptions} {shard : String} :
    o.admits shard = true ↔ ∀ range, o.range = some range → range.contains shard = true := by
  rw [ScanOptions.admits, Option.all_eq_true]

/-- A scan of an index that can come about hands out what is asked for.  Neither the skip to the
    first day of the range nor the stop behind its last one loses a shard or lets one in. -/
theorem lists_sets (h : ix.Reachable) (q : ScanRequest) : q.Lists ix (q.sets ix) := by
  have hentries := (ix.shardsOf q.field q.value).ascending
  rw [sets, ShardIndex.sets_openScan]
  refine ⟨?_, ?_, ?_⟩
  · refine List.pairwise_map.2 ((hentries.sublist List.filter_sublist).imp ?_)
    intro a b hlt
    rwa [TermScan.shard_setOf, TermScan.shard_setOf]
  · intro shard
    simp only [List.mem_map, List.mem_filter, exists_exists_and_eq_and, TermScan.shard_setOf]
    constructor
    · rintro ⟨⟨shard, posting⟩, ⟨hmem, hadmits⟩, rfl⟩
      have hget := SortedMap.get?_eq_some_iff.2 hmem
      obtain ⟨uid, huid⟩ := h.exists_uid hget
      exact ⟨⟨uid, ShardIndex.holds_iff_exists.2 ⟨posting, hget, huid⟩⟩, admits_iff.1 hadmits⟩
    · rintro ⟨⟨uid, huid⟩, hadmits⟩
      obtain ⟨posting, hget, -⟩ := ShardIndex.holds_iff_exists.1 huid
      exact ⟨(shard, posting), ⟨SortedMap.get?_eq_some_iff.1 hget, admits_iff.2 hadmits⟩, rfl⟩
  · intro set hset
    obtain ⟨⟨shard, posting⟩, hmem, rfl⟩ := List.mem_map.1 hset
    exact isHit_setOf (SortedMap.get?_eq_some_iff.2 (List.mem_filter.1 hmem).1)

end ScanRequest

/-! ## Pulls -/

namespace TermScan

/-- A pull hands out the first of the sets to come, none if there is none, and leaves the others. -/
theorem next_spec (s : TermScan) : s.next.1 = s.sets.head? ∧ s.next.2.sets = s.sets.tail := by
  have hsets := s.sets_next
  cases hset : s.next.1 with
  | some set =>
    rw [hset] at hsets
    rw [hsets]
    exact ⟨rfl, rfl⟩
  | none =>
    have hleft : s.next.2.sets = [] := by
      unfold next at hset ⊢
      split
      · rfl
      · next hcoming =>
        rw [hcoming] at hset
        cases hset
    rw [hset, hleft] at hsets
    rw [hsets]
    exact ⟨rfl, hleft⟩

end TermScan

/-- A pull hands out what the scan does, and counts it. -/
theorem ShardIndex.pull_eq (ix : ShardIndex) (s : TermScan) :
    ix.pull s = (s.next.1, s.next.2,
      { ix with stats := s.next.1.toList.foldl ScanStats.recordShard ix.stats }) := by
  unfold pull
  generalize s.next = outcome
  obtain ⟨_ | set, s'⟩ := outcome <;> rfl

theorem ScanStats.recordShard_add (a b : ScanStats) (set : MatchSet) :
    (a + b).recordShard set = a + b.recordShard set :=
  congrArg (ScanStats.mk _ _) (Nat.add_assoc _ _ _)

/-! ## Sessions -/

/-- An index and the scans that are open on it, the one started first in front. -/
structure ScanSession where
  index : ShardIndex
  scans : List TermScan

/-- What is done in a session. -/
inductive ScanCall where
  /-- A scan is started. -/
  | start (q : ScanRequest)
  /-- A set is pulled out of the scan that was started after `i` others, if there is one. -/
  | pull (i : Nat)

/-- The scan that a call starts, if it does. -/
def ScanCall.request? : ScanCall → Option ScanRequest
  | start q => some q
  | pull _ => none

/-- Pulls that were made, in their order: of which scan, and what that handed out. -/
abbrev PullLog := List (Nat × Option MatchSet)

namespace PullLog

/-- What one scan handed out. -/
def ofScan (log : PullLog) (i : Nat) : List (Option MatchSet) :=
  (log.filter (·.1 = i)).map (·.2)

/-- The sets that all scans handed out. -/
def handedOut (log : PullLog) : List MatchSet := log.filterMap (·.2)

variable (log : PullLog) {i j : Nat} (set? : Option MatchSet)

theorem ofScan_concat_self : ofScan (log ++ [(i, set?)]) i = log.ofScan i ++ [set?] := by
  simp [ofScan]

theorem ofScan_concat_of_ne (h : i ≠ j) : ofScan (log ++ [(i, set?)]) j = log.ofScan j := by
  simp [ofScan, h]

theorem handedOut_concat : handedOut (log ++ [(i, set?)]) = log.handedOut ++ set?.toList := by
  cases set? <;> simp [handedOut]

end PullLog

namespace ScanSession

/-- Makes a call. -/
def call (s : ScanSession) : ScanCall → PullLog × ScanSession
  | .start q =>
    let (scan, index) := s.index.openScan q.field q.value q.node q.options
    ([], ⟨index, s.scans ++ [scan]⟩)
  | .pull i =>
    match s.scans[i]? with
    | none => ([], s)
    | some scan =>
      let (set?, scan, index) := s.index.pull scan
      ([(i, set?)], ⟨index, s.scans.set i scan⟩)

/-- Makes some calls, one after the other. -/
def run (s : ScanSession) : List ScanCall → PullLog × ScanSession
  | [] => ([], s)
  | c :: calls => ((s.call c).1 ++ ((s.call c).2.run calls).1, ((s.call c).2.run calls).2)

theorem run_append (s : ScanSession) (calls calls' : List ScanCall) :
    s.run (calls ++ calls') =
      ((s.run calls).1 ++ ((s.run calls).2.run calls').1, ((s.run calls).2.run calls').2) := by
  induction calls generalizing s with
  | nil => rfl
  | cons c calls ih => simp [run, ih]

/-- The scans that calls start. -/
def requests (calls : List ScanCall) : List ScanRequest := calls.filterMap ScanCall.request?

/-- How a session on `ix` stands after some calls with the given log: the work is counted, and of
    the sets of each scan those that were not handed out are still to come. -/
structure Standing (ix : ShardIndex) (calls : List ScanCall) (log : PullLog) (s : ScanSession) :
    Prop where
  index : s.index = { ix with
    stats := ix.stats + ⟨(requests calls).length, log.handedOut.length,
      log.handedOut.countP (·.infinite)⟩ }
  coming : s.scans.map TermScan.sets =
    (requests calls).mapIdx fun i (q : ScanRequest) => (q.sets ix).drop (log.ofScan i).length
  opened : ∀ p ∈ log, p.1 < (requests calls).length
  handed : ∀ i q, (requests calls)[i]? = some q →
    log.ofScan i = (List.range (log.ofScan i).length).map ((q.sets ix)[·]?)

variable {ix : ShardIndex} {calls : List ScanCall} {log : PullLog} {s : ScanSession}

theorem standing_nil (ix : ShardIndex) : Standing ix [] [] ⟨ix, []⟩ where
  index := rfl
  coming := rfl
  opened := nofun
  handed _ _ h := nomatch h

theorem call_pull {i : Nat} {scan : TermScan} (h : s.scans[i]? = some scan) :
    s.call (.pull i) = ([(i, scan.next.1)],
      ⟨{ s.index with stats := scan.next.1.toList.foldl ScanStats.recordShard s.index.stats },
        s.scans.set i scan.next.2⟩) := by
  rw [call, h]
  simp only [ShardIndex.pull_eq]

namespace Standing

/-- A scan that is open has been started, and the sets to come of it are left. -/
theorem exists_request (h : Standing ix calls log s) {i : Nat} {scan : TermScan}
    (hscan : s.scans[i]? = some scan) :
    ∃ q, (requests calls)[i]? = some q ∧ (q.sets ix).drop (log.ofScan i).length = scan.sets := by
  have hcoming := congrArg (·[i]?) h.coming
  simp only [List.getElem?_map, List.getElem?_mapIdx, hscan] at hcoming
  exact Option.map_eq_some_iff.1 hcoming.symm

/-- A further pull of a scan hands out the first set that it has not handed out. -/
theorem pull_eq (h : Standing ix calls log s) {i : Nat} {q : ScanRequest}
    (hq : (requests calls)[i]? = some q) :
    (s.call (.pull i)).1 = [(i, (q.sets ix)[(log.ofScan i).length]?)] := by
  have hcoming := congrArg (·[i]?) h.coming
  simp only [List.getElem?_map, List.getElem?_mapIdx, hq] at hcoming
  obtain ⟨scan, hscan, hsets⟩ := Option.map_eq_some_iff.1 hcoming
  rw [call_pull hscan, scan.next_spec.1, hsets, List.head?_drop]

/-- A scan that has not been started has handed out nothing. -/
theorem ofScan_eq_nil (h : Standing ix calls log s) {i : Nat}
    (hi : (requests calls).length ≤ i) : log.ofScan i = [] := by
  simp only [PullLog.ofScan, List.map_eq_nil_iff, List.filter_eq_nil_iff, decide_eq_true_eq]
  rintro p hp rfl
  exact Nat.not_lt.2 hi (h.opened p hp)

/-- A scan that is started counts as one, and has all of its sets still to hand out. -/
theorem start (h : Standing ix calls log s) (q : ScanRequest) :
    Standing ix (calls ++ [.start q]) log (s.call (.start q)).2 := by
  have hrequests : requests (calls ++ [.start q]) = requests calls ++ [q] := by
    simp [requests, ScanCall.request?]
  have hindex : (s.call (.start q)).2.index =
      { s.index with stats := s.index.stats.recordScan } := rfl
  have hscans : (s.call (.start q)).2.scans.map TermScan.sets =
      s.scans.map TermScan.sets ++ [q.sets ix] := by
    simp only [call, List.map_append, ScanRequest.sets, h.index]
    rfl
  refine ⟨?_, ?_, ?_, ?_⟩
  · rw [hindex, h.index, hrequests, List.length_append]
    rfl
  · rw [hscans, h.coming, hrequests, List.mapIdx_concat, h.ofScan_eq_nil (Nat.le_refl _)]
    rfl
  · intro p hp
    rw [hrequests, List.length_append]
    exact Nat.lt_add_right 1 (h.opened p hp)
  · intro i q' hq'
    rcases Nat.lt_or_ge i (requests calls).length with hlt | hge
    · rw [hrequests, List.getElem?_append_left hlt] at hq'
      exact h.handed i q' hq'
    · rw [h.ofScan_eq_nil hge]
      rfl

/-- A set that is handed out is counted, and is still to come no more. -/
theorem pull (h : Standing ix calls log s) (i : Nat) :
    Standing ix (calls ++ [.pull i]) (log ++ (s.call (.pull i)).1) (s.call (.pull i)).2 := by
  have hrequests : requests (calls ++ [.pull i]) = requests calls := by
    simp [requests, ScanCall.request?]
  cases hscan : s.scans[i]? with
  | none =>
    have hcall : s.call (.pull i) = ([], s) := by rw [call, hscan]
    rw [hcall, List.append_nil]
    exact ⟨hrequests ▸ h.index, hrequests ▸ h.coming, hrequests ▸ h.opened, hrequests ▸ h.handed⟩
  | some scan =>
    obtain ⟨q, hq, hsets⟩ := h.exists_request hscan
    obtain ⟨hi, hget⟩ := List.getElem?_eq_some_iff.1 hq
    rw [call_pull hscan]
    refine ⟨?_, ?_, ?_, ?_⟩
    · rw [hrequests, PullLog.handedOut_concat, h.index]
      cases scan.next.1 with
      | none => simp
      | some set =>
        rw [Option.toList_some, List.length_append, List.countP_append, List.countP_singleton]
        exact congrArg (ShardIndex.mk ix.indexed ix.terms) (ScanStats.recordShard_add _ _ set)
    · refine List.ext_getElem? fun j => ?_
      rw [hrequests, List.map_set, h.coming, List.getElem?_set, List.getElem?_mapIdx,
        List.getElem?_mapIdx]
      rcases eq_or_ne i j with rfl | hne
      · rw [PullLog.ofScan_concat_self, scan.next_spec.2, ← hsets]
        simp [hi, hget]
      · rw [PullLog.ofScan_concat_of_ne log _ hne, if_neg hne]
    · rw [hrequests]
      rintro p hp
      rcases List.mem_append.1 hp with hp | hp
      · exact h.opened p hp
      · cases List.mem_singleton.1 hp
        exact hi
    · intro j q' hq'
      rw [hrequests] at hq'
      rcases eq_or_ne i j with rfl | hne
      · cases hq.symm.trans hq'
        rw [PullLog.ofScan_concat_self, List.length_append, List.length_singleton, List.range_succ,
          List.map_append, ← h.handed i q hq, scan.next_spec.1, ← hsets, List.head?_drop]
        rfl
      · rw [PullLog.ofScan_concat_of_ne log _ hne]
        exact h.handed j q' hq'

end Standing

/-- However calls are made one after the other, the session stands as it should. -/
theorem standing_run (ix : ShardIndex) (calls : List ScanCall) :
    Standing ix calls (run ⟨ix, []⟩ calls).1 (run ⟨ix, []⟩ calls).2 := by
  induction calls using List.reverseRecOn with
  | nil => exact standing_nil ix
  | append_singleton calls c ih =>
    have hrun := run_append ⟨ix, []⟩ calls [c]
    rw [hrun]
    simp only [run, List.append_nil]
    cases c with
    | start q =>
      have hnothing : (((run ⟨ix, []⟩ calls).2.call (.start q)).1 : PullLog) = [] := rfl
      rw [hnothing, List.append_nil]
      exact ih.start q
    | pull i => exact ih.pull i

end ScanSession

/-- Any number of scans of an index, pulled in any order.  Each hands out what is asked for, from
    the first set on, and none after the last one; and the index counts each scan that is started,
    each set that is handed out by any of them and each infinite one among these. -/
theorem ShardIndex.Reachable.scans_interleave {ix : ShardIndex} (h : ix.Reachable) :
    ∃ sets : ScanRequest → List MatchSet, (∀ q : ScanRequest, q.Lists ix (sets q)) ∧
      ∀ calls : List ScanCall,
        let (log, after) := ScanSession.run ⟨ix, []⟩ calls
        after.index = { ix with
          stats := ix.stats + ⟨(ScanSession.requests calls).length, log.handedOut.length,
            log.handedOut.countP (·.infinite)⟩ } ∧
        ∀ i q, (ScanSession.requests calls)[i]? = some q →
          log.ofScan i = (List.range (log.ofScan i).length).map ((sets q)[·]?) ∧
          (after.call (.pull i)).1 = [(i, (sets q)[(log.ofScan i).length]?)] := by
  refine ⟨(·.sets ix), ScanRequest.lists_sets h, fun calls => ?_⟩
  have hstanding := ScanSession.standing_run ix calls
  exact ⟨hstanding.index, fun i q hq => ⟨hstanding.handed i q hq, hstanding.pull_eq hq⟩⟩

/-- An index of one term that is held on two days, in a shard without a day and in one that only
    looks as if it had one. -/
def ShardIndex.sampleDays : ShardIndex :=
  [("20240101_0", "x"), ("20240102", "x"), ("20240102", "y"), ("20240102x", "x"), ("S1", "x"),
    ("20240102_a", "y")].foldl (fun ix (shard, uid) => (ix.add "A" "1" shard uid).2) .empty

theorem ShardIndex.reachable_sampleDays : ShardIndex.sampleDays.Reachable :=
  .add "A" "1" "20240102_a" "y" <| .add "A" "1" "S1" "x" <| .add "A" "1" "20240102x" "x" <|
    .add "A" "1" "20240102" "y" <| .add "A" "1" "20240102" "x" <|
    .add "A" "1" "20240101_0" "x" .empty

/-- What is held on the second day, at most one uid in a shard. -/
def ScanRequest.sampleDay : ScanRequest :=
  ⟨"A", "1", some ⟨3⟩, ⟨some ⟨"20240102", "20240102", rfl, rfl, String.le_refl _⟩, some 1⟩⟩

def ScanRequest.sampleAll : ScanRequest := ⟨"A", "1", none, .unrestricted⟩

def ScanSession.sampleCalls : List ScanCall :=
  [.start .sampleDay, .pull 1, .pull 0, .start .sampleAll, .pull 1, .pull 0, .pull 0]

theorem ShardIndex.scans_interleave_sample :
    let (log, after) := ScanSession.run ⟨ShardIndex.sampleDays, []⟩ ScanSession.sampleCalls
    log.map (fun p => (p.1, p.2.map (·.shard))) =
      [(0, some "20240102"), (1, some "20240101_0"), (0, some "20240102_a"), (0, none)] ∧
    after.index = { ShardIndex.sampleDays with stats := ⟨2, 3, 1⟩ } ∧
    ∃ sets, ScanRequest.sampleDay.Lists ShardIndex.sampleDays sets ∧
      log.ofScan 0 = [sets[0]?, sets[1]?, sets[2]?] ∧
      (after.call (.pull 0)).1 = [(0, sets[3]?)] := by
  obtain ⟨sets, hlists, hruns⟩ := ShardIndex.reachable_sampleDays.scans_interleave
  obtain ⟨hindex, hscans⟩ := hruns ScanSession.sampleCalls
  obtain ⟨hhanded, hnext⟩ := hscans 0 .sampleDay rfl
  exact ⟨rfl, hindex, sets .sampleDay, hlists _, hhanded, hnext⟩

end ShardSearch
