import ShardSearch.Proofs.Interleaving
import ShardSearch.Proofs.Reporting
import ShardSearch.Query.IndexSource

/-!
# What the reading of a leaf counts

An index counts what is pulled out of a scan; a leaf that the index supplies counts by itself what
is taken out of its scanner.  The two counts agree: reading the leaf is counted as pulling the scan
(`leafOf_counts`).
-/

namespace ShardSearch

/-- The scanner has the sets of the scan still to yield, and counts on top of `base` what the index
    does. -/
structure Scanner.CountsAs (base : ScanStats) (scanner : Scanner) (scan : TermScan)
    (ix : ShardIndex) : Prop where
  coming : scanner.coming = scan.sets.map .found
  stats : base + scanner.tally = ix.stats

namespace ShardIndex

variable {base : ScanStats} {scanner : Scanner} {scan : TermScan} {ix : ShardIndex}

/-- Taking an item out of the scanner is counted as a pull of the scan. -/
theorem countsAs_pull (h : scanner.CountsAs base scan ix) :
    scanner.pull.2.CountsAs base (ix.pull scan).2.1 (ix.pull scan).2.2 := by
  obtain ⟨hcoming, hstats⟩ := h
  obtain ⟨hnext, hleft⟩ := scan.next_spec
  rw [pull_eq, hnext]
  cases hsets : scan.sets with
  | nil =>
    rw [hsets] at hcoming hleft
    have hpull : scanner.pull = (.ended, scanner) := by
      unfold Scanner.pull
      rw [hcoming]
      rfl
    rw [hpull]
    exact ⟨by rw [hleft, hcoming]; rfl, hstats⟩
  | cons set rest =>
    rw [hsets] at hcoming hleft
    have hpull : scanner.pull.2.coming = rest.map .found ∧
        scanner.pull.2.tally = scanner.tally.recordShard set := by
      unfold Scanner.pull
      rw [hcoming]
      simp only [List.map_cons]
      split
      · exact ⟨rfl, rfl⟩
      · split <;> exact ⟨rfl, rfl⟩
    refine ⟨by rw [hpull.1, hleft]; rfl, ?_⟩
    rw [hpull.2, ← ScanStats.recordShard_add, hstats]
    rfl

/-- One pull, then `n` more. -/
theorem pullMany_succ (ix : ShardIndex) (scan : TermScan) (n : Nat) :
    (ix.pullMany scan (n + 1)).2 = ((ix.pull scan).2.2.pullMany (ix.pull scan).2.1 n).2 := by
  obtain ⟨hnext, hleft⟩ := scan.next_spec
  rw [pullMany, pull_eq, hnext]
  cases hsets : scan.sets with
  | cons set rest => rfl
  | nil =>
    -- a scan that has ended hands nothing out any more
    rw [hsets] at hleft
    obtain ⟨hnext', -⟩ := scan.next.2.next_spec
    rw [hleft] at hnext'
    cases n with
    | zero => rfl
    | succ n =>
      rw [pullMany, pull_eq, hnext']
      rfl

end ShardIndex

namespace Stream

/-- Whatever calls are made on a leaf in memory, a leaf is left. -/
theorem run_leaf (node : Option NodeId) (context : Context) (label : String) (entries : List Entry)
    (calls : List Call) :
    ∃ left, ((leaf node context label entries).run calls).2 = leaf node context label left := by
  induction calls generalizing entries with
  | nil => exact ⟨entries, rfl⟩
  | cons c calls ih =>
    rw [run_cons]
    rcases state_of_call (leaf node context label entries) c with
      ⟨-, hcall⟩ | hcall | ⟨-, hcall⟩ <;> rw [hcall]
    · exact ih entries
    · exact ih entries
    · exact ih entries.tail

/-- A call takes at most one item out of the scanner of a leaf. -/
theorem call_scan (node : Option NodeId) (label : String) (scanner : Scanner) (head : Head)
    (c : Call) :
    ∃ head', ((scan node label scanner head).call c).2 = scan node label scanner head' ∨
      ((scan node label scanner head).call c).2 = scan node label scanner.pull.2 head' := by
  have hfill : (scan node label scanner head).fill = scan node label scanner head ∨
      (scan node label scanner head).fill = scan node label scanner.pull.2 scanner.pull.1 := by
    cases head with
    | unread => exact .inr rfl
    | ready e | ended | failed error => exact .inl rfl
  have hpop (scanner' : Scanner) (head' : Head) :
      ∃ head'', (scan node label scanner' head' : Stream).pop =
        scan node label scanner' head'' := by
    cases head' <;> exact ⟨_, rfl⟩
  rcases state_of_call (scan node label scanner head) c with ⟨-, hcall⟩ | hcall | ⟨-, hcall⟩
  · exact ⟨head, .inl hcall⟩
  · rcases hfill with hfill | hfill
    · exact ⟨head, .inl (hcall.trans hfill)⟩
    · exact ⟨scanner.pull.1, .inr (hcall.trans hfill)⟩
  · rcases hfill with hfill | hfill
    · obtain ⟨head', hpop⟩ := hpop scanner head
      exact ⟨head', .inl (by rw [hcall, hfill, hpop])⟩
    · obtain ⟨head', hpop⟩ := hpop scanner.pull.2 scanner.pull.1
      exact ⟨head', .inr (by rw [hcall, hfill, hpop])⟩

/-- Any calls on a leaf over a scanner are counted as some pulls of the scan, one for each call at
    most. -/
theorem run_countsAs {base : ScanStats} {scanner : Scanner} {scan : TermScan} {ix : ShardIndex}
    (h : scanner.CountsAs base scan ix) (node : Option NodeId) (label : String) (head : Head)
    (calls : List Call) :
    ∃ n ≤ calls.length,
      base + ((Stream.scan node label scanner head).run calls).2.tally =
        (ix.pullMany scan n).2.stats := by
  induction calls generalizing scanner scan ix head with
  | nil => exact ⟨0, Nat.le_refl 0, h.stats⟩
  | cons c calls ih =>
    rw [run_cons]
    obtain ⟨head', hsame | hpulled⟩ := call_scan node label scanner head c
    · obtain ⟨n, hn, hstats⟩ := ih h head'
      rw [hsame]
      exact ⟨n, Nat.le_succ_of_le hn, hstats⟩
    · obtain ⟨n, hn, hstats⟩ := ih (ShardIndex.countsAs_pull h) head'
      rw [hpulled]
      exact ⟨n + 1, Nat.succ_le_succ hn, by rw [ShardIndex.pullMany_succ, ← hstats]⟩

end Stream

namespace ShardIndex

/-- Whatever calls are made on a leaf that an index supplies, the counts are then those of the index
    after as many pulls as were made of the scan of the term, if there is one to make. -/
theorem leafOf_counts {ix ix' : ShardIndex} {o : ScanOptions} {id : NodeId} {field value : String}
    {s : Stream} (h : leafOf o id field value ix = (.ok s, ix')) (calls : List Call) :
    match ix.status field value with
    | .found =>
      let opened := ix.openScan field value (some id) o
      ∃ n ≤ calls.length, ix'.statsAfter (s.run calls).2 = (opened.2.pullMany opened.1 n).2.stats
    | .missing | .unindexed => ix'.statsAfter (s.run calls).2 = ix.stats := by
  unfold leafOf at h
  cases hstatus : ix.status field value with
  | found =>
    rw [hstatus] at h
    cases h
    -- nothing is counted before the scanner is asked
    exact Stream.run_countsAs ⟨rfl, rfl⟩ (some id) _ .unread calls
  | missing | unindexed =>
    rw [hstatus] at h
    cases h
    obtain ⟨left, hleft⟩ :=
      Stream.run_leaf (some id) _ (PredicateTree.termText field value) [] calls
    exact congrArg (fun s : Stream => ix.statsAfter s) hleft

end ShardIndex

end ShardSearch
