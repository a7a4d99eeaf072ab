import ShardSearch.Proofs.Building
import ShardSearch.Proofs.Composite
import ShardSearch.Proofs.Cursor
import ShardSearch.Proofs.IndexUpdate

/-!
# No match is lost

A stream `Covers` a statement about documents if no document the statement is true of can be
missed by reading the stream: wherever the stream prunes, each such document is let through by the
set of its shard.  Every stream made for a node covers that the node holds.
-/

namespace ShardSearch

namespace ShardIndex

variable {ix : ShardIndex} {field value shard uid : String}

theorem not_holds_of_lookup?_eq_none (h : ix.lookup? field value = none) :
    ix.holds field value shard uid = false := by
  rw [holds, postingOf, shardsOf, h]
  rfl

end ShardIndex

/-- No document that `P` is true of is missed by reading the stream. -/
structure Covers (o : ScanOptions) (s : Stream) (P : String → String → Prop) : Prop where
  clean : s.trace.Clean
  absent : s.context = .absent → ∀ shard uid, ¬ P shard uid
  pruned : s.canPrune = true → ∀ shard uid, o.admits shard = true → P shard uid →
    ∃ set, s.trace.at? shard = some set ∧ set.Allows uid

namespace Covers

variable {o : ScanOptions} {s : Stream} {id : NodeId}

theorem congr {P Q : String → String → Prop} (h : Covers o s P)
    (hPQ : ∀ shard uid, Q shard uid → P shard uid) : Covers o s Q :=
  ⟨h.clean, fun habsent shard uid hq => h.absent habsent shard uid (hPQ shard uid hq),
    fun hprunes shard uid hadmits hq => h.pruned hprunes shard uid hadmits (hPQ shard uid hq)⟩

/-- The leaf of a term covers the documents that have the value. -/
theorem leaf {ix : ShardIndex} {facts : Facts} {field value : String}
    (hfacts : facts.AgreesWith ix) (h : ix.LeafCase o id field value s) :
    Covers o s fun shard uid => facts shard uid field value := by
  refine ⟨h.clean, ?_, ?_⟩
  · intro habsent shard uid hfact
    obtain ⟨hindexed, hunheld⟩ := h.of_absent habsent
    have hholds := (hfacts shard uid field value hindexed).1 hfact
    rw [ShardIndex.not_holds_of_lookup?_eq_none hunheld] at hholds
    cases hholds
  · intro hprunes shard uid hadmits hfact
    have hholds := (hfacts shard uid field value (h.indexed hprunes)).1 hfact
    obtain ⟨posting, hget, hcontains⟩ := ShardIndex.holds_iff_exists.1 hholds
    refine ⟨TermScan.setOf (some id) o shard posting, ?_, TermScan.allows_setOf.2 (.inl hcontains)⟩
    rw [h.at?_eq, if_pos ⟨hprunes, hadmits⟩, hget]
    rfl

/-- What is put off covers everything. -/
theorem putOff {label : String} (P : String → String → Prop) :
    Covers o ((Stream.delayed (some id)).withLabel label) P := by
  refine ⟨?_, ?_, ?_⟩
  · rw [Stream.trace_withLabel]
    exact Trace.clean_stop
  · intro habsent
    rw [Stream.context_withLabel] at habsent
    cases habsent
  · intro hprunes
    rw [Stream.canPrune_withLabel] at hprunes
    cases hprunes

section Composites

variable {node : Option NodeId} {children : List NodeId} {streams : List Stream}
  {P : NodeId → String → String → Prop}
  (h : List.Forall₂ (fun child s => Covers o s (P child)) children streams)

include h

/-- An intersection covers what is covered by each of its parts. -/
theorem intersect (hmake : Stream.intersect node streams = .ok s) :
    Covers o s fun shard uid => ∀ child ∈ children, P child shard uid := by
  have hclean := Stream.clean_of_forall₂ h fun _ _ hcovers => hcovers.clean
  refine ⟨Stream.clean_intersect hmake hclean, ?_, ?_⟩
  · intro habsent shard uid hall
    obtain ⟨s', hs', habsent'⟩ := (Stream.context_intersect hmake).1 habsent
    obtain ⟨child, hchild, hcovers⟩ := h.exists_of_mem_right hs'
    exact hcovers.absent habsent' shard uid (hall child hchild)
  · intro hprunes shard uid hadmits hall
    apply (Stream.holdsAt_intersect (MatchSet.setwise_allows uid) hmake hclean).2
    refine ⟨hprunes, fun s' hs' hprunes' => ?_⟩
    obtain ⟨child, hchild, hcovers⟩ := h.exists_of_mem_right hs'
    exact hcovers.pruned hprunes' shard uid hadmits (hall child hchild)

/-- A union covers what is covered by some of its parts. -/
theorem unite (hmake : Stream.unite node streams = .ok s) :
    Covers o s fun shard uid => ∃ child ∈ children, P child shard uid := by
  have hclean := Stream.clean_of_forall₂ h fun _ _ hcovers => hcovers.clean
  refine ⟨Stream.clean_unite hmake hclean, ?_, ?_⟩
  · rintro habsent shard uid ⟨child, hchild, hP⟩
    obtain ⟨s', hs', hcovers⟩ := h.exists_of_mem_left hchild
    exact hcovers.absent ((Stream.context_unite hmake).1 habsent s' hs') shard uid hP
  · rintro hprunes shard uid hadmits ⟨child, hchild, hP⟩
    obtain ⟨s', hs', hcovers⟩ := h.exists_of_mem_left hchild
    have hpresent : s'.context ≠ .absent := fun habsent => hcovers.absent habsent shard uid hP
    have hprunes' := ((Stream.canPrune_unite_iff hmake).1 hprunes).2 s' hs' hpresent
    apply (Stream.holdsAt_unite (MatchSet.setwise_allows uid) hmake hclean).2
    exact ⟨s', hs', hpresent, hcovers.pruned hprunes' shard uid hadmits hP⟩

end Composites

/-- The stream made for a node covers that the node holds. -/
theorem node {t : PredicateTree} {ix : ShardIndex} {facts : Facts} (ht : t.Ordered)
    (hfacts : facts.AgreesWith ix)
    (h : NodeCase t ix o (fun id s => Covers o s fun shard uid => t.Holds (facts shard uid) id)
      id s) :
    Covers o s fun shard uid => t.Holds (facts shard uid) id := by
  cases h with
  | term field value shape hleaf =>
    exact (leaf hfacts hleaf).congr fun shard uid => (PredicateTree.holds_iff ht shape).1
  | single child shape made =>
    exact made.congr fun shard uid => (PredicateTree.holds_iff_of_single ht shape).1
  | intersection children streams shape made joined =>
    exact (intersect made joined).congr fun shard uid => (PredicateTree.holds_iff ht shape).1
  | union children streams shape made joined =>
    exact (unite made joined).congr fun shard uid => (PredicateTree.holds_iff ht shape).1
  | putOff child label shape => exact putOff _

end Covers

theorem admits_scanOptions {q : Query} {range : Option ShardRange} {shard : String} :
    (q.scanOptions range).admits shard = true ↔ ∀ r ∈ range, r.contains shard = true := by
  cases range <;> simp [Query.scanOptions, ScanOptions.admits, ScanOptions.ofConfig,
    ScanOptions.withRange]

/-- The stream of a query without the dropping of descendants is read to its end without failure,
    and if it prunes, no match in the range is lost: its shard is read, and the set read there is
    infinite or lists the uid.  If the stream is absent, there are no matches at all. -/
theorem Query.drain_complete {q : Query} {ix : ShardIndex} {range : Option ShardRange}
    {facts : Facts} {s : Stream} (htree : q.tree.Ordered) (hfacts : facts.AgreesWith ix)
    (hplain : q.config.ancestorDedup = false)
    (hmade : (q.stream (ShardIndex.leafOf (q.scanOptions range)) ix).1 = .ok s) :
    (∃ entries, s.drain.1 = .ok entries ∧
      (s.canPrune = true → ∀ shard uid, q.Matches facts shard uid →
        (∀ r ∈ range, r.contains shard = true) →
          ∃ e ∈ entries, e.shard = shard ∧
            (e.set.infinite = true ∨ e.set.contains uid = true))) ∧
      (s.context = .absent → ∀ shard uid, ¬ q.Matches facts shard uid) := by
  obtain ⟨root, s', hroot, hbelow, rfl⟩ := Query.stream_ok hmade
  rw [hplain, if_neg Bool.false_ne_true]
  have hcovers := hbelow.induct fun id s => Covers.node htree hfacts
  have hmatches : ∀ {shard uid}, q.Matches facts shard uid →
      q.tree.Holds (facts shard uid) root := by
    rintro shard uid ⟨root', hroot', hholds⟩
    cases hroot.symm.trans hroot'
    exact hholds
  refine ⟨⟨s'.trace.entries, ?_, ?_⟩, ?_⟩
  · rw [Stream.drain_eq, hcovers.clean.sound]
  · intro hprunes shard uid hmatch hrange
    obtain ⟨set, hset, hallows⟩ :=
      hcovers.pruned hprunes shard uid (admits_scanOptions.2 hrange) (hmatches hmatch)
    exact ⟨⟨shard, set⟩, (Trace.at?_eq_some_iff hcovers.clean.ascending).1 hset, rfl, hallows⟩
  · intro habsent shard uid hmatch
    exact hcovers.absent habsent shard uid (hmatches hmatch)

/-! ## A sample -/

/-- An index of two fields and three documents, one of which holds both terms. -/
def ShardIndex.sample : ShardIndex :=
  [("A", "1", "x"), ("A", "1", "y"), ("B", "2", "y"), ("B", "2", "z")].foldl
    (fun ix (field, value, uid) => (ix.add field value "20240102_0" uid).2) .empty

/-- A term together with the negation of another one. -/
def PredicateTree.sample : PredicateTree :=
  let t := (PredicateTree.empty.add (.term "A" "1")).2
  let t := (t.add (.term "B" "2")).2
  let t := (t.add (.not ⟨1⟩)).2
  let t := (t.add (.and [⟨0⟩, ⟨2⟩])).2
  (t.setRoot ⟨3⟩).2

def Query.sample : Query := ⟨.sample, EngineConfig.standard.withUidThreshold 5⟩

theorem PredicateTree.ordered_sample : PredicateTree.sample.Ordered :=
  ((((ordered_empty.add _).add _).add _).add _).setRoot _

theorem PredicateTree.holds_sample_not :
    PredicateTree.sample.Holds (ShardIndex.sample.facts "20240102_0" "x") ⟨2⟩ := by
  have hnot : PredicateTree.sample.predicate? ⟨2⟩ = some (.not ⟨1⟩) := rfl
  have hterm : PredicateTree.sample.predicate? ⟨1⟩ = some (.term "B" "2") := rfl
  apply (holds_iff ordered_sample hnot).2
  intro hholds
  cases (holds_iff ordered_sample hterm).1 hholds

theorem PredicateTree.holds_sample :
    PredicateTree.sample.Holds (ShardIndex.sample.facts "20240102_0" "x") ⟨3⟩ := by
  have hand : PredicateTree.sample.predicate? ⟨3⟩ = some (.and [⟨0⟩, ⟨2⟩]) := rfl
  have hterm : PredicateTree.sample.predicate? ⟨0⟩ = some (.term "A" "1") := rfl
  apply (holds_iff ordered_sample hand).2
  intro child hchild
  simp only [List.mem_cons, List.not_mem_nil, or_false] at hchild
  rcases hchild with rfl | rfl
  · exact (holds_iff ordered_sample hterm).2 rfl
  · exact holds_sample_not

theorem Query.drain_complete_sample :
    ∃ s entries, (Query.sample.stream (ShardIndex.leafOf (Query.sample.scanOptions none))
        .sample).1 = .ok s ∧ s.drain.1 = .ok entries ∧
      ∃ e ∈ entries, e.shard = "20240102_0" ∧
        (e.set.infinite = true ∨ e.set.contains "x" = true) := by
  obtain ⟨s, hmade⟩ : ∃ s, (Query.sample.stream
      (ShardIndex.leafOf (Query.sample.scanOptions none)) .sample).1 = .ok s := ⟨_, rfl⟩
  have hprunes : s.canPrune = true := by
    cases hmade
    rfl
  obtain ⟨⟨entries, hdrain, hlost⟩, -⟩ := Query.drain_complete PredicateTree.ordered_sample
    (ShardIndex.agreesWith_facts _) rfl hmade
  have hmatch : Query.sample.Matches ShardIndex.sample.facts "20240102_0" "x" :=
    ⟨⟨3⟩, rfl, PredicateTree.holds_sample⟩
  exact ⟨s, entries, hmade, hdrain, hlost hprunes _ _ hmatch nofun⟩

end ShardSearch
