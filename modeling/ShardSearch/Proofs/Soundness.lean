import ShardSearch.Proofs.Completeness
import ShardSearch.Proofs.Overlap

/-!
# Nothing unjustified is let through

A stream is `Justified` for a node if whatever it lets through, once the nodes it puts off are
checked, is justified: the node holds, where a term that a scan did not enumerate is taken to hold;
and every record is credited to a node that holds in the same way, one of the terms and
conjunctions that the choice between alternatives can lead to.
-/

namespace ShardSearch

namespace PredicateTree

/-- The nodes met going down through disjunctions and through conjunctions of a single part. -/
inductive LeadsTo (t : PredicateTree) : NodeId → NodeId → Prop where
  | here (id : NodeId) : LeadsTo t id id
  | or {id child target : NodeId} (children : List NodeId)
      (shape : t.predicate? id = some (.or children)) (mem : child ∈ children)
      (rest : LeadsTo t child target) : LeadsTo t id target
  | and {id child target : NodeId} (shape : t.predicate? id = some (.and [child]))
      (rest : LeadsTo t child target) : LeadsTo t id target

/-- Whether a node can be credited with a match of another one: it is a term or a conjunction that
    the other one leads to. -/
def CanCredit (t : PredicateTree) (id target : NodeId) : Prop :=
  t.LeadsTo id target ∧
    ((∃ field value, t.predicate? target = some (.term field value)) ∨
      ∃ children, t.predicate? target = some (.and children))

variable {t : PredicateTree} {id child target : NodeId}

theorem CanCredit.or {children : List NodeId} (shape : t.predicate? id = some (.or children))
    (mem : child ∈ children) (h : t.CanCredit child target) : t.CanCredit id target :=
  ⟨.or children shape mem h.1, h.2⟩

theorem CanCredit.and (shape : t.predicate? id = some (.and [child]))
    (h : t.CanCredit child target) : t.CanCredit id target :=
  ⟨.and shape h.1, h.2⟩

end PredicateTree

/-- What the stream lets through for `id` is justified at every document at which the nodes it
    puts off hold. -/
structure Justified (t : PredicateTree) (ix : ShardIndex) (o : ScanOptions) (facts : Facts)
    (id : NodeId) (s : Stream) : Prop where
  clean : s.trace.Clean
  /-- A stream that is put off is put off as a node that says what `id` does. -/
  node : ∃ id', s.node = some id' ∧ ∀ terms, t.Holds terms id' ↔ t.Holds terms id
  allowed : ∀ shard uid set, s.trace.at? shard = some set →
    (∀ d ∈ s.deferredNodes, t.Holds (facts shard uid) d) → set.Allows uid →
      t.HoldsRelaxed (facts shard uid) (facts.relaxed ix o shard uid) id
  credited : ∀ shard uid set credit, s.trace.at? shard = some set →
    (∀ d ∈ s.deferredNodes, t.Holds (facts shard uid) d) → set.credits.get? uid = some credit →
      ∃ target, credit = some target ∧ t.CanCredit id target ∧
        t.HoldsRelaxed (facts shard uid) (facts.relaxed ix o shard uid) target

theorem MatchSet.allows_of_get? {s : MatchSet} {uid : String} {credit : Option NodeId}
    (h : s.credits.get? uid = some credit) : s.Allows uid :=
  .inr (by rw [contains_eq, h]; rfl)

namespace Justified

variable {t : PredicateTree} {ix : ShardIndex} {o : ScanOptions} {facts : Facts} {id : NodeId}
  {s : Stream}

theorem leaf {field value : String} (ht : t.Ordered)
    (shape : t.predicate? id = some (.term field value)) (h : ix.LeafCase o id field value s) :
    Justified t ix o facts id s := by
  have hallowed : ∀ shard uid set, s.trace.at? shard = some set → set.Allows uid →
      t.HoldsRelaxed (facts shard uid) (facts.relaxed ix o shard uid) id := by
    intro shard uid set hset hallows
    rw [h.at?_eq] at hset
    split at hset
    · next hprunes =>
      obtain ⟨posting, hget, rfl⟩ := Option.map_eq_some_iff.1 hset
      apply (PredicateTree.holdsRelaxed_iff ht shape).2
      show facts.relaxed ix o shard uid field value
      rw [Facts.relaxed, if_pos (h.indexed hprunes.1)]
      refine (TermScan.allows_setOf.1 hallows).imp ?_ ?_
      · intro hcontains
        exact ShardIndex.holds_iff_exists.2 ⟨posting, hget, hcontains⟩
      · intro hover
        rw [ShardIndex.postingOf, hget]
        exact hover
    · cases hset
  refine ⟨h.clean, ⟨id, h.node_eq, fun _ => Iff.rfl⟩,
    fun shard uid set hset _ => hallowed shard uid set hset, ?_⟩
  intro shard uid set credit hset _ hcredit
  refine ⟨id, ?_, ⟨.here id, .inl ⟨field, value, shape⟩⟩,
    hallowed shard uid set hset (MatchSet.allows_of_get? hcredit)⟩
  rw [h.at?_eq] at hset
  split at hset
  · obtain ⟨posting, hget, rfl⟩ := Option.map_eq_some_iff.1 hset
    exact TermScan.credit_of_get?_setOf hcredit
  · cases hset

theorem putOff {label : String} :
    Justified t ix o facts id ((Stream.delayed (some id)).withLabel label) := by
  have hnone : ∀ shard,
      ((Stream.delayed (some id)).withLabel label).trace.at? shard = none := by
    intro shard
    rw [Stream.trace_withLabel]
    rfl
  refine ⟨?_, ⟨id, Stream.node_withLabel, fun _ => Iff.rfl⟩, ?_, ?_⟩
  · rw [Stream.trace_withLabel]
    exact Trace.clean_stop
  · intro shard uid set hset
    rw [hnone] at hset
    cases hset
  · intro shard uid set credit hset
    rw [hnone] at hset
    cases hset

theorem single {child : NodeId} (ht : t.Ordered)
    (shape : t.predicate? id = some (.and [child]) ∨ t.predicate? id = some (.or [child]))
    (h : Justified t ix o facts child s) : Justified t ix o facts id s := by
  obtain ⟨id', hnode, hsame⟩ := h.node
  refine ⟨h.clean, ⟨id', hnode, ?_⟩, ?_, ?_⟩
  · intro terms
    rw [PredicateTree.holds_iff_of_single ht shape]
    exact hsame terms
  · intro shard uid set hset hput hallows
    rw [PredicateTree.holdsRelaxed_iff_of_single ht shape]
    exact h.allowed shard uid set hset hput hallows
  · intro shard uid set credit hset hput hcredit
    obtain ⟨target, rfl, hcan, hholds⟩ := h.credited shard uid set credit hset hput hcredit
    refine ⟨target, rfl, ?_, hholds⟩
    rcases shape with shape | shape
    · exact hcan.and shape
    · exact hcan.or shape List.mem_cons_self

section Composites

variable {children : List NodeId} {streams : List Stream}
  (h : List.Forall₂ (Justified t ix o facts) children streams)

include h

/-- Each part of a conjunction holds where the intersection lets a document through: those that
    prune let it through themselves, and those put off are checked. -/
theorem relaxed_of_allows_intersect (ht : t.Ordered) (hfacts : facts.AgreesWith ix)
    (hmake : Stream.intersect (some id) streams = .ok s) {shard uid : String} {set : MatchSet}
    (hset : s.trace.at? shard = some set)
    (hput : ∀ d ∈ s.deferredNodes, t.Holds (facts shard uid) d) (hallows : set.Allows uid)
    {child : NodeId} (hchild : child ∈ children) :
    t.HoldsRelaxed (facts shard uid) (facts.relaxed ix o shard uid) child := by
  have hclean := Stream.clean_of_forall₂ h fun _ _ hjust => hjust.clean
  obtain ⟨hpresent, hheld, rfl⟩ := Stream.of_at?_intersect hmake hclean hset
  rw [Stream.deferredNodes_intersect hmake hpresent] at hput
  obtain ⟨s', hs', hjust⟩ := h.exists_of_mem_left hchild
  cases hprunes : s'.canPrune with
  | true =>
    obtain ⟨set', hset'⟩ := Option.isSome_iff_exists.1 (hheld s' hs' hprunes)
    have hmem : s' ∈ streams.filter Stream.canPrune := List.mem_filter.2 ⟨hs', hprunes⟩
    refine hjust.allowed shard uid set' hset' (fun d hd => hput d ?_) ?_
    · exact List.mem_append_right _ (List.mem_flatMap.2 ⟨s', hmem, hd⟩)
    · exact MatchSet.allows_intersect.1 hallows set' (List.mem_filterMap.2 ⟨s', hmem, hset'⟩)
  | false =>
    obtain ⟨id', hnode, hsame⟩ := hjust.node
    have hmem : s' ∈ streams.filter (!·.canPrune) := List.mem_filter.2 ⟨hs', by simp [hprunes]⟩
    have hholds := hput id' (List.mem_append_left _ (List.mem_filterMap.2 ⟨s', hmem, hnode⟩))
    exact PredicateTree.holdsRelaxed_of_holds ht (fun _ _ => hfacts.relaxed_of_fact)
      ((hsame _).1 hholds)

theorem intersect (ht : t.Ordered) (hfacts : facts.AgreesWith ix)
    (shape : t.predicate? id = some (.and children))
    (hmake : Stream.intersect (some id) streams = .ok s) : Justified t ix o facts id s := by
  have hclean := Stream.clean_of_forall₂ h fun _ _ hjust => hjust.clean
  have hallowed : ∀ shard uid set, s.trace.at? shard = some set →
      (∀ d ∈ s.deferredNodes, t.Holds (facts shard uid) d) → set.Allows uid →
        t.HoldsRelaxed (facts shard uid) (facts.relaxed ix o shard uid) id := by
    intro shard uid set hset hput hallows
    apply (PredicateTree.holdsRelaxed_iff ht shape).2
    intro child hchild
    exact relaxed_of_allows_intersect h ht hfacts hmake hset hput hallows hchild
  refine ⟨Stream.clean_intersect hmake hclean,
    ⟨id, Stream.node_intersect hmake, fun _ => Iff.rfl⟩, hallowed, ?_⟩
  intro shard uid set credit hset hput hcredit
  refine ⟨id, ?_, ⟨.here id, .inr ⟨children, shape⟩⟩,
    hallowed shard uid set hset hput (MatchSet.allows_of_get? hcredit)⟩
  obtain ⟨-, -, rfl⟩ := Stream.of_at?_intersect hmake hclean hset
  exact MatchSet.credit_of_get?_intersect hcredit

/-- Each set a union is made of is one of a part of the disjunction, and whatever that part puts
    off the union does. -/
theorem exists_source (hmake : Stream.unite (some id) streams = .ok s) {shard : String}
    {set : MatchSet}
    (hset : set ∈ (streams.filter (·.context ≠ .absent)).filterMap (·.trace.at? shard)) :
    ∃ child ∈ children, ∃ s', Justified t ix o facts child s' ∧ s'.trace.at? shard = some set ∧
      ∀ d ∈ s'.deferredNodes, d ∈ s.deferredNodes := by
  obtain ⟨s', hs', hat⟩ := List.mem_filterMap.1 hset
  obtain ⟨child, hchild, hjust⟩ := h.exists_of_mem_right (List.mem_filter.1 hs').1
  refine ⟨child, hchild, s', hjust, hat, ?_⟩
  intro d hd
  rw [Stream.deferredNodes_unite hmake]
  exact List.mem_flatMap.2 ⟨s', hs', hd⟩

theorem unite (ht : t.Ordered) (shape : t.predicate? id = some (.or children))
    (hmake : Stream.unite (some id) streams = .ok s) : Justified t ix o facts id s := by
  have hclean := Stream.clean_of_forall₂ h fun _ _ hjust => hjust.clean
  refine ⟨Stream.clean_unite hmake hclean, ⟨id, Stream.node_unite hmake, fun _ => Iff.rfl⟩,
    ?_, ?_⟩
  · intro shard uid set hset hput hallows
    obtain rfl := Stream.of_at?_unite hmake hclean hset
    obtain ⟨set', hset', hallows'⟩ := MatchSet.allows_unite.1 hallows
    obtain ⟨child, hchild, s', hjust, hat, hsub⟩ := exists_source h hmake hset'
    exact (PredicateTree.holdsRelaxed_iff ht shape).2 ⟨child, hchild,
      hjust.allowed shard uid set' hat (fun d hd => hput d (hsub d hd)) hallows'⟩
  · intro shard uid set credit hset hput hcredit
    obtain rfl := Stream.of_at?_unite hmake hclean hset
    rw [MatchSet.get?_unite] at hcredit
    obtain ⟨set', hset', hcredit'⟩ := List.exists_of_findSome?_eq_some hcredit
    obtain ⟨child, hchild, s', hjust, hat, hsub⟩ := exists_source h hmake hset'
    obtain ⟨target, rfl, hcan, hholds⟩ :=
      hjust.credited shard uid set' credit hat (fun d hd => hput d (hsub d hd)) hcredit'
    exact ⟨target, rfl, hcan.or shape hchild, hholds⟩

end Composites

/-- The stream made for a node is justified for it. -/
theorem of_nodeCase (ht : t.Ordered) (hfacts : facts.AgreesWith ix)
    (h : NodeCase t ix o (Justified t ix o facts) id s) : Justified t ix o facts id s := by
  cases h with
  | term field value shape hleaf => exact leaf ht shape hleaf
  | single child shape made => exact single ht shape made
  | intersection children streams shape made joined => exact intersect made ht hfacts shape joined
  | union children streams shape made joined => exact unite made ht shape joined
  | putOff child label shape => exact putOff

/-- Dropping descendants lets through less, and changes no credit. -/
theorem dropDescendants (parent : Option NodeId) (h : Justified t ix o facts id s) :
    Justified t ix o facts id (s.dropDescendants parent) := by
  have htrace : (s.dropDescendants parent).trace = s.trace.mapSets .dropCovered := by
    rw [Stream.dropDescendants, Stream.trace, ← funext MatchSet.removeOverlapping_eq]
  have hdeferred : (s.dropDescendants parent).deferredNodes = s.deferredNodes := by
    rw [Stream.dropDescendants, Stream.deferredNodes]
  have hbefore : ∀ {shard set}, (s.dropDescendants parent).trace.at? shard = some set →
      ∃ set', s.trace.at? shard = some set' ∧ set'.dropCovered = set := by
    intro shard set hset
    rw [htrace, Trace.at?_mapSets] at hset
    exact Option.map_eq_some_iff.1 hset
  refine ⟨htrace ▸ h.clean.mapSets _, h.node, ?_, ?_⟩
  · intro shard uid set hset hput hallows
    obtain ⟨set', hset', rfl⟩ := hbefore hset
    rw [hdeferred] at hput
    exact h.allowed shard uid set' hset' hput (MatchSet.allows_of_allows_dropCovered hallows)
  · intro shard uid set credit hset hput hcredit
    obtain ⟨set', hset', rfl⟩ := hbefore hset
    rw [hdeferred] at hput
    exact h.credited shard uid set' credit hset' hput (MatchSet.get?_of_get?_dropCovered hcredit)

end Justified

/-- The stream of a query is read to its end without failure, and what it lets through is
    justified at every document at which the nodes it puts off hold: each record is credited to a
    term or conjunction that the root leads to and that holds, and the root holds where the set is
    infinite or lists the uid; both as far as scans can tell. -/
theorem Query.drain_sound {q : Query} {ix : ShardIndex} {range : Option ShardRange}
    {facts : Facts} {s : Stream} (htree : q.tree.Ordered) (hfacts : facts.AgreesWith ix)
    (hmade : (q.stream (ShardIndex.leafOf (q.scanOptions range)) ix).1 = .ok s) :
    ∃ root entries, q.tree.root = some root ∧ s.drain.1 = .ok entries ∧
      ∀ e ∈ entries, ∀ uid, (∀ d ∈ s.deferredNodes, q.tree.Holds (facts e.shard uid) d) →
        (∀ r ∈ e.set.records, r.uid = uid →
          ∃ n, r.node = some n ∧ q.tree.CanCredit root n ∧
            q.tree.HoldsRelaxed (facts e.shard uid)
              (facts.relaxed ix (q.scanOptions range) e.shard uid) n) ∧
        (e.set.infinite = true ∨ e.set.contains uid = true →
          q.tree.HoldsRelaxed (facts e.shard uid)
            (facts.relaxed ix (q.scanOptions range) e.shard uid) root) := by
  obtain ⟨root, s', hroot, hbelow, hs⟩ := Query.stream_ok hmade
  have hjust : Justified q.tree ix (q.scanOptions range) facts root s := by
    have hbelow := hbelow.induct fun id s => Justified.of_nodeCase htree hfacts
    rw [hs]
    split
    · exact hbelow.dropDescendants none
    · exact hbelow
  refine ⟨root, s.trace.entries, hroot, ?_, ?_⟩
  · rw [Stream.drain_eq, hjust.clean.sound]
  · intro e he uid hput
    have hset := (Trace.at?_eq_some_iff hjust.clean.ascending).2 he
    refine ⟨?_, hjust.allowed e.shard uid e.set hset hput⟩
    rintro r hr rfl
    exact hjust.credited e.shard r.uid e.set r.node hset hput (MatchSet.mem_records_iff.1 hr)

theorem Query.drain_sound_sample :
    ∃ s entries, (Query.sample.stream (ShardIndex.leafOf (Query.sample.scanOptions none))
        .sample).1 = .ok s ∧ s.drain.1 = .ok entries ∧
      ∃ e ∈ entries, e.set.contains "x" = true ∧
        PredicateTree.sample.HoldsRelaxed (ShardIndex.sample.facts e.shard "x")
          (ShardIndex.sample.facts.relaxed .sample (Query.sample.scanOptions none) e.shard "x")
          ⟨3⟩ := by
  obtain ⟨s, hmade⟩ : ∃ s, (Query.sample.stream
      (ShardIndex.leafOf (Query.sample.scanOptions none)) .sample).1 = .ok s := ⟨_, rfl⟩
  obtain ⟨root, entries, hroot, hdrain, hsound⟩ := Query.drain_sound PredicateTree.ordered_sample
    (ShardIndex.agreesWith_facts _) hmade
  cases hroot
  cases hmade
  have hentries : entries = [⟨"20240102_0", "20240102_0", some ⟨3⟩, false,
      .ofList [("x", some ⟨3⟩), ("y", some ⟨3⟩)]⟩] := (Except.ok.inj hdrain).symm
  subst hentries
  refine ⟨_, _, rfl, hdrain, _, List.mem_cons_self, rfl, ?_⟩
  refine (hsound _ List.mem_cons_self "x" ?_).2 (.inr rfl)
  intro d hd
  obtain rfl : d = ⟨2⟩ := List.mem_singleton.1 hd
  exact PredicateTree.holds_sample_not

end ShardSearch
