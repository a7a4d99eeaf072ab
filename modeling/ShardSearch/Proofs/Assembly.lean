import ShardSearch.Proofs.Building
import ShardSearch.Proofs.Composite
import ShardSearch.Proofs.IndexUpdate
import ShardSearch.Proofs.Overlap
import ShardSearch.Proofs.StreamPlan

/-!
# Streams put together from leaves

`Stream.BuiltFrom` are the streams that intersections, unions and the dropping of descendants make
out of leaves of some kind.  What these ways preserve of a trace follows for all such streams from
the leaves alone: that its shards ascend (`BuiltFrom.ascending`), and any property of its entries
that composites bring about and the dropping of descendants keeps (`BuiltFrom.forall_entries`).
The stream of a query is put together so (`Query.builtFrom_stream`).
-/

namespace ShardSearch

namespace Stream

/-- The streams put together from leaves of one kind. -/
inductive BuiltFrom (leaf : Stream → Prop) : Stream → Prop where
  | leaf {s : Stream} (kind : leaf s) : BuiltFrom leaf s
  | intersection {node : Option NodeId} {children : List Stream} {s : Stream}
      (parts : ∀ child ∈ children, BuiltFrom leaf child)
      (made : intersect node children = .ok s) : BuiltFrom leaf s
  | union {node : Option NodeId} {children : List Stream} {s : Stream}
      (parts : ∀ child ∈ children, BuiltFrom leaf child)
      (made : unite node children = .ok s) : BuiltFrom leaf s
  | ancestor {delegate : Stream} (parent : Option NodeId) (part : BuiltFrom leaf delegate) :
      BuiltFrom leaf (delegate.dropDescendants parent)

/-- A leaf over any data in memory or over any scanner, under any label. -/
def IsLeaf (s : Stream) : Prop :=
  ∃ (node : Option NodeId) (plan : LeafPlan) (unlabelled : Stream) (label : String),
    plan.stream node = .ok unlabelled ∧ s = unlabelled.withLabel label

/-- A leaf that an index supplies for a term, or one that is put off to the reading of documents. -/
inductive IsIndexLeaf : Stream → Prop where
  | supplied {ix : ShardIndex} {s : Stream} (o : ScanOptions) (id : NodeId) (field value : String)
      (reachable : ix.Reachable) (leaf : (ShardIndex.leafOf o id field value ix).1 = .ok s) :
      IsIndexLeaf s
  | putOff (node : Option NodeId) (label : String) : IsIndexLeaf ((delayed node).withLabel label)

/-- The stream is an intersection or a union. -/
def IsComposite : Stream → Prop
  | intersection .. | union .. => True
  | leaf .. | scan .. | ancestor .. => False

variable {leaf : Stream → Prop} {s : Stream}

/-! ## What composites preserve -/

theorem ascending_intersect {node : Option NodeId} {children : List Stream}
    (made : intersect node children = .ok s)
    (parts : ∀ child ∈ children, child.trace.Ascending) : s.trace.Ascending := by
  rw [trace_intersect made]
  split
  · exact Trace.ascending_stop none
  · refine (Trace.ascending_meet node ?_).1
    intro t ht
    obtain ⟨child, hchild, rfl⟩ := List.mem_map.1 ht
    exact parts child (List.mem_of_mem_filter hchild)

theorem ascending_unite {node : Option NodeId} {children : List Stream}
    (made : unite node children = .ok s)
    (parts : ∀ child ∈ children, child.trace.Ascending) : s.trace.Ascending := by
  rw [trace_unite made]
  refine (Trace.ascending_join node ?_).1
  intro t ht
  obtain ⟨child, hchild, rfl⟩ := List.mem_map.1 ht
  exact parts child (List.mem_of_mem_filter hchild)

/-- If the shards of all leaves ascend, so do those of the stream. -/
theorem BuiltFrom.ascending (h : s.BuiltFrom leaf) (hleaf : ∀ s, leaf s → s.trace.Ascending) :
    s.trace.Ascending := by
  induction h with
  | leaf kind => exact hleaf _ kind
  | intersection parts made ih => exact ascending_intersect made ih
  | union parts made ih => exact ascending_unite made ih
  | ancestor parent part ih =>
    rw [dropDescendants, trace]
    exact List.pairwise_map.2 ih

theorem made_of_mem_intersect {node : Option NodeId} {children : List Stream}
    (made : intersect node children = .ok s) : ∀ e ∈ s.trace.entries, Trace.Made e := by
  rw [trace_intersect made]
  split
  · exact fun e he => nomatch he
  · exact Trace.made_of_mem_meet node _

theorem made_of_mem_unite {node : Option NodeId} {children : List Stream}
    (made : unite node children = .ok s) : ∀ e ∈ s.trace.entries, Trace.Made e := by
  rw [trace_unite made]
  exact Trace.made_of_mem_join node _

/-- A property of the entries of leaves is one of all entries, if what composites make has it and
    the dropping of descendants keeps it. -/
theorem BuiltFrom.forall_entries {P : Entry → Prop} (h : s.BuiltFrom leaf)
    (hleaf : ∀ s, leaf s → ∀ e ∈ s.trace.entries, P e) (hmade : ∀ e, Trace.Made e → P e)
    (hdrop : ∀ e, P e → P { e with set := e.set.removeOverlapping }) :
    ∀ e ∈ s.trace.entries, P e := by
  induction h with
  | leaf kind => exact hleaf _ kind
  | intersection parts made => exact fun e he => hmade e (made_of_mem_intersect made e he)
  | union parts made => exact fun e he => hmade e (made_of_mem_unite made e he)
  | ancestor parent part ih =>
    rw [dropDescendants, trace]
    intro e he
    obtain ⟨e', he', rfl⟩ := List.mem_map.1 he
    exact hdrop e' (ih e' he')

/-- An intersection or a union passes on no entry in which nothing can match. -/
theorem BuiltFrom.made_of_isComposite (h : s.BuiltFrom leaf) (hleaf : ∀ s, leaf s → ¬ s.IsComposite)
    (hs : s.IsComposite) : ∀ e ∈ s.trace.entries, Trace.Made e := by
  cases h with
  | leaf kind => exact absurd hs (hleaf _ kind)
  | intersection parts made => exact made_of_mem_intersect made
  | union parts made => exact made_of_mem_unite made
  | ancestor parent part => exact hs.elim

/-! ## Leaves -/

/-- A set out of a source is let through if its shard lies above the last one. -/
theorem traceFrom_found {last : Option String} {set : MatchSet}
    (ascends : ∀ shard ∈ last, shard < set.shard) (items : List ScanItem) :
    Scanner.traceFrom last (.found set :: items) =
      (Scanner.traceFrom (some set.shard) items).after (some set.entry) := by
  cases last with
  | none => rfl
  | some shard =>
    rw [Scanner.traceFrom]
    exact if_pos (ascends shard rfl)

/-- A set whose shard does not lie above the last one ends the scan with an error. -/
theorem traceFrom_descending {shard : String} {set : MatchSet} (descends : ¬ shard < set.shard)
    (items : List ScanItem) :
    Scanner.traceFrom (some shard) (.found set :: items) =
      .stop (some (.scannerNotAscending shard set.shard)) := by
  rw [Scanner.traceFrom]
  exact if_neg descends

theorem ascends_or_descends (last : Option String) (set : MatchSet) :
    (∀ shard ∈ last, shard < set.shard) ∨ ∃ shard, last = some shard ∧ ¬ shard < set.shard := by
  cases last with
  | none => exact .inl nofun
  | some shard =>
    by_cases hlt : shard < set.shard
    · exact .inl fun shard' h => Option.some.inj h ▸ hlt
    · exact .inr ⟨shard, rfl, hlt⟩

/-- However a source orders its shards, a scan lets only ascending ones through, and only such as
    lie above the last one. -/
theorem ascending_traceFrom (last : Option String) (items : List ScanItem) :
    (Scanner.traceFrom last items).Ascending ∧
      ∀ shard ∈ last, ∀ e ∈ (Scanner.traceFrom last items).entries, shard < e.shard := by
  induction items generalizing last with
  | nil => exact ⟨.nil, fun _ _ _ he => nomatch he⟩
  | cons item items ih =>
    cases item with
    | pause | failure error => exact ⟨.nil, fun _ _ _ he => nomatch he⟩
    | found set =>
      rcases ascends_or_descends last set with hlast | ⟨shard, rfl, hdescends⟩
      · obtain ⟨hasc, habove⟩ := ih (some set.shard)
        rw [traceFrom_found hlast]
        refine ⟨Trace.ascending_cons.2 ⟨habove set.shard rfl, hasc⟩, ?_⟩
        intro shard hshard e he
        have hlt := hlast shard hshard
        rcases List.mem_cons.1 he with rfl | he
        · exact hlt
        · exact String.lt_trans hlt (habove set.shard rfl e he)
      · rw [traceFrom_descending hdescends]
        exact ⟨.nil, fun _ _ _ he => nomatch he⟩

/-- What a scan lets through is what its source yields, under the shard each set names. -/
theorem mem_traceFrom {last : Option String} {items : List ScanItem} {e : Entry}
    (he : e ∈ (Scanner.traceFrom last items).entries) :
    ∃ set, .found set ∈ items ∧ e = set.entry := by
  induction items generalizing last with
  | nil => cases he
  | cons item items ih =>
    cases item with
    | pause | failure error => cases he
    | found set =>
      rcases ascends_or_descends last set with hlast | ⟨shard, rfl, hdescends⟩
      · rw [traceFrom_found hlast] at he
        rcases List.mem_cons.1 he with rfl | he
        · exact ⟨set, List.mem_cons_self, rfl⟩
        · obtain ⟨set', hset', heq⟩ := ih he
          exact ⟨set', List.mem_cons_of_mem _ hset', heq⟩
      · rw [traceFrom_descending hdescends] at he
        cases he

theorem ascendingSets_of_checkAscending {sets : List MatchSet} (h : checkAscending sets = .ok ()) :
    AscendingSets sets := by
  induction sets with
  | nil => exact .nil
  | cons a sets ih =>
    cases sets with
    | nil => exact List.pairwise_singleton _ _
    | cons b sets =>
      rw [checkAscending] at h
      split at h
      · next hlt =>
        have hrest := ih h
        refine List.pairwise_cons.2 ⟨?_, hrest⟩
        intro c hc
        rcases List.mem_cons.1 hc with rfl | hc
        · exact hlt
        · exact String.lt_trans hlt ((List.pairwise_cons.1 hrest).1 c hc)
      · cases h

/-- A leaf over data in memory can be made only if the shards of the data ascend. -/
theorem of_leafOf_eq_ok {node : Option NodeId} {context : Context} {sets : List MatchSet}
    (h : leafOf node context sets = .ok s) :
    AscendingSets sets ∧ s = .leaf node context (defaultLabel node) (sets.map (·.entry)) := by
  unfold leafOf at h
  cases hcheck : checkAscending sets with
  | error e => rw [hcheck] at h; cases h
  | ok _ =>
    rw [hcheck] at h
    cases h
    exact ⟨ascendingSets_of_checkAscending hcheck, rfl⟩

/-- The ways a leaf is made: it is over ascending data in memory, or over a scanner. -/
theorem isLeaf_cases (h : s.IsLeaf) :
    (∃ node context label sets, AscendingSets sets ∧
      s = .leaf node context label (sets.map (·.entry))) ∨
    ∃ node label items, s = .scan node label (.ofItems items) .unread := by
  obtain ⟨node, plan, unlabelled, label, hplan, rfl⟩ := h
  cases plan with
  | complete sets | varying sets =>
    obtain ⟨hasc, rfl⟩ := of_leafOf_eq_ok hplan
    exact .inl ⟨_, _, label, sets, hasc, rfl⟩
  | absent | delayed | unindexed =>
    cases hplan
    exact .inl ⟨_, _, label, [], .nil, rfl⟩
  | scan items =>
    cases hplan
    exact .inr ⟨_, label, items, rfl⟩

theorem isLeaf_delayed (node : Option NodeId) : (delayed node).IsLeaf :=
  ⟨node, .delayed, delayed node, defaultLabel node, rfl, rfl⟩

theorem IsLeaf.ascending (h : s.IsLeaf) : s.trace.Ascending := by
  rcases isLeaf_cases h with ⟨node, context, label, sets, hasc, rfl⟩ | ⟨node, label, items, rfl⟩
  · exact List.pairwise_map.2 hasc
  · exact (ascending_traceFrom none items).1

theorem IsLeaf.filed (h : s.IsLeaf) : ∀ e ∈ s.trace.entries, e.set.shard = e.shard := by
  rcases isLeaf_cases h with ⟨node, context, label, sets, hasc, rfl⟩ | ⟨node, label, items, rfl⟩
  · intro e he
    obtain ⟨set, -, rfl⟩ := List.mem_map.1 he
    rfl
  · intro e he
    obtain ⟨set, -, rfl⟩ := mem_traceFrom he
    rfl

theorem IsLeaf.not_isComposite (h : s.IsLeaf) : ¬ s.IsComposite := by
  rcases isLeaf_cases h with ⟨node, context, label, sets, hasc, rfl⟩ | ⟨node, label, items, rfl⟩
  · exact id
  · exact id

/-- A leaf over an index that has been built up by adding entries lists no shard without a uid. -/
theorem IsIndexLeaf.matching (h : s.IsIndexLeaf) :
    ∀ e ∈ s.trace.entries, e.set.matchesNothing = false := by
  cases h with
  | putOff node label =>
    rw [trace_withLabel]
    exact fun e he => nomatch he
  | @supplied ix _ o id field value reachable hleaf =>
    obtain ⟨leaf, hok, hcase, -⟩ :=
      ShardIndex.leafOf_cases o id field value (Eq.refl ix.uncounted)
    cases hok.symm.trans hleaf
    intro e he
    have hset := (Trace.at?_eq_some_iff hcase.clean.ascending).2 he
    rw [hcase.at?_eq] at hset
    split at hset
    · obtain ⟨posting, hget, hset⟩ := Option.map_eq_some_iff.1 hset
      obtain ⟨uid, huid⟩ := reachable.exists_uid hget
      rw [← hset, MatchSet.matchesNothing_eq_false_iff]
      exact (TermScan.allows_setOf.2 (.inl huid)).imp_right fun hcontains => ⟨uid, hcontains⟩
    · cases hset

end Stream

/-! ## Plans -/

namespace StreamPlan

theorem isLeaf_of_stream {plan : LeafPlan} {node : Option NodeId} {s : Stream}
    (h : plan.stream node = .ok s) : s.IsLeaf := by
  have hlabel : ∃ label, s = s.withLabel label := by
    cases plan with
    | complete sets | varying sets =>
      obtain ⟨-, rfl⟩ := Stream.of_leafOf_eq_ok h
      exact ⟨_, rfl⟩
    | absent | delayed | unindexed | scan items =>
      cases h
      exact ⟨_, rfl⟩
  obtain ⟨label, hlabel⟩ := hlabel
  exact ⟨node, plan, s, label, h, hlabel⟩

mutual

/-- What is made by a plan is put together from leaves. -/
theorem builtFrom_make : ∀ {p : StreamPlan} {s : Stream}, p.make = .ok s →
    s.BuiltFrom Stream.IsLeaf
  | leaf node plan, s, h => .leaf (isLeaf_of_stream h)
  | intersection node parts, s, h => by
    rw [make] at h
    cases hparts : makeAll parts with
    | error e => rw [hparts] at h; cases h
    | ok ss =>
      rw [hparts] at h
      exact .intersection (builtFrom_makeAll hparts) h
  | union node parts, s, h => by
    rw [make] at h
    cases hparts : makeAll parts with
    | error e => rw [hparts] at h; cases h
    | ok ss =>
      rw [hparts] at h
      exact .union (builtFrom_makeAll hparts) h
  | ancestor parent part, s, h => by
    rw [make] at h
    cases hpart : make part with
    | error e => rw [hpart] at h; cases h
    | ok delegate =>
      rw [hpart] at h
      cases h
      exact .ancestor parent (builtFrom_make hpart)

theorem builtFrom_makeAll : ∀ {ps : List StreamPlan} {ss : List Stream}, makeAll ps = .ok ss →
    ∀ s ∈ ss, s.BuiltFrom Stream.IsLeaf
  | [], ss, h => by
    rw [makeAll] at h
    cases h
    exact nofun
  | p :: rest, ss, h => by
    rw [makeAll] at h
    cases hp : make p with
    | error e => rw [hp] at h; cases h
    | ok s =>
      cases hrest : makeAll rest with
      | error e => rw [hp, hrest] at h; cases h
      | ok ss' =>
        rw [hp, hrest] at h
        cases h
        exact List.forall_mem_cons.2 ⟨builtFrom_make hp, builtFrom_makeAll hrest⟩

end

end StreamPlan

/-! ## Queries -/

/-- What an index supplies for a term is a leaf. -/
theorem ShardIndex.LeafCase.isLeaf {ix : ShardIndex} {o : ScanOptions} {id : NodeId}
    {field value : String} {s : Stream} (h : ix.LeafCase o id field value s) : s.IsLeaf := by
  cases h with
  | unindexed label => exact ⟨some id, .unindexed, _, label, rfl, rfl⟩
  | missing label => exact ⟨some id, .absent, _, label, rfl, rfl⟩
  | scanned label => exact ⟨some id, .scan _, _, label, rfl, rfl⟩

theorem NodeCase.builtFrom {t : PredicateTree} {ix : ShardIndex} {o : ScanOptions} {id : NodeId}
    {s : Stream} (h : NodeCase t ix o (fun _ s => s.BuiltFrom Stream.IsLeaf) id s) :
    s.BuiltFrom Stream.IsLeaf := by
  have hparts {children : List NodeId} {streams : List Stream}
      (made : List.Forall₂ (fun _ s => s.BuiltFrom Stream.IsLeaf) children streams) :
      ∀ s ∈ streams, s.BuiltFrom Stream.IsLeaf := by
    intro s hs
    obtain ⟨child, -, hchild⟩ := made.exists_of_mem_right hs
    exact hchild
  cases h with
  | term field value shape leaf => exact .leaf leaf.isLeaf
  | single child shape made => exact made
  | intersection children streams shape made joined => exact .intersection (hparts made) joined
  | union children streams shape made joined => exact .union (hparts made) joined
  | putOff child label shape => exact .leaf ⟨some id, .delayed, _, label, rfl, rfl⟩

/-- The stream of a query over an index is put together from leaves. -/
theorem Query.builtFrom_stream {q : Query} {o : ScanOptions} {ix : ShardIndex} {s : Stream}
    (h : (q.stream (ShardIndex.leafOf o) ix).1 = .ok s) : s.BuiltFrom Stream.IsLeaf := by
  obtain ⟨root, s', -, hmade, rfl⟩ := stream_ok h
  have hbuilt := hmade.induct fun _ _ => NodeCase.builtFrom
  split
  · exact .ancestor none hbuilt
  · exact hbuilt

end ShardSearch
