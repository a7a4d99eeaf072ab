import ShardSearch.Proofs.Completeness
import ShardSearch.Proofs.Rebuilding

/-!
# Thresholds only widen

A lower threshold leaves more shards of a term unenumerated.  It never narrows a result: whatever
is let through under a higher threshold is let through under a lower one (`Query.drain_widens`),
because intersections and unions of wider sets are wider.
-/

namespace ShardSearch

namespace MatchSet

/-- The set `s` lets through whatever `s'` does, and is infinite if `s'` is. -/
structure Wider (s s' : MatchSet) : Prop where
  infinite : s'.infinite = true → s.infinite = true
  allows : ∀ uid, s'.Allows uid → s.Allows uid

variable {s s' : MatchSet} {sets sets' : List MatchSet} {shard : String} {node : Option NodeId}

theorem Wider.kept (h : s.Wider s') (hkept : s'.kept = some s') : s.kept = some s := by
  rcases (kept_eq_some_iff.1 hkept).2 with hinfinite | ⟨uid, hcontains⟩
  · exact kept_eq_some_iff.2 ⟨rfl, .inl (h.infinite hinfinite)⟩
  · exact kept_of_allows (h.allows uid (.inr hcontains))

/-- Wherever each set is wider than some other, so is the intersection. -/
theorem wider_intersect (h : ∀ s ∈ sets, ∃ s' ∈ sets', s.Wider s') :
    (intersect shard node sets).Wider (intersect shard node sets') := by
  constructor
  · rw [infinite_intersect, infinite_intersect, List.all_eq_true, List.all_eq_true]
    intro hall s hs
    obtain ⟨s', hs', hwider⟩ := h s hs
    exact hwider.infinite (hall s' hs')
  · intro uid
    rw [allows_intersect, allows_intersect]
    intro hall s hs
    obtain ⟨s', hs', hwider⟩ := h s hs
    exact hwider.allows uid (hall s' hs')

/-- Wherever some set is wider than each other, so is the union. -/
theorem wider_unite (h : ∀ s' ∈ sets', ∃ s ∈ sets, s.Wider s') :
    (unite shard node sets).Wider (unite shard node sets') := by
  constructor
  · rw [infinite_unite, infinite_unite, List.any_eq_true, List.any_eq_true]
    rintro ⟨s', hs', hinfinite⟩
    obtain ⟨s, hs, hwider⟩ := h s' hs'
    exact ⟨s, hs, hwider.infinite hinfinite⟩
  · intro uid
    rw [allows_unite, allows_unite]
    rintro ⟨s', hs', hallows⟩
    obtain ⟨s, hs, hwider⟩ := h s' hs'
    exact ⟨s, hs, hwider.allows uid hallows⟩

end MatchSet

namespace Trace

/-- If there is a set in the second place there is a wider one in the first. -/
def SetWidens (held held' : Option MatchSet) : Prop :=
  ∀ set' ∈ held', ∃ set ∈ held, set.Wider set'

variable {held held' : List (Option MatchSet)} {node : Option NodeId} {x : String}

theorem setWidens_common (h : List.Forall₂ SetWidens held held') :
    SetWidens (common node x held) (common node x held') := by
  intro set' hset'
  obtain ⟨hall, heq⟩ := eq_of_common hset'
  have hne : held' ≠ [] := by
    rintro rfl
    cases hset'
  -- all parts on the second side hold a set, so each part on the first side holds a wider one
  have hpart : ∀ part ∈ held, ∃ set set', part = some set ∧ some set' ∈ held' ∧ set.Wider set' := by
    intro part hpart
    obtain ⟨part', hpart', hwidens⟩ := h.exists_of_mem_left hpart
    obtain ⟨set', rfl⟩ := Option.isSome_iff_exists.1 (List.all_eq_true.1 hall part' hpart')
    obtain ⟨set, rfl, hwider⟩ := hwidens set' rfl
    exact ⟨set, set', rfl, hpart', hwider⟩
  have hsome : held ≠ [] ∧ held.all Option.isSome = true := by
    refine ⟨?_, List.all_eq_true.2 ?_⟩
    · rintro rfl
      cases h
      exact hne rfl
    · intro part hmem
      obtain ⟨set, -, rfl, -⟩ := hpart part hmem
      rfl
  have hwider : (MatchSet.intersect x node (held.filterMap id)).Wider set' := by
    rw [heq]
    apply MatchSet.wider_intersect
    intro set hset
    obtain ⟨part, hmem, rfl⟩ := List.mem_filterMap.1 hset
    obtain ⟨set, set', heq, hset', hwider⟩ := hpart _ hmem
    cases heq
    exact ⟨set', List.mem_filterMap.2 ⟨_, hset', rfl⟩, hwider⟩
  have hkept : set'.kept = some set' := by
    rw [common, if_pos ⟨hne, hall⟩, ← heq] at hset'
    exact hset'
  exact ⟨_, by rw [common, if_pos hsome]; exact hwider.kept hkept, hwider⟩

theorem setWidens_pooled (h : List.Forall₂ SetWidens held held') :
    SetWidens (pooled node x held) (pooled node x held') := by
  intro set' hset'
  have heq := eq_of_pooled hset'
  have hwider : (MatchSet.unite x node (held.filterMap id)).Wider set' := by
    rw [heq]
    apply MatchSet.wider_unite
    intro set' hset'
    obtain ⟨part', hmem, rfl⟩ := List.mem_filterMap.1 hset'
    obtain ⟨part, hpart, hwidens⟩ := h.exists_of_mem_right hmem
    obtain ⟨set, rfl, hwider⟩ := hwidens set' rfl
    exact ⟨set, List.mem_filterMap.2 ⟨_, hpart, rfl⟩, hwider⟩
  have hkept : set'.kept = some set' := by
    rw [pooled, ← heq] at hset'
    exact hset'
  exact ⟨_, hwider.kept hkept, hwider⟩

/-- At every shard where the second trace holds a set, the first one holds a wider one. -/
structure Widens (t t' : Trace) : Prop where
  clean : t.Clean
  clean' : t'.Clean
  sets : ∀ x, SetWidens (t.at? x) (t'.at? x)

theorem clean_of_widens {parts parts' : List Trace} (h : List.Forall₂ Widens parts parts') :
    (∀ t ∈ parts, t.Clean) ∧ ∀ t ∈ parts', t.Clean := by
  constructor
  · intro t ht
    obtain ⟨t', -, hwidens⟩ := h.exists_of_mem_left ht
    exact hwidens.clean
  · intro t' ht'
    obtain ⟨t, -, hwidens⟩ := h.exists_of_mem_right ht'
    exact hwidens.clean'

theorem respected_widens : Respected Widens := by
  constructor
  · intro node parts parts' h
    obtain ⟨hclean, hclean'⟩ := clean_of_widens h
    refine ⟨clean_meet hclean, clean_meet hclean', ?_⟩
    intro x
    rw [at?_meet fun t ht => (hclean t ht).ascending, at?_meet fun t ht => (hclean' t ht).ascending]
    exact setWidens_common (List.rel_map (fun _ _ ht => ht.sets x) h)
  · intro node parts parts' h
    obtain ⟨hclean, hclean'⟩ := clean_of_widens h
    refine ⟨clean_join hclean, clean_join hclean', ?_⟩
    intro x
    rw [at?_join (fun t ht => (hclean t ht).ascending) fun t ht => (hclean t ht).sound,
      at?_join (fun t ht => (hclean' t ht).ascending) fun t ht => (hclean' t ht).sound]
    exact setWidens_pooled (List.rel_map (fun _ _ ht => ht.sets x) h)

end Trace

section Terms

variable {o o' : ScanOptions} {ix : ShardIndex}

/-- A shard that is too large for the higher threshold is too large for the lower one. -/
theorem ScanOptions.isOverThreshold_mono
    (hle : ∀ n' ∈ o'.uidThreshold, ∃ n ∈ o.uidThreshold, n ≤ n') {posting : PostingList}
    (h : o'.isOverThreshold posting = true) : o.isOverThreshold posting = true := by
  obtain ⟨n', hn', hover⟩ := (Option.any_eq_true _ _).1 h
  obtain ⟨n, hn, hnn'⟩ := hle n' hn'
  refine (Option.any_eq_true _ _).2 ⟨n, hn, decide_eq_true ?_⟩
  exact Nat.lt_of_le_of_lt hnn' (of_decide_eq_true hover)

/-- With a lower threshold a term is scanned to wider sets. -/
theorem ShardIndex.widens_termTrace (hrange : o.range = o'.range)
    (hle : ∀ n' ∈ o'.uidThreshold, ∃ n ∈ o.uidThreshold, n ≤ n') (id : NodeId)
    (field value : String) :
    (ix.termTrace o id field value).Widens (ix.termTrace o' id field value) := by
  refine ⟨clean_map_entry ascending_termSets, clean_map_entry ascending_termSets, ?_⟩
  intro x set' hset'
  have hadmits : o.admits x = o'.admits x := by
    rw [ScanOptions.admits, ScanOptions.admits, hrange]
  rw [termTrace, at?_termSets, Option.mem_def] at hset'
  rw [termTrace, at?_termSets, hadmits]
  split at hset'
  · next hx =>
    obtain ⟨posting, hget, rfl⟩ := Option.map_eq_some_iff.1 hset'
    rw [if_pos hx, hget]
    refine ⟨TermScan.setOf (some id) o x posting, rfl, ?_, ?_⟩
    · rw [TermScan.infinite_setOf, TermScan.infinite_setOf]
      exact ScanOptions.isOverThreshold_mono hle
    · intro uid
      rw [TermScan.allows_setOf, TermScan.allows_setOf]
      exact .imp_right (ScanOptions.isOverThreshold_mono hle)
  · cases hset'

end Terms

/-- Lowering the threshold changes nothing about whether the stream of a tree can be made, or about
    its context, its pruning and the nodes it puts off.  It is read to its end under both, and each
    shard that is read under the higher threshold is read under the lower one: there the set is
    infinite if it was so, and otherwise it is infinite or lists every uid that was listed. -/
theorem Query.drain_widens {q q' : Query} {ix : ShardIndex} {range : Option ShardRange}
    (htree : q.tree = q'.tree)
    (hvalid : q.config.validate = .ok ()) (hvalid' : q'.config.validate = .ok ())
    (hplain : q.config.ancestorDedup = false) (hplain' : q'.config.ancestorDedup = false)
    (hle : ∀ n' ∈ q'.config.uidThreshold, ∃ n ∈ q.config.uidThreshold, n ≤ n') :
    Alike
      (fun s s' => s.context = s'.context ∧ s.canPrune = s'.canPrune ∧
        s.deferredNodes = s'.deferredNodes ∧
        ∃ entries entries', s.drain.1 = .ok entries ∧ s'.drain.1 = .ok entries' ∧
          ∀ e' ∈ entries', ∃ e ∈ entries, e.shard = e'.shard ∧
            (e'.set.infinite = true → e.set.infinite = true) ∧
            (e.set.infinite = true ∨
              ∀ uid, e'.set.contains uid = true → e.set.contains uid = true))
      (q.stream (ShardIndex.leafOf (q.scanOptions range)) ix).1
      (q'.stream (ShardIndex.leafOf (q'.scanOptions range)) ix).1 := by
  have hrange : (q.scanOptions range).range = (q'.scanOptions range).range := by
    cases range <;> rfl
  have hthreshold : ∀ q : Query, (q.scanOptions range).uidThreshold = q.config.uidThreshold := by
    intro q
    cases range <;> rfl
  have hterm : ∀ id field value,
      Trace.Widens (ix.termTrace (q.scanOptions range) id field value)
        (ix.termTrace (q'.scanOptions range) id field value) := by
    apply ShardIndex.widens_termTrace hrange
    rw [hthreshold, hthreshold]
    exact hle
  have halike := stream_alike Trace.respected_widens hterm htree hvalid hvalid' hplain hplain'
  generalize (q.stream (ShardIndex.leafOf (q.scanOptions range)) ix).1 = result at halike ⊢
  generalize (q'.stream (ShardIndex.leafOf (q'.scanOptions range)) ix).1 = result' at halike ⊢
  cases halike with
  | error e => exact .error e
  | @ok s s' h =>
    obtain ⟨hclean, hclean', hsets⟩ := h.trace
    refine .ok ⟨h.context, h.canPrune, h.deferredNodes, s.trace.entries, s'.trace.entries,
      ?_, ?_, ?_⟩
    · rw [Stream.drain_eq, hclean.sound]
    · rw [Stream.drain_eq, hclean'.sound]
    · rintro ⟨shard, set'⟩ he'
      have hset' := (Trace.at?_eq_some_iff hclean'.ascending).2 he'
      obtain ⟨set, hset, hwider⟩ := hsets shard set' hset'
      refine ⟨⟨shard, set⟩, (Trace.at?_eq_some_iff hclean.ascending).1 hset, rfl,
        hwider.infinite, ?_⟩
      cases hinfinite : set.infinite with
      | true => exact .inl rfl
      | false =>
        refine .inr fun uid hcontains => ?_
        exact (hwider.allows uid (.inr hcontains)).resolve_left (by simp [hinfinite])

/-- The sample under a threshold that leaves the shard of one of its terms unenumerated. -/
def Query.sampleLow : Query := ⟨.sample, EngineConfig.standard.withUidThreshold 1⟩

theorem Query.drain_widens_sample :
    ∃ s s', (Query.sampleLow.stream
        (ShardIndex.leafOf (Query.sampleLow.scanOptions none)) .sample).1 = .ok s ∧
      (Query.sample.stream
        (ShardIndex.leafOf (Query.sample.scanOptions none)) .sample).1 = .ok s' ∧
      s.canPrune = s'.canPrune ∧ s.deferredNodes = s'.deferredNodes ∧
      ∃ entries entries', s.drain.1 = .ok entries ∧ s'.drain.1 = .ok entries' ∧
        ∀ e' ∈ entries', ∃ e ∈ entries, e.shard = e'.shard ∧
          (e.set.infinite = true ∨
            ∀ uid, e'.set.contains uid = true → e.set.contains uid = true) := by
  have hle : ∀ n' ∈ some 5, ∃ n ∈ some 1, n ≤ n' := by decide
  have halike := @Query.drain_widens sampleLow sample .sample none rfl rfl rfl rfl rfl hle
  obtain ⟨s, hs⟩ : ∃ s, (Query.sampleLow.stream
      (ShardIndex.leafOf (Query.sampleLow.scanOptions none)) .sample).1 = .ok s := ⟨_, rfl⟩
  obtain ⟨s', hs'⟩ : ∃ s', (Query.sample.stream
      (ShardIndex.leafOf (Query.sample.scanOptions none)) .sample).1 = .ok s' := ⟨_, rfl⟩
  rw [hs, hs'] at halike
  cases halike with
  | ok h =>
    obtain ⟨-, hprunes, hdeferred, entries, entries', hdrain, hdrain', hwidens⟩ := h
    refine ⟨s, s', hs, hs', hprunes, hdeferred, entries, entries', hdrain, hdrain', ?_⟩
    intro e' he'
    obtain ⟨e, he, hshard, -, huids⟩ := hwidens e' he'
    exact ⟨e, he, hshard, huids⟩

end ShardSearch
