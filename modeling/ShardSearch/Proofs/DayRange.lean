import ShardSearch.Proofs.Cursor
import ShardSearch.Proofs.Rebuilding

/-!
# Ranges of days

A search may be restricted to a range of days before it or after it.  Scans are restricted at the
leaves of a stream, and what is left out there is what would be left out of its entries
(`Query.drain_restricted`): intersections, unions and the dropping of descendants all work shard
by shard.
-/

namespace ShardSearch

namespace Trace

/-- The entries at the shards that satisfy `p`. -/
def within (p : String → Bool) (t : Trace) : Trace :=
  { t with entries := t.entries.filter (p ·.shard) }

variable {p : String → Bool} {t : Trace} {parts : List Trace} {node : Option NodeId} {x : String}

theorem at?_within : (t.within p).at? x = if p x then t.at? x else none := by
  obtain ⟨es, fault⟩ := t
  induction es with
  | nil => simp [within, at?]
  | cons e es ih =>
    have hcons : within p ⟨e :: es, fault⟩ =
        if p e.shard then (within p ⟨es, fault⟩).after (some e) else within p ⟨es, fault⟩ := by
      unfold within
      rw [List.filter_cons]
      split <;> rfl
    rw [hcons, at?_cons]
    by_cases hx : e.shard = x
    · subst hx
      cases hp : p e.shard <;> simp [hp, ih, at?_after_some]
    · cases hp : p e.shard <;> simp [hx, ih, at?_after_some]

theorem Clean.within (h : t.Clean) (p : String → Bool) : (t.within p).Clean :=
  ⟨h.ascending.sublist List.filter_sublist, h.sound⟩

theorem clean_map_within (h : ∀ t ∈ parts, t.Clean) : ∀ t ∈ parts.map (within p), t.Clean := by
  intro t ht
  obtain ⟨s, hs, rfl⟩ := List.mem_map.1 ht
  exact (h s hs).within p

/-- At a shard that is left in, restricted parts hold what they held before. -/
theorem map_at?_within_of_true (hx : p x = true) :
    (parts.map (within p)).map (at? x) = parts.map (at? x) := by
  rw [List.map_map]
  apply List.map_congr_left
  intro t _
  rw [Function.comp, at?_within, if_pos hx]

/-- At a shard that is left out, restricted parts hold nothing. -/
theorem eq_none_of_mem_map_at?_within (hx : ¬ p x = true) {set : Option MatchSet}
    (hset : set ∈ (parts.map (within p)).map (at? x)) : set = none := by
  rw [List.map_map] at hset
  obtain ⟨t, -, rfl⟩ := List.mem_map.1 hset
  rw [Function.comp, at?_within, if_neg hx]

/-- The parts of an intersection may be restricted instead of the whole. -/
theorem meet_within (h : ∀ t ∈ parts, t.Clean) :
    meet node (parts.map (within p)) = (meet node parts).within p := by
  have hparts := clean_map_within (p := p) h
  apply (clean_meet hparts).ext ((clean_meet h).within p)
  intro x
  rw [at?_within, at?_meet fun t ht => (hparts t ht).ascending,
    at?_meet fun t ht => (h t ht).ascending]
  split
  · next hx => rw [map_at?_within_of_true hx]
  · next hx =>
    cases parts with
    | nil => rfl
    | cons t parts =>
      apply common_eq_none
      have hmem : at? x (t.within p) ∈ ((t :: parts).map (within p)).map (at? x) :=
        List.mem_map_of_mem (List.mem_map_of_mem List.mem_cons_self)
      rwa [eq_none_of_mem_map_at?_within hx hmem] at hmem

/-- The parts of a union may be restricted instead of the whole. -/
theorem join_within (h : ∀ t ∈ parts, t.Clean) :
    join node (parts.map (within p)) = (join node parts).within p := by
  have hparts := clean_map_within (p := p) h
  apply (clean_join hparts).ext ((clean_join h).within p)
  intro x
  rw [at?_within, at?_join (fun t ht => (hparts t ht).ascending) fun t ht => (hparts t ht).sound,
    at?_join (fun t ht => (h t ht).ascending) fun t ht => (h t ht).sound]
  split
  · next hx => rw [map_at?_within_of_true hx]
  · next hx => exact pooled_eq_none fun set => eq_none_of_mem_map_at?_within hx

/-- The sets may be changed before or after. -/
theorem mapSets_within (f : MatchSet → MatchSet) (t : Trace) :
    (t.within p).mapSets f = (t.mapSets f).within p := by
  unfold mapSets within
  rw [List.filter_map]
  rfl

/-- The second trace is the first one restricted. -/
structure Restricts (p : String → Bool) (t t' : Trace) : Prop where
  clean : t.Clean
  eq_within : t' = t.within p

theorem of_restricts {parts' : List Trace} (h : List.Forall₂ (Restricts p) parts parts') :
    (∀ t ∈ parts, t.Clean) ∧ parts' = parts.map (within p) := by
  constructor
  · intro t ht
    obtain ⟨t', -, hrestricts⟩ := h.exists_of_mem_left ht
    exact hrestricts.clean
  · have hmap := h.map_congr (f := within p) (g := id) fun t t' ht => ht.eq_within.symm
    rw [hmap, List.map_id]

theorem respected_restricts : Respected (Restricts p) := by
  constructor
  · intro node parts parts' h
    obtain ⟨hclean, rfl⟩ := of_restricts h
    exact ⟨clean_meet hclean, meet_within hclean⟩
  · intro node parts parts' h
    obtain ⟨hclean, rfl⟩ := of_restricts h
    exact ⟨clean_join hclean, join_within hclean⟩

theorem Restricts.mapSets {t' : Trace} (h : Restricts p t t') (f : MatchSet → MatchSet) :
    Restricts p (t.mapSets f) (t'.mapSets f) := by
  obtain ⟨hclean, rfl⟩ := h
  exact ⟨hclean.mapSets f, mapSets_within f t⟩

end Trace

/-- What a scan of a term yields within a range is what it yields without one, restricted. -/
theorem ShardIndex.restricts_termTrace {ix : ShardIndex} (q : Query) (r : ShardRange) (id : NodeId)
    (field value : String) :
    Trace.Restricts r.contains (ix.termTrace (q.scanOptions none) id field value)
      (ix.termTrace (q.scanOptions (some r)) id field value) := by
  have hclean : (ix.termTrace (q.scanOptions none) id field value).Clean :=
    clean_map_entry ascending_termSets
  refine ⟨hclean, Trace.Clean.ext (clean_map_entry ascending_termSets) (hclean.within _) ?_⟩
  intro x
  rw [Trace.at?_within, termTrace, termTrace, at?_termSets, at?_termSets]
  rfl

/-- Restricting the search for a query to a range of days changes nothing about whether its stream
    can be made, or about its context, its pruning and the nodes it puts off.  It is read to its
    end without failure, and its entries are those of the unrestricted search at the shards of the
    range. -/
theorem Query.drain_restricted (q : Query) (ix : ShardIndex) (r : ShardRange) :
    Alike
      (fun s s' => s.context = s'.context ∧ s.canPrune = s'.canPrune ∧
        s.deferredNodes = s'.deferredNodes ∧
        ∃ entries, s.drain.1 = .ok entries ∧
          s'.drain.1 = .ok (entries.filter (r.contains ·.shard)))
      (q.stream (ShardIndex.leafOf (q.scanOptions none)) ix).1
      (q.stream (ShardIndex.leafOf (q.scanOptions (some r))) ix).1 := by
  have halike : Alike (Stream.Compared (Trace.Restricts r.contains))
      (q.stream (ShardIndex.leafOf (q.scanOptions none)) ix).1
      (q.stream (ShardIndex.leafOf (q.scanOptions (some r))) ix).1 :=
    stream_alike_of_dropped Trace.respected_restricts (ShardIndex.restricts_termTrace q r)
      (fun t t' h => h.mapSets .removeOverlapping) q
  generalize (q.stream (ShardIndex.leafOf (q.scanOptions none)) ix).1 = result at halike ⊢
  generalize (q.stream (ShardIndex.leafOf (q.scanOptions (some r))) ix).1 = result' at halike ⊢
  cases halike with
  | error e => exact .error e
  | @ok s s' h =>
    obtain ⟨hclean, htrace⟩ := h.trace
    have hclean' : s'.trace.Clean := htrace ▸ hclean.within r.contains
    refine .ok ⟨h.context, h.canPrune, h.deferredNodes, _, Stream.drain_of_clean hclean, ?_⟩
    rw [Stream.drain_of_clean hclean', htrace]
    rfl

end ShardSearch
