import ShardSearch.Proofs.Assembly
import ShardSearch.Proofs.Cursor

/-!
# Streams without failures

A stream is `ErrorFree` if it is read to its end and its shards ascend.  Two such streams are
compared by what they hold at each shard, and composites by what they let through there: that
settles which shards they yield, which of their sets are infinite, and the uids of the others
(`LetThroughAlike.forall₂_entries`).
-/

namespace ShardSearch

/-- Two sets are both infinite, or both finite with the same uids. -/
structure MatchSet.SameFindings (set set' : MatchSet) : Prop where
  infinite : set.infinite = set'.infinite
  uids : set.infinite = false → set.uids = set'.uids

/-- Two entries at one shard, with sets that are related there. -/
def Entry.Related (R : String → MatchSet → MatchSet → Prop) (e e' : Entry) : Prop :=
  e.shard = e'.shard ∧ R e.shard e.set e'.set

/-- Ascending traces that hold related sets at the same shards have related entries. -/
theorem Trace.forall₂_entries {R : String → MatchSet → MatchSet → Prop} {s t : Trace}
    (hs : s.Ascending) (ht : t.Ascending) (h : ∀ x, Option.Rel (R x) (s.at? x) (t.at? x)) :
    List.Forall₂ (Entry.Related R) s.entries t.entries := by
  -- The shards alone are compared by forgetting all sets.
  have hforget : (s.mapSets fun _ => default).entries = (t.mapSets fun _ => default).entries := by
    refine entries_ext (List.pairwise_map.2 hs) (List.pairwise_map.2 ht) fun x => ?_
    rw [at?_mapSets, at?_mapSets]
    have hx := h x
    generalize s.at? x = set, t.at? x = set' at hx
    cases hx <;> rfl
  have hmap : s.entries.map (·.shard) = t.entries.map (·.shard) := by
    have hmap := congrArg (List.map Entry.shard) hforget
    simp only [mapSets, List.map_map] at hmap
    exact hmap
  have hshards : List.Forall₂ (fun e e' : Entry => e.shard = e'.shard) s.entries t.entries := by
    rw [← List.forall₂_eq_eq_eq] at hmap
    rwa [List.forall₂_map_left_iff, List.forall₂_map_right_iff] at hmap
  obtain ⟨hlength, hzip⟩ := List.forall₂_iff_zip.1 hshards
  refine List.forall₂_iff_zip.2 ⟨hlength, fun {e e'} hmem => ?_⟩
  obtain ⟨he, he'⟩ := List.of_mem_zip hmem
  have hshard := hzip hmem
  have hrel := h e.shard
  have hset' : t.at? e.shard = some e'.set := hshard ▸ (at?_eq_some_iff ht).2 he'
  rw [(at?_eq_some_iff hs).2 he, hset'] at hrel
  cases hrel with
  | some hset => exact ⟨hshard, hset⟩

namespace Stream

/-- The stream is read to its end without failure, and its shards ascend. -/
def ErrorFree (s : Stream) : Prop :=
  ∃ entries, s.drain.1 = .ok entries ∧ entries.Pairwise (·.shard < ·.shard)

variable {s s' : Stream} {node : Option NodeId} {children : List Stream} {x : String}

theorem errorFree_iff : s.ErrorFree ↔ s.trace.Clean := by
  constructor
  · rintro ⟨entries, hdrain, hascending⟩
    rw [trace_of_drain hdrain]
    exact ⟨hascending, rfl⟩
  · intro h
    exact ⟨_, drain_of_clean h, h.ascending⟩

theorem ErrorFree.clean (h : s.ErrorFree) : s.trace.Clean := errorFree_iff.1 h

theorem errorFree_delayed (node : Option NodeId) : (delayed node).ErrorFree :=
  errorFree_iff.2 Trace.clean_stop

/-- A leaf over complete data: the uids found for a node, shard by shard. -/
def ofUids (id : NodeId) (found : List (String × List String)) : Stream :=
  leaf (some id) .present (toString id) (found.map fun e => ⟨e.1, .ofUids e.1 (some id) e.2⟩)

theorem errorFree_ofUids {id : NodeId} {found : List (String × List String)}
    (h : found.Pairwise (·.1 < ·.1)) : (ofUids id found).ErrorFree :=
  errorFree_iff.2 ⟨List.pairwise_map.2 h, rfl⟩

/-- Two shards. -/
def sampleBroad : Stream := ofUids ⟨1⟩ [("20240101_0", ["x", "y"]), ("20240102_0", ["z"])]

/-- One of the shards, with one of the uids. -/
def sampleNarrow : Stream := ofUids ⟨2⟩ [("20240101_0", ["x"])]

theorem errorFree_sampleBroad : sampleBroad.ErrorFree := errorFree_ofUids (by decide)

theorem errorFree_sampleNarrow : sampleNarrow.ErrorFree := errorFree_ofUids (by decide)

/-! ## What is let through -/

/-- A stream without failures in whose sets something can match. -/
structure Tidy (s : Stream) : Prop where
  clean : s.trace.Clean
  made : ∀ e ∈ s.trace.entries, Trace.Made e

theorem tidy_intersect (h : intersect node children = .ok s)
    (hclean : ∀ child ∈ children, child.trace.Clean) : s.Tidy :=
  ⟨clean_intersect h hclean, made_of_mem_intersect h⟩

theorem tidy_unite (h : unite node children = .ok s)
    (hclean : ∀ child ∈ children, child.trace.Clean) : s.Tidy :=
  ⟨clean_unite h hclean, made_of_mem_unite h⟩

theorem holdsAt_iff {set : MatchSet} {Q : MatchSet → Prop} (h : s.trace.at? x = some set) :
    s.HoldsAt Q x ↔ Q set := by
  simp [HoldsAt, h]

/-- Where a tidy stream holds a set, it lets some uid through. -/
theorem Tidy.isSome_at?_iff (h : s.Tidy) :
    (s.trace.at? x).isSome ↔ ∃ uid, s.HoldsAt (·.Allows uid) x := by
  constructor
  · intro hsome
    obtain ⟨set, hset⟩ := Option.isSome_iff_exists.1 hsome
    have hmade := h.made _ ((Trace.at?_eq_some_iff h.clean.ascending).1 hset)
    rcases MatchSet.matchesNothing_eq_false_iff.1 hmade.matching with hinfinite | ⟨uid, hcontains⟩
    · exact ⟨"", set, hset, .inl hinfinite⟩
    · exact ⟨uid, set, hset, .inr hcontains⟩
  · rintro ⟨uid, set, hset, -⟩
    rw [hset]
    rfl

/-- Both streams let the same through at every shard. -/
def LetThroughAlike (s s' : Stream) : Prop :=
  ∀ Q, MatchSet.Setwise Q → ∀ x, s.HoldsAt Q x ↔ s'.HoldsAt Q x

/-- Tidy streams that let the same through have the same findings at a shard. -/
theorem LetThroughAlike.rel_at? (h : LetThroughAlike s s') (hs : s.Tidy) (hs' : s'.Tidy)
    (x : String) : Option.Rel MatchSet.SameFindings (s.trace.at? x) (s'.trace.at? x) := by
  have hsome : (s.trace.at? x).isSome ↔ (s'.trace.at? x).isSome := by
    rw [hs.isSome_at?_iff, hs'.isSome_at?_iff]
    exact exists_congr fun uid => h _ (MatchSet.setwise_allows uid) x
  cases hset : s.trace.at? x with
  | none =>
    have hnone : s'.trace.at? x = none := by simpa [hset] using hsome
    rw [hnone]
    exact .none
  | some set =>
    obtain ⟨set', hset'⟩ : ∃ set', s'.trace.at? x = some set' := by
      simpa [hset, Option.isSome_iff_exists] using hsome
    have hsame : ∀ Q, MatchSet.Setwise Q → (Q set ↔ Q set') := fun Q hQ =>
      (holdsAt_iff hset).symm.trans ((h Q hQ x).trans (holdsAt_iff hset'))
    have hinfinite : set.infinite = set'.infinite :=
      Bool.eq_iff_iff.2 (hsame _ MatchSet.setwise_infinite)
    rw [hset']
    refine .some ⟨hinfinite, fun hfinite => SortedMap.keys_ext fun uid => ?_⟩
    have hallows := hsame _ (MatchSet.setwise_allows uid)
    show set.contains uid = set'.contains uid
    simpa [MatchSet.Allows, ← hinfinite, hfinite] using hallows

/-- Tidy streams that let the same through yield the same shards, with the same findings there. -/
theorem LetThroughAlike.forall₂_entries (h : LetThroughAlike s s') (hs : s.Tidy) (hs' : s'.Tidy) :
    List.Forall₂ (Entry.Related fun _ => MatchSet.SameFindings)
      s.trace.entries s'.trace.entries :=
  Trace.forall₂_entries hs.clean.ascending hs'.clean.ascending (h.rel_at? hs hs')

end Stream

end ShardSearch
