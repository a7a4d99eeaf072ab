import ShardSearch.Proofs.Overlap
import ShardSearch.Proofs.Shards

/-!
# Plain sets of shards

A `SetModel` says, without any order of reading, which shards a stream holds and with which
matches.  How models combine is said shard by shard and uid by uid.
-/

namespace ShardSearch

namespace SortedMap

variable {α : Type}

/-- The bindings that `f` has for some keys. -/
def tabulate (keys : List String) (f : String → Option α) : SortedMap String α :=
  keys.foldl (fun m k => m.alter k (fun _ => f k)) empty

theorem get?_tabulate (keys : List String) (f : String → Option α) (k : String) :
    (tabulate keys f).get? k = if k ∈ keys then f k else none := by
  have hfold : ∀ m : SortedMap String α,
      (keys.foldl (fun m k => m.alter k (fun _ => f k)) m).get? k =
        if k ∈ keys then f k else m.get? k := by
    induction keys with
    | nil => exact fun m => rfl
    | cons key keys ih =>
      intro m
      rw [List.foldl_cons, ih, get?_alter]
      by_cases hk : k ∈ keys
      · simp [hk]
      · by_cases hkey : key = k
        · simp [hkey]
        · simp [hk, hkey, Ne.symm hkey]
  exact hfold empty

/-- Where the keys are all that `f` has a value for, the map is `f`. -/
theorem get?_tabulate_of_forall {keys : List String} {f : String → Option α}
    (h : ∀ k, (f k).isSome → k ∈ keys) (k : String) : (tabulate keys f).get? k = f k := by
  rw [get?_tabulate]
  split
  · rfl
  · next hk =>
    cases hf : f k with
    | none => rfl
    | some v => exact absurd (h k (by rw [hf]; rfl)) hk

theorem get?_ofList (es : List (String × α)) (k : String) : (ofList es).get? k = es.lookup k := by
  have hfold : ∀ m : SortedMap String α,
      (es.foldl (fun acc e => acc.insertIfNew e.1 e.2) m).get? k = (m.get? k).or (es.lookup k) := by
    induction es with
    | nil => intro m; cases h : m.get? k <;> simp [h]
    | cons e es ih =>
      intro m
      rw [List.foldl_cons, ih, get?_insertIfNew, List.lookup_cons]
      by_cases hk : e.1 = k
      · subst hk
        cases m.get? e.1 <;> simp
      · simp [hk, beq_false_of_ne (Ne.symm hk)]
  exact hfold empty

theorem mem_keys_iff {m : SortedMap String α} {k : String} : k ∈ m.keys ↔ (m.get? k).isSome := by
  rw [← contains_iff_mem_keys]
  rfl

end SortedMap

/-! ## Models -/

/-- The shards a stream holds, each with its matches, and what the stream says of them. -/
structure SetModel where
  /-- Nothing matches at all. -/
  absent : Bool
  /-- All matches lie in the shards listed. -/
  prunes : Bool
  shards : SortedMap String MatchSet
  deriving DecidableEq

namespace SetModel

/-- The documents that all of some sets of one shard admit.  Where there are finite sets, a
    document has to be listed by each, and it is credited to `node` or as the first of them has
    it. -/
def conjoin (node : Option NodeId) (shard : String) (sets : List MatchSet) : MatchSet :=
  match sets.filter (!·.infinite) with
  | [] => ⟨shard, node <|> sets.head?.bind (·.node), true, .empty⟩
  | first :: others =>
    ⟨shard, node <|> first.node, false, .tabulate first.uids fun uid =>
      if others.all (·.contains uid) then (first.credits.get? uid).map (node <|> ·) else none⟩

/-- The documents that some of the sets of one shard admit, each credited as the first set that
    lists it has it. -/
def disjoin (node : Option NodeId) (shard : String) (sets : List MatchSet) : MatchSet :=
  ⟨shard, node <|> sets.head?.bind (·.node), sets.any (·.infinite),
    .tabulate (sets.flatMap (·.uids)) fun uid => sets.findSome? (·.credits.get? uid)⟩

/-- The model of data in memory or out of a scanner. -/
def ofSets (absent prunes : Bool) (sets : List MatchSet) : SetModel :=
  ⟨absent, prunes, .ofList (sets.map fun s => (s.shard, s))⟩

/-- Nothing if a part is absent, and otherwise the shards that all pruning parts hold. -/
def intersection (node : Option NodeId) (parts : List SetModel) : SetModel :=
  if parts.any (·.absent) then ⟨true, false, .empty⟩
  else
    let filters := parts.filter (·.prunes)
    ⟨false, !filters.isEmpty, .tabulate (filters.flatMap (·.shards.keys)) fun shard =>
      if filters.all (·.shards.contains shard) then
        (conjoin node shard (filters.filterMap (·.shards.get? shard))).kept
      else none⟩

/-- The shards that some part holds that is not absent. -/
def union (node : Option NodeId) (parts : List SetModel) : SetModel :=
  let sources := parts.filter (!·.absent)
  ⟨sources.isEmpty, !sources.isEmpty && sources.all (·.prunes),
    .tabulate (sources.flatMap (·.shards.keys)) fun shard =>
      (disjoin node shard (sources.filterMap (·.shards.get? shard))).kept⟩

/-- The same shards, in each of them without the records that another one covers. -/
def ancestor (part : SetModel) : SetModel :=
  { part with
    shards := .tabulate part.shards.keys fun shard =>
      (part.shards.get? shard).map (·.dropCovered) }

/-- The entries of a model, in ascending order of their shards. -/
def entries (m : SetModel) : List Entry := m.shards.entries.map fun e => ⟨e.1, e.2⟩

end SetModel

namespace SetModel

variable {node : Option NodeId} {shard x : String} {sets : List MatchSet} {parts : List SetModel}

/-- An intersection of match sets holds what a conjunction does. -/
theorem conjoin_eq : conjoin node shard sets = MatchSet.intersect shard node sets := by
  have hcredits : ∀ uid, (conjoin node shard sets).credits.get? uid =
      (MatchSet.intersect shard node sets).credits.get? uid := by
    intro uid
    rw [MatchSet.get?_intersect, conjoin]
    cases sets.filter (!·.infinite) with
    | nil => rfl
    | cons first others =>
      refine SortedMap.get?_tabulate_of_forall (fun k hk => SortedMap.mem_keys_iff.2 ?_) uid
      split at hk
      · rwa [Option.isSome_map] at hk
      · cases hk
  refine MatchSet.ext_credits ?_ ?_ ?_ hcredits <;>
  · unfold conjoin MatchSet.intersect
    cases sets.filter (!·.infinite) with
    | nil => rfl
    | cons first others => simp

/-- A union of match sets holds what a disjunction does. -/
theorem disjoin_eq : disjoin node shard sets = MatchSet.unite shard node sets := by
  refine MatchSet.ext_credits (by simp [disjoin]) (by simp [disjoin, MatchSet.unite]) rfl ?_
  intro uid
  rw [MatchSet.get?_unite]
  refine SortedMap.get?_tabulate_of_forall ?_ uid
  intro k hk
  obtain ⟨s, hs, hsome⟩ := List.findSome?_isSome_iff.1 hk
  exact List.mem_flatMap.2 ⟨s, hs, SortedMap.mem_keys_iff.2 hsome⟩

/-- At each shard an intersection holds what its pruning parts have in common there. -/
theorem get?_intersection (h : parts.any (·.absent) = false) :
    (intersection node parts).shards.get? x =
      Trace.common node x ((parts.filter (·.prunes)).map (·.shards.get? x)) := by
  have hbody : ∀ y, (if (parts.filter (·.prunes)).all (·.shards.contains y) then
      (conjoin node y ((parts.filter (·.prunes)).filterMap (·.shards.get? y))).kept else none) =
        if ((parts.filter (·.prunes)).map (·.shards.get? y)).all Option.isSome then
          (MatchSet.intersect y node
            (((parts.filter (·.prunes)).map (·.shards.get? y)).filterMap id)).kept
        else none := by
    intro y
    rw [conjoin_eq, List.all_map, List.filterMap_map]
    rfl
  simp only [intersection, h, Bool.false_eq_true, if_false, hbody]
  generalize parts.filter (·.prunes) = filters
  cases filters with
  | nil => rfl
  | cons first others =>
    rw [SortedMap.get?_tabulate_of_forall, Trace.common]
    · simp
    · intro y hy
      split at hy
      · next hall =>
        have hfirst := List.all_eq_true.1 hall (first.shards.get? y) List.mem_cons_self
        exact List.mem_flatMap.2 ⟨first, List.mem_cons_self, SortedMap.mem_keys_iff.2 hfirst⟩
      · cases hy

/-- At each shard a union holds what its parts that are not absent hold there together. -/
theorem get?_union :
    (union node parts).shards.get? x =
      Trace.pooled node x ((parts.filter (!·.absent)).map (·.shards.get? x)) := by
  unfold union
  generalize parts.filter (!·.absent) = sources
  rw [SortedMap.get?_tabulate_of_forall, Trace.pooled, disjoin_eq, List.filterMap_map]
  · rfl
  · intro y hy
    rw [disjoin_eq] at hy
    obtain ⟨set, hset⟩ := Option.isSome_iff_exists.1 hy
    have hmatch := (MatchSet.kept_eq_some_iff.1 hset).2
    rw [MatchSet.infinite_unite, List.any_eq_true] at hmatch
    simp only [MatchSet.contains_unite] at hmatch
    have hheld : ∃ s, s ∈ sources.filterMap (·.shards.get? y) := by
      rcases hmatch with ⟨s, hs, -⟩ | ⟨-, s, hs, -⟩
      · exact ⟨s, hs⟩
      · exact ⟨s, hs⟩
    obtain ⟨s, hs⟩ := hheld
    obtain ⟨m, hm, hget⟩ := List.mem_filterMap.1 hs
    exact List.mem_flatMap.2 ⟨m, hm, SortedMap.mem_keys_iff.2 (by rw [hget]; rfl)⟩

theorem get?_ancestor (m : SetModel) :
    m.ancestor.shards.get? x = (m.shards.get? x).map (·.dropCovered) := by
  refine SortedMap.get?_tabulate_of_forall ?_ x
  intro k hk
  rw [Option.isSome_map] at hk
  exact SortedMap.mem_keys_iff.2 hk

theorem get?_ofSets (absent prunes : Bool) (sets : List MatchSet) :
    (ofSets absent prunes sets).shards.get? x = Trace.at? x ⟨sets.map (·.entry), none⟩ := by
  rw [ofSets, SortedMap.get?_ofList]
  induction sets with
  | nil => rfl
  | cons s sets ih =>
    rw [List.map_cons, List.lookup_cons, List.map_cons, Trace.at?_cons, ← ih]
    by_cases h : s.shard = x
    · subst h
      simp [MatchSet.entry]
    · simp [MatchSet.entry, h, beq_false_of_ne (Ne.symm h)]

/-- A clean trace that holds the sets of a model has its entries. -/
theorem entries_eq {t : Trace} {m : SetModel} (ht : t.Clean)
    (h : ∀ x, t.at? x = m.shards.get? x) : t.entries = m.entries := by
  have hasc : Trace.Ascending ⟨m.entries, none⟩ := List.pairwise_map.2 m.shards.ascending
  apply Trace.entries_ext ht.ascending hasc
  intro x
  apply Option.ext
  intro set
  rw [h, SortedMap.get?_eq_some_iff, Trace.at?_eq_some_iff hasc, entries, List.mem_map]
  constructor
  · intro hmem
    exact ⟨(x, set), hmem, rfl⟩
  · rintro ⟨e, he, heq⟩
    cases heq
    exact he

end SetModel

end ShardSearch
