import ShardSearch.MatchSet.Merge
import ShardSearch.MatchSet.Overlap

/-!
# Match sets uid by uid

What the operations on match sets do to the credit of each uid.  A set is its shard, its node, its
infinite mark and these credits, so nothing else has to be known of them.
-/

namespace ShardSearch

/-- The node that the first record for a uid is credited to. -/
def creditIn (uid : String) (rs : List MatchRecord) : Option (Option NodeId) :=
  (rs.find? (·.uid = uid)).map (·.node)

theorem creditIn_cons (uid : String) (r : MatchRecord) (rs : List MatchRecord) :
    creditIn uid (r :: rs) = if r.uid = uid then some r.node else creditIn uid rs := by
  by_cases h : r.uid = uid <;> simp [creditIn, h]

theorem creditIn_append (uid : String) (rs rs' : List MatchRecord) :
    creditIn uid (rs ++ rs') = (creditIn uid rs).or (creditIn uid rs') := by
  induction rs with
  | nil => rfl
  | cons r rs ih =>
    rw [List.cons_append, creditIn_cons, creditIn_cons, ih]
    split <;> rfl

theorem creditIn_filter_map (rs : List MatchRecord) (p : String → Bool)
    (f : Option NodeId → Option NodeId) (uid : String) :
    creditIn uid ((rs.filter (p ·.uid)).map fun r => r.withNode (f r.node)) =
      if p uid then (creditIn uid rs).map f else none := by
  induction rs with
  | nil => simp [creditIn]
  | cons r rs ih =>
    rw [List.filter_cons, creditIn_cons]
    by_cases h : r.uid = uid
    · subst h
      cases hp : p r.uid
      · simpa [hp] using ih
      · simp only [if_true, List.map_cons, creditIn_cons, MatchRecord.withNode, Option.map_some]
    · rw [if_neg h, ← ih]
      split
      · rw [List.map_cons, creditIn_cons]
        exact if_neg h
      · rfl

namespace MatchSet

variable {s : MatchSet} {shard uid : String} {node : Option NodeId} {sets : List MatchSet}

theorem ext_credits {s t : MatchSet} (hshard : s.shard = t.shard) (hnode : s.node = t.node)
    (hinfinite : s.infinite = t.infinite)
    (hcredits : ∀ uid, s.credits.get? uid = t.credits.get? uid) : s = t := by
  obtain ⟨_, _, _, credits⟩ := s
  obtain ⟨_, _, _, credits'⟩ := t
  cases hshard
  cases hnode
  cases hinfinite
  cases SortedMap.ext_get? (m := credits) (n := credits') hcredits
  rfl

theorem contains_eq (s : MatchSet) (uid : String) :
    s.contains uid = (s.credits.get? uid).isSome := rfl

theorem contains_congr {s t : MatchSet} (h : s.uids = t.uids) (uid : String) :
    s.contains uid = t.contains uid := by
  rw [Bool.eq_iff_iff, contains, contains, SortedMap.contains_iff_mem_keys,
    SortedMap.contains_iff_mem_keys]
  exact iff_of_eq (congrArg (uid ∈ ·) h)

/-- The records of a set give each uid the credit it has there. -/
theorem creditIn_records (s : MatchSet) (uid : String) :
    creditIn uid s.records = s.credits.get? uid := by
  obtain ⟨shard, node, infinite, ⟨es, hes⟩⟩ := s
  simp only [records, SortedMap.get?]
  clear hes
  induction es with
  | nil => rfl
  | cons e es ih =>
    obtain ⟨key, credit⟩ := e
    rw [List.map_cons, creditIn_cons, ih, List.lookup_cons]
    by_cases h : key = uid
    · simp [h]
    · simp [h, beq_false_of_ne (Ne.symm h)]

theorem mem_records_iff {r : MatchRecord} :
    r ∈ s.records ↔ s.credits.get? r.uid = some r.node := by
  rw [SortedMap.get?_eq_some_iff, records, List.mem_map]
  constructor
  · rintro ⟨e, he, rfl⟩
    exact he
  · intro h
    exact ⟨(r.uid, r.node), h, rfl⟩

/-- Adding records credits the uids that have no credit yet. -/
theorem get?_addAll (s : MatchSet) (rs : List MatchRecord) (uid : String) :
    (s.addAll rs).credits.get? uid = (s.credits.get? uid).or (creditIn uid rs) := by
  induction rs generalizing s with
  | nil => cases h : s.credits.get? uid <;> simp [addAll, h, creditIn]
  | cons r rs ih =>
    have hadd : (s.addAll (r :: rs)) = (s.add r).addAll rs := rfl
    rw [hadd, ih, creditIn_cons, add, SortedMap.get?_insertIfNew]
    by_cases h : r.uid = uid
    · subst h
      cases s.credits.get? r.uid <;> simp
    · simp [h]

@[simp] theorem shard_ofRecords (rs : List MatchRecord) : (ofRecords shard node rs).shard = shard :=
  shard_addAll _ rs

@[simp] theorem node_ofRecords (rs : List MatchRecord) : (ofRecords shard node rs).node = node :=
  node_addAll _ rs

@[simp] theorem infinite_ofRecords (rs : List MatchRecord) :
    (ofRecords shard node rs).infinite = false :=
  infinite_addAll _ rs

theorem get?_ofRecords (rs : List MatchRecord) :
    (ofRecords shard node rs).credits.get? uid = creditIn uid rs := by
  rw [ofRecords, get?_addAll]
  rfl

theorem isEmpty_eq_false_iff : s.isEmpty = false ↔ ∃ uid, s.contains uid :=
  SortedMap.isEmpty_eq_false_iff

theorem isEmpty_uids (s : MatchSet) : s.uids.isEmpty = s.isEmpty :=
  List.isEmpty_map

/-- Nothing can match in a finite set that lists nothing. -/
theorem matchesNothing_eq_false_iff :
    s.matchesNothing = false ↔ s.infinite = true ∨ ∃ uid, s.contains uid := by
  rw [← isEmpty_eq_false_iff, matchesNothing]
  cases s.infinite <;> simp

/-- The set, unless nothing can match in it. -/
def kept (s : MatchSet) : Option MatchSet := if s.matchesNothing then none else some s

theorem kept_eq_some_iff {s t : MatchSet} :
    s.kept = some t ↔ t = s ∧ (s.infinite = true ∨ ∃ uid, s.contains uid) := by
  rw [← matchesNothing_eq_false_iff, kept]
  cases s.matchesNothing <;> simp [eq_comm]

theorem of_matchesNothing (h : s.matchesNothing = true) :
    s.infinite = false ∧ ∀ uid, s.contains uid = false := by
  have hnot : ¬ s.matchesNothing = false := by simp [h]
  simpa [matchesNothing_eq_false_iff] using hnot

/-- A set that is not kept leaves nothing open. -/
theorem any_infinite_kept (s : MatchSet) : s.kept.toList.any (·.infinite) = s.infinite := by
  rw [kept]
  split
  · next h => exact (of_matchesNothing h).1.symm
  · simp

/-- A set that is not kept credits nothing. -/
theorem findSome?_kept (s : MatchSet) (uid : String) :
    s.kept.toList.findSome? (·.credits.get? uid) = s.credits.get? uid := by
  rw [kept]
  split
  · next h =>
    have hcontains := (of_matchesNothing h).2 uid
    rw [contains_eq, Option.isSome_eq_false_iff, Option.isNone_iff_eq_none] at hcontains
    rw [hcontains]
    rfl
  · simp

/-! ## Intersecting -/

/-- What an intersection credits a uid with: nothing without a finite set, and otherwise what the
    first finite set does, if all the others list the uid. -/
theorem get?_intersect :
    (intersect shard node sets).credits.get? uid =
      match sets.filter (!·.infinite) with
      | [] => none
      | first :: others =>
        if others.all (·.contains uid) then (first.credits.get? uid).map (node <|> ·)
        else none := by
  unfold intersect
  cases sets.filter (!·.infinite) with
  | nil => rfl
  | cons first others =>
    rw [get?_ofRecords,
      creditIn_filter_map first.records (fun u => others.all (·.contains u)) (node <|> ·),
      creditIn_records]

/-- An intersection that has a node credits all its records to it. -/
theorem credit_of_get?_intersect {id : NodeId} {credit : Option NodeId}
    (h : (intersect shard (some id) sets).credits.get? uid = some credit) : credit = some id := by
  rw [get?_intersect] at h
  split at h
  · cases h
  · split at h
    · obtain ⟨-, -, rfl⟩ := Option.map_eq_some_iff.1 h
      rfl
    · cases h

/-- What an intersection that has a node credits its uids with. -/
theorem get?_intersect_some {id : NodeId} :
    (intersect shard (some id) sets).credits.get? uid =
      if (intersect shard (some id) sets).contains uid then some (some id) else none := by
  rw [contains_eq]
  cases hcredit : (intersect shard (some id) sets).credits.get? uid with
  | none => rfl
  | some credit => exact congrArg some (credit_of_get?_intersect hcredit)

@[simp] theorem node_intersect {id : NodeId} :
    (intersect shard (some id) sets).node = some id := by
  unfold intersect
  split <;> simp [everything]

@[simp] theorem shard_intersect : (intersect shard node sets).shard = shard := by
  unfold intersect
  split <;> simp [everything]

theorem filter_infinite_eq_nil_iff : sets.filter (!·.infinite) = [] ↔ sets.all (·.infinite) := by
  simp [List.filter_eq_nil_iff]

theorem infinite_intersect : (intersect shard node sets).infinite = sets.all (·.infinite) := by
  unfold intersect
  cases h : sets.filter (!·.infinite) with
  | nil => rw [filter_infinite_eq_nil_iff.1 h]; rfl
  | cons first others =>
    rw [infinite_ofRecords]
    refine (Bool.eq_false_iff.2 ?_).symm
    intro hall
    rw [filter_infinite_eq_nil_iff.2 hall] at h
    cases h

/-- An intersection lists what every finite set lists, if there is one. -/
theorem contains_intersect :
    (intersect shard node sets).contains uid ↔
      (∃ s ∈ sets, s.infinite = false) ∧ ∀ s ∈ sets, s.infinite = false → s.contains uid := by
  have hmem : ∀ s, s ∈ sets.filter (!·.infinite) ↔ s ∈ sets ∧ s.infinite = false := by
    intro s
    simp [List.mem_filter]
  rw [contains_eq, get?_intersect]
  constructor
  · intro h
    cases hf : sets.filter (!·.infinite) with
    | nil => rw [hf] at h; cases h
    | cons first others =>
      rw [hf] at h hmem
      simp only at h
      split at h
      · next hall =>
        rw [Option.isSome_map] at h
        refine ⟨⟨first, (hmem first).1 List.mem_cons_self⟩, ?_⟩
        intro s hs hfin
        rcases List.mem_cons.1 ((hmem s).2 ⟨hs, hfin⟩) with rfl | hs
        · exact h
        · exact List.all_eq_true.1 hall s hs
      · cases h
  · rintro ⟨⟨s, hs, hfin⟩, hall⟩
    cases hf : sets.filter (!·.infinite) with
    | nil =>
      rw [hf] at hmem
      cases (hmem s).2 ⟨hs, hfin⟩
    | cons first others =>
      rw [hf] at hmem
      have hothers : others.all (·.contains uid) = true := by
        apply List.all_eq_true.2
        intro s hs
        obtain ⟨hs, hfin⟩ := (hmem s).1 (List.mem_cons_of_mem _ hs)
        exact hall s hs hfin
      obtain ⟨hfirst, hfin⟩ := (hmem first).1 List.mem_cons_self
      simp only [hothers, if_true, Option.isSome_map]
      exact hall first hfirst hfin

theorem contains_intersect_of_infinite (h : (intersect shard node sets).infinite = true) :
    (intersect shard node sets).contains uid = false := by
  rw [infinite_intersect, List.all_eq_true] at h
  rw [← Bool.not_eq_true, contains_intersect]
  rintro ⟨⟨s, hs, hfinite⟩, -⟩
  rw [h s hs] at hfinite
  cases hfinite

/-! ## Uniting -/

theorem creditIn_flatMap_records :
    creditIn uid (sets.flatMap (·.records)) = sets.findSome? (·.credits.get? uid) := by
  induction sets with
  | nil => rfl
  | cons s sets ih =>
    rw [List.flatMap_cons, creditIn_append, ih, creditIn_records, List.findSome?_cons]
    cases s.credits.get? uid <;> rfl

/-- A union credits a uid with what the first set that lists it does. -/
theorem get?_unite :
    (unite shard node sets).credits.get? uid = sets.findSome? (·.credits.get? uid) := by
  rw [← creditIn_flatMap_records, unite]
  exact get?_ofRecords _

@[simp] theorem shard_unite : (unite shard node sets).shard = shard := by
  simp [unite]

@[simp] theorem node_unite {id : NodeId} : (unite shard (some id) sets).node = some id := by
  simp [unite]

theorem infinite_unite : (unite shard node sets).infinite = sets.any (·.infinite) := rfl

/-- A union lists what some set lists. -/
theorem contains_unite : (unite shard node sets).contains uid ↔ ∃ s ∈ sets, s.contains uid := by
  rw [contains_eq, get?_unite, List.findSome?_isSome_iff]
  rfl

/-! ## What a set lets through -/

/-- The set does not rule out that a uid matches. -/
def Allows (s : MatchSet) (uid : String) : Prop := s.infinite = true ∨ s.contains uid = true

/-- An intersection lets through what every set does. -/
theorem allows_intersect :
    (intersect shard node sets).Allows uid ↔ ∀ s ∈ sets, s.Allows uid := by
  rw [Allows, infinite_intersect, List.all_eq_true, contains_intersect]
  constructor
  · rintro (hall | ⟨-, hall⟩) s hs
    · exact .inl (hall s hs)
    · cases hinfinite : s.infinite with
      | true => exact .inl hinfinite
      | false => exact .inr (hall s hs hinfinite)
  · intro hall
    have hfinite : ∀ s ∈ sets, s.infinite = false → s.contains uid = true := by
      intro s hs hs'
      exact (hall s hs).resolve_left (by simp [hs'])
    by_cases hsome : ∃ s ∈ sets, s.infinite = false
    · exact .inr ⟨hsome, hfinite⟩
    · refine .inl ?_
      intro s hs
      rw [← Bool.not_eq_false]
      exact fun hs' => hsome ⟨s, hs, hs'⟩

/-- A union lets through what some set does. -/
theorem allows_unite : (unite shard node sets).Allows uid ↔ ∃ s ∈ sets, s.Allows uid := by
  rw [Allows, infinite_unite, List.any_eq_true, contains_unite]
  constructor
  · rintro (⟨s, hs, hinfinite⟩ | ⟨s, hs, hcontains⟩)
    · exact ⟨s, hs, .inl hinfinite⟩
    · exact ⟨s, hs, .inr hcontains⟩
  · rintro ⟨s, hs, hinfinite | hcontains⟩
    · exact .inl ⟨s, hs, hinfinite⟩
    · exact .inr ⟨s, hs, hcontains⟩

/-- A set that lets something through is kept. -/
theorem kept_of_allows (h : s.Allows uid) : s.kept = some s :=
  kept_eq_some_iff.2 ⟨rfl, h.imp id fun hcontains => ⟨uid, hcontains⟩⟩

/-- A property that an intersection has if all its sets do, a union if one of its sets does, and
    that no set has in which nothing can match. -/
structure Setwise (Q : MatchSet → Prop) : Prop where
  meet : ∀ {shard : String} {node : Option NodeId} {sets : List MatchSet},
    Q (intersect shard node sets) ↔ ∀ s ∈ sets, Q s
  join : ∀ {shard : String} {node : Option NodeId} {sets : List MatchSet},
    Q (unite shard node sets) ↔ ∃ s ∈ sets, Q s
  kept : ∀ {s : MatchSet}, Q s → s.kept = some s

theorem setwise_allows (uid : String) : Setwise (·.Allows uid) :=
  ⟨allows_intersect, allows_unite, kept_of_allows⟩

theorem setwise_infinite : Setwise (·.infinite = true) := by
  refine ⟨?_, ?_, fun hinfinite => kept_eq_some_iff.2 ⟨rfl, .inl hinfinite⟩⟩
  · intro shard node sets
    rw [infinite_intersect, List.all_eq_true]
  · intro shard node sets
    rw [infinite_unite, List.any_eq_true]

end MatchSet

end ShardSearch
