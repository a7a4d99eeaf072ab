import ShardSearch.Proofs.MatchSets

/-!
# Which records are dropped

One pass over the records compares each with those kept before it only.  As covering is
transitive, this drops exactly the records that some record with a smaller uid covers
(`removeOverlapping_eq`).
-/

namespace ShardSearch

theorem MatchRecord.covers_iff {a r : MatchRecord} :
    a.covers r = true ↔ a.node = r.node ∧ a.uid.toList <:+: r.uid.toList := by
  rw [MatchRecord.covers, Bool.and_eq_true, beq_iff_eq, occursIn_iff_infix]

theorem MatchRecord.covers_trans {a b c : MatchRecord} (hab : a.covers b = true)
    (hbc : b.covers c = true) : a.covers c = true := by
  rw [covers_iff] at *
  exact ⟨hab.1.trans hbc.1, hab.2.trans hbc.2⟩

/-- Whether one of some records has a smaller uid than `r` and covers it. -/
def coveredIn (rs : List MatchRecord) (r : MatchRecord) : Bool :=
  rs.any fun a => a.uid < r.uid && a.covers r

/-- The records before the current one in uid order are those with a smaller uid. -/
theorem coveredIn_append {seen rest : List MatchRecord} {r : MatchRecord}
    (h : (seen ++ r :: rest).Pairwise (·.uid < ·.uid)) :
    coveredIn (seen ++ r :: rest) r = seen.any (·.covers r) := by
  obtain ⟨-, hrest, hbefore⟩ := List.pairwise_append.1 h
  rw [coveredIn, List.any_append, List.any_cons]
  have hseen : seen.any (fun a => a.uid < r.uid && a.covers r) = seen.any (·.covers r) := by
    rw [Bool.eq_iff_iff, List.any_eq_true, List.any_eq_true]
    refine ⟨fun ⟨a, ha, hcov⟩ => ⟨a, ha, (Bool.and_eq_true_iff.1 hcov).2⟩, ?_⟩
    rintro ⟨a, ha, hcov⟩
    exact ⟨a, ha, Bool.and_eq_true_iff.2
      ⟨decide_eq_true (hbefore a ha r List.mem_cons_self), hcov⟩⟩
  have hlater : rest.any (fun a => a.uid < r.uid && a.covers r) = false := by
    rw [List.any_eq_false]
    intro a ha hcov
    have hlt := of_decide_eq_true (Bool.and_eq_true_iff.1 hcov).1
    exact String.lt_asymm hlt ((List.pairwise_cons.1 hrest).1 a ha)
  rw [hseen, hlater, decide_eq_false (String.lt_irrefl r.uid), Bool.false_and, Bool.false_or,
    Bool.or_false]

/-- Looking at the records kept is as good as looking at all those seen. -/
theorem keepUncovered_eq_filter {seen kept rest : List MatchRecord}
    (h : (seen ++ rest).Pairwise (·.uid < ·.uid))
    (hkept : ∀ r, kept.any (·.covers r) = seen.any (·.covers r)) :
    keepUncovered kept rest = rest.filter (!coveredIn (seen ++ rest) ·) := by
  induction rest generalizing seen kept with
  | nil => rfl
  | cons r rest ih =>
    have hnext : seen ++ r :: rest = (seen ++ [r]) ++ rest := by simp
    rw [keepUncovered, List.filter_cons, coveredIn_append h, hkept r]
    cases hcov : seen.any (·.covers r) with
    | true =>
      refine (ih (hnext ▸ h) ?_).trans (by rw [← hnext]; rfl)
      intro x
      -- a record rejected covers nothing that the record it is covered by does not cover
      rw [hkept x, List.any_append, Bool.eq_iff_iff, Bool.or_eq_true, List.any_cons, List.any_nil,
        Bool.or_false]
      refine ⟨.inl, ?_⟩
      rintro (hx | hrx)
      · exact hx
      obtain ⟨a, ha, har⟩ := List.any_eq_true.1 hcov
      exact List.any_eq_true.2 ⟨a, ha, MatchRecord.covers_trans har hrx⟩
    | false =>
      refine congrArg (r :: ·) ((ih (hnext ▸ h) ?_).trans (by rw [← hnext]))
      intro x
      rw [List.any_cons, hkept x, List.any_append, List.any_cons, List.any_nil, Bool.or_false,
        Bool.or_comm]

namespace MatchSet

theorem pairwise_records (s : MatchSet) : s.records.Pairwise (·.uid < ·.uid) :=
  List.pairwise_map.2 s.credits.ascending

/-- Drops the records that a record of the same node with a smaller uid covers. -/
def dropCovered (s : MatchSet) : MatchSet := s.filter (!coveredIn s.records ·)

/-- The records dropped for a record kept before are those that are covered at all. -/
theorem removeOverlapping_eq (s : MatchSet) : s.removeOverlapping = s.dropCovered := by
  have hkept : keepUncovered [] s.records = s.records.filter (!coveredIn s.records ·) :=
    keepUncovered_eq_filter (show ([] ++ s.records).Pairwise _ from s.pairwise_records)
      fun _ => rfl
  rw [removeOverlapping, dropCovered, hkept, filter, filter]
  congr 1
  refine SortedMap.ext_entries (List.filter_congr ?_)
  intro e he
  have hmem : (⟨e.1, e.2⟩ : MatchRecord) ∈ s.records := List.mem_map_of_mem he
  simp [List.mem_filter, hmem]

/-- The records that stay are credited as before. -/
theorem get?_of_get?_dropCovered {s : MatchSet} {uid : String} {credit : Option NodeId}
    (h : s.dropCovered.credits.get? uid = some credit) : s.credits.get? uid = some credit :=
  SortedMap.get?_eq_some_iff.2 (List.mem_filter.1 (SortedMap.get?_eq_some_iff.1 h)).1

theorem allows_of_allows_dropCovered {s : MatchSet} {uid : String} (h : s.dropCovered.Allows uid) :
    s.Allows uid := by
  apply h.imp id
  intro hcontains
  obtain ⟨credit, hcredit⟩ := Option.isSome_iff_exists.1 hcontains
  exact Option.isSome_iff_exists.2 ⟨credit, get?_of_get?_dropCovered hcredit⟩

/-- The record with the least uid stays, so a set that lists something still does. -/
theorem matchesNothing_dropCovered (s : MatchSet) :
    s.dropCovered.matchesNothing = s.matchesNothing := by
  have hempty : s.dropCovered.isEmpty = s.isEmpty := by
    obtain ⟨shard, node, infinite, ⟨_ | ⟨e, es⟩, hasc⟩⟩ := s
    · rfl
    · have hleast : coveredIn (⟨e.1, e.2⟩ :: es.map fun e => ⟨e.1, e.2⟩) ⟨e.1, e.2⟩ = false := by
        apply List.any_eq_false.2
        intro a ha hcov
        have hlt : a.uid < e.1 := of_decide_eq_true (Bool.and_eq_true_iff.1 hcov).1
        rcases List.mem_cons.1 ha with rfl | ha
        · exact String.lt_irrefl _ hlt
        · obtain ⟨e', he', rfl⟩ := List.mem_map.1 ha
          exact String.lt_asymm hlt ((List.pairwise_cons.1 hasc).1 e' he')
      simp [dropCovered, filter, records, isEmpty, SortedMap.isEmpty, SortedMap.filter, hleast]
  rw [matchesNothing, matchesNothing, hempty]
  rfl

end MatchSet

end ShardSearch
