import ShardSearch.Proofs.Overlap

/-!
# What dropping descendants leaves

A record stays if and only if no record of its node with a smaller uid stands within it, and one
that does not stay has an ancestor that does (`removeOverlapping_keeps`).  The records may as well
be sorted into groups by their nodes, each compared with those accepted into its own group, and the
groups put together in any order.

As only smaller uids are looked at, an ancestor that comes after its descendant is missed: the
records that stay are free of overlaps just if no record has only late ancestors
(`removeOverlapping_separates_iff`).
-/

namespace ShardSearch

namespace MatchRecord

theorem covers_refl (r : MatchRecord) : r.covers r = true :=
  covers_iff.2 ⟨rfl, List.infix_rfl⟩

/-- Records that cover one another have the same uid. -/
theorem uid_eq_of_covers {a r : MatchRecord} (h : a.covers r = true) (h' : r.covers a = true) :
    a.uid = r.uid := by
  have hle := (covers_iff.1 h).2
  have hge := (covers_iff.1 h').2.length_le
  exact String.toList_injective (hle.eq_of_length_le hge)

end MatchRecord

/-- Some record of an ascending list that satisfies `P` has the least uid of all that do. -/
theorem exists_least {P : MatchRecord → Prop} {rs : List MatchRecord}
    (hasc : rs.Pairwise (·.uid < ·.uid)) {a : MatchRecord} (ha : a ∈ rs) (hP : P a) :
    ∃ b ∈ rs, P b ∧ ∀ c ∈ rs, P c → ¬ c.uid < b.uid := by
  induction rs with
  | nil => cases ha
  | cons r rest ih =>
    obtain ⟨hlow, hrest⟩ := List.pairwise_cons.1 hasc
    by_cases hr : P r
    · refine ⟨r, List.mem_cons_self, hr, ?_⟩
      intro c hc _ hlt
      rcases List.mem_cons.1 hc with rfl | hc
      · exact String.lt_irrefl _ hlt
      · exact String.lt_asymm hlt (hlow c hc)
    · have harest : a ∈ rest := by
        rcases List.mem_cons.1 ha with rfl | ha
        · exact absurd hP hr
        · exact ha
      obtain ⟨b, hb, hPb, hleast⟩ := ih hrest harest
      refine ⟨b, List.mem_cons_of_mem _ hb, hPb, ?_⟩
      intro c hc hPc
      rcases List.mem_cons.1 hc with rfl | hc
      · exact absurd hPc hr
      · exact hleast c hc hPc

namespace MatchSet

variable {s : MatchSet} {a r : MatchRecord}

/-! ## The records that stay -/

theorem records_filter (p : MatchRecord → Bool) (s : MatchSet) :
    (s.filter p).records = s.records.filter p := by
  simp only [records, filter, SortedMap.filter, List.filter_map]
  rfl

theorem filter_eq_self {p : MatchRecord → Bool} (h : ∀ r ∈ s.records, p r = true) :
    s.filter p = s := by
  have hcredits : s.credits.filter (fun uid node => p ⟨uid, node⟩) = s.credits := by
    apply SortedMap.ext_entries
    exact List.filter_eq_self.2 fun e he => h _ (List.mem_map_of_mem he)
  rw [filter, hcredits]

/-- A uid is listed once. -/
theorem eq_of_uid_eq (ha : a ∈ s.records) (hr : r ∈ s.records) (h : a.uid = r.uid) : a = r := by
  have hcredit := mem_records_iff.1 ha
  rw [h, mem_records_iff.1 hr] at hcredit
  obtain ⟨uid, node⟩ := a
  obtain ⟨uid', node'⟩ := r
  cases h
  cases hcredit
  rfl

theorem records_removeOverlapping (s : MatchSet) :
    s.removeOverlapping.records = keepUncovered [] s.records := by
  rw [removeOverlapping_eq, dropCovered, records_filter]
  have hkept := keepUncovered_eq_filter
    (show ([] ++ s.records).Pairwise _ from s.pairwise_records) fun _ => rfl
  exact hkept.symm

theorem mem_removeOverlapping :
    r ∈ s.removeOverlapping.records ↔
      r ∈ s.records ∧ ∀ a ∈ s.records, a.uid < r.uid → ¬ a.covers r = true := by
  rw [removeOverlapping_eq, dropCovered, records_filter, List.mem_filter]
  simp [coveredIn]

/-- Of the records that cover `r`, the one with the least uid stays. -/
theorem exists_kept_covers (ha : a ∈ s.records) (hcov : a.covers r = true) :
    ∃ b ∈ s.removeOverlapping.records, b.covers r = true := by
  obtain ⟨b, hb, hbr, hleast⟩ := exists_least (P := (·.covers r = true)) s.pairwise_records ha hcov
  refine ⟨b, mem_removeOverlapping.2 ⟨hb, ?_⟩, hbr⟩
  intro c hc hlt hcb
  exact hleast c hc (MatchRecord.covers_trans hcb hbr) hlt

theorem removeOverlapping_idem (s : MatchSet) :
    s.removeOverlapping.removeOverlapping = s.removeOverlapping := by
  rw [removeOverlapping_eq s.removeOverlapping]
  apply filter_eq_self
  intro r hr
  have hkept := mem_removeOverlapping.1 hr
  have huncovered : coveredIn s.removeOverlapping.records r = false := by
    apply List.any_eq_false.2
    intro a ha hcov
    obtain ⟨hlt, hcov⟩ := Bool.and_eq_true_iff.1 hcov
    exact hkept.2 a (mem_removeOverlapping.1 ha).1 (of_decide_eq_true hlt) hcov
  rw [huncovered]
  rfl

end MatchSet

/-! ## Group by group -/

/-- The records accepted so far, node by node. -/
abbrev NodeGroups := Option NodeId → List MatchRecord

/-- Accepts a record into the group of its node, unless the uid of a record accepted there stands
    within its own. -/
def NodeGroups.accept (groups : NodeGroups) (r : MatchRecord) : NodeGroups :=
  if (groups r.node).any fun a => occursIn a.uid.toList r.uid.toList then groups
  else fun node => if node = r.node then groups node ++ [r] else groups node

/-- The groups into which the records of a set are accepted, one after the other. -/
def MatchSet.nodeGroups (s : MatchSet) : NodeGroups := s.records.foldl .accept fun _ => []

/-- The set of the records accepted, with the groups put together in the order of `nodes`. -/
def MatchSet.regrouped (s : MatchSet) (nodes : List (Option NodeId)) : MatchSet :=
  { ofRecords s.shard s.node (nodes.flatMap s.nodeGroups) with infinite := s.infinite }

/-- The groups hold just the records in `kept`, each in the group of its node. -/
def NodeGroups.Holds (groups : NodeGroups) (kept : List MatchRecord) : Prop :=
  ∀ node r, r ∈ groups node ↔ r ∈ kept ∧ r.node = node

theorem NodeGroups.Holds.any_eq {groups : NodeGroups} {kept : List MatchRecord}
    (h : groups.Holds kept) (r : MatchRecord) :
    ((groups r.node).any fun a => occursIn a.uid.toList r.uid.toList) =
      kept.any (·.covers r) := by
  rw [Bool.eq_iff_iff, List.any_eq_true, List.any_eq_true]
  simp only [h r.node, MatchRecord.covers, Bool.and_eq_true, beq_iff_eq, and_assoc]

theorem NodeGroups.Holds.accept {groups : NodeGroups} {kept : List MatchRecord}
    (h : groups.Holds kept) (r : MatchRecord) :
    (groups.accept r).Holds (if kept.any (·.covers r) then kept else r :: kept) := by
  rw [NodeGroups.accept, h.any_eq r]
  by_cases hcov : kept.any (·.covers r) = true
  · rwa [if_pos hcov, if_pos hcov]
  · rw [if_neg hcov, if_neg hcov]
    intro node a
    show a ∈ (if node = r.node then groups node ++ [r] else groups node) ↔ _
    by_cases hnode : node = r.node
    · subst hnode
      rw [if_pos rfl, List.mem_append, h r.node, List.mem_singleton, List.mem_cons]
      constructor
      · rintro (⟨ha, hanode⟩ | rfl)
        · exact ⟨.inr ha, hanode⟩
        · exact ⟨.inl rfl, rfl⟩
      · rintro ⟨rfl | ha, hanode⟩
        · exact .inr rfl
        · exact .inl ⟨ha, hanode⟩
    · rw [if_neg hnode, h node, List.mem_cons]
      refine ⟨fun ⟨ha, hanode⟩ => ⟨.inr ha, hanode⟩, ?_⟩
      rintro ⟨rfl | ha, hanode⟩
      · exact absurd hanode.symm hnode
      · exact ⟨ha, hanode⟩

/-- Whatever was kept before, the groups come to hold what is kept by comparing across groups. -/
theorem NodeGroups.Holds.foldl {groups : NodeGroups} {kept : List MatchRecord}
    (h : groups.Holds kept) (rs : List MatchRecord) :
    (rs.foldl NodeGroups.accept groups).Holds ((keepUncovered kept rs).reverse ++ kept) := by
  induction rs generalizing groups kept with
  | nil => exact h
  | cons r rs ih =>
    have hnext := ih (h.accept r)
    rw [List.foldl_cons, keepUncovered]
    by_cases hcov : kept.any (·.covers r) = true
    · rwa [if_pos hcov] at hnext ⊢
    · rw [if_neg hcov] at hnext ⊢
      rwa [List.reverse_cons, List.append_assoc]

namespace MatchSet

variable {s : MatchSet} {a r : MatchRecord}

theorem mem_nodeGroups {node : Option NodeId} :
    r ∈ s.nodeGroups node ↔ r ∈ s.removeOverlapping.records ∧ r.node = node := by
  have hnone : NodeGroups.Holds (fun _ => []) [] := fun _ _ => by simp
  have hgroups := hnone.foldl s.records node r
  rwa [List.append_nil, List.mem_reverse, ← records_removeOverlapping] at hgroups

/-- A set is known by its records: it credits each uid that some list of them does. -/
theorem creditIn_of_mem_iff {rs : List MatchRecord} (h : ∀ r, r ∈ rs ↔ r ∈ s.records)
    (uid : String) : creditIn uid rs = s.credits.get? uid := by
  rw [creditIn]
  cases hfind : rs.find? (·.uid = uid) with
  | none =>
    cases hget : s.credits.get? uid with
    | none => rfl
    | some node =>
      have hmem : (⟨uid, node⟩ : MatchRecord) ∈ rs := (h _).2 (mem_records_iff.2 hget)
      simpa using List.find?_eq_none.1 hfind _ hmem
  | some r =>
    have huid : r.uid = uid := by simpa using List.find?_some hfind
    rw [← huid, mem_records_iff.1 ((h r).1 (List.mem_of_find?_eq_some hfind))]
    rfl

/-- The groups may be put together in any order. -/
theorem regrouped_eq {nodes : List (Option NodeId)} (h : ∀ r ∈ s.records, r.node ∈ nodes) :
    s.regrouped nodes = s.removeOverlapping := by
  refine ext_credits (shard_ofRecords _) (node_ofRecords _) rfl ?_
  intro uid
  refine (get?_ofRecords _).trans (creditIn_of_mem_iff ?_ uid)
  intro r
  simp only [List.mem_flatMap, mem_nodeGroups]
  constructor
  · rintro ⟨node, -, hr, -⟩
    exact hr
  · intro hr
    exact ⟨r.node, h r (mem_removeOverlapping.1 hr).1, hr, rfl⟩

/-! ## What is dropped, and what is not -/

/-- A record stays, credited as before, if and only if no record of its node with a smaller uid
    stands within it; in whichever order the groups of the nodes are put together, this is what
    comes out.  Shard, node and the infinite mark stay.  A record that is dropped has an ancestor
    that stays, so a set that admits something still does, and there is nothing left to be dropped
    another time. -/
theorem removeOverlapping_keeps (s : MatchSet) :
    (∀ r, r ∈ s.removeOverlapping.records ↔ r ∈ s.records ∧
      ¬ ∃ a ∈ s.records, a.node = r.node ∧ a.uid < r.uid ∧ a.uid.toList <:+: r.uid.toList) ∧
    (∀ nodes : List (Option NodeId), (∀ r ∈ s.records, r.node ∈ nodes) →
      s.regrouped nodes = s.removeOverlapping) ∧
    (s.removeOverlapping.shard = s.shard ∧ s.removeOverlapping.node = s.node ∧
      s.removeOverlapping.infinite = s.infinite) ∧
    (∀ r ∈ s.records, r ∉ s.removeOverlapping.records →
      ∃ a ∈ s.removeOverlapping.records, a.node = r.node ∧ a.uid.toList <:+: r.uid.toList) ∧
    s.removeOverlapping.matchesNothing = s.matchesNothing ∧
    s.removeOverlapping.removeOverlapping = s.removeOverlapping := by
  refine ⟨?_, fun nodes => regrouped_eq, ⟨rfl, rfl, rfl⟩, ?_, ?_, removeOverlapping_idem s⟩
  · intro r
    rw [mem_removeOverlapping]
    apply and_congr_right
    intro _
    simp only [MatchRecord.covers_iff, not_exists, not_and]
    exact forall₂_congr fun a _ => forall_comm
  · intro r hr hdropped
    obtain ⟨a, ha, hcov⟩ := exists_kept_covers hr r.covers_refl
    exact ⟨a, ha, MatchRecord.covers_iff.1 hcov⟩
  · rw [removeOverlapping_eq, matchesNothing_dropCovered]

/-- Documents of two nodes, and one of no node, nested in one another. -/
def sampleNested : MatchSet :=
  (ofRecords "20240101_0" (some ⟨1⟩) [⟨"a", some ⟨1⟩⟩, ⟨"a.b", some ⟨1⟩⟩, ⟨"a.b.c", some ⟨2⟩⟩,
    ⟨"b", some ⟨1⟩⟩, ⟨"x.a", none⟩]).markInfinite

theorem removeOverlapping_keeps_sample :
    sampleNested.regrouped [none, some ⟨2⟩, some ⟨1⟩] = sampleNested.removeOverlapping ∧
    ∃ a ∈ sampleNested.removeOverlapping.records,
      a.node = some ⟨1⟩ ∧ a.uid.toList <:+: "a.b".toList := by
  obtain ⟨-, hgroups, -, hdropped, -⟩ := removeOverlapping_keeps sampleNested
  exact ⟨hgroups _ (by decide), hdropped ⟨"a.b", some ⟨1⟩⟩ (by decide) (by decide)⟩

/-- If some ancestor of `r` comes after it in uid order and none before it, one that comes after it
    stays. -/
theorem exists_kept_late (ha : a ∈ s.records) (hr : r ∈ s.records) (hlt : r.uid < a.uid)
    (hcov : a.covers r = true) (hearly : ∀ b ∈ s.records, b.uid < r.uid → ¬ b.covers r = true) :
    ∃ b ∈ s.removeOverlapping.records, r.uid < b.uid ∧ b.covers r = true := by
  obtain ⟨b, hb, ⟨hrb, hbr⟩, hleast⟩ :=
    exists_least (P := fun b => r.uid < b.uid ∧ b.covers r = true) s.pairwise_records ha ⟨hlt, hcov⟩
  refine ⟨b, mem_removeOverlapping.2 ⟨hb, ?_⟩, hrb, hbr⟩
  -- whatever covers `b` covers `r`, so it comes neither before nor after `r`, and is not `r` itself
  intro c hc hlow hcb
  have hcr := MatchRecord.covers_trans hcb hbr
  by_cases hrc : r.uid < c.uid
  · exact hleast c hc ⟨hrc, hcr⟩ hlow
  · by_cases heq : c.uid = r.uid
    · obtain rfl := eq_of_uid_eq hc hr heq
      rw [MatchRecord.uid_eq_of_covers hbr hcb] at hrb
      exact String.lt_irrefl _ hrb
    · exact hearly c hc (Std.lt_of_le_of_ne (String.not_lt.1 hrc) heq) hcr

/-- The records that stay are free of overlaps if and only if every record that has an ancestor
    after it in uid order has one before it too. -/
theorem removeOverlapping_separates_iff (s : MatchSet) :
    (∀ a ∈ s.removeOverlapping.records, ∀ r ∈ s.removeOverlapping.records, a ≠ r →
      a.node = r.node → ¬ a.uid.toList <:+: r.uid.toList) ↔
    ∀ a ∈ s.records, ∀ r ∈ s.records, a.node = r.node → r.uid < a.uid →
      a.uid.toList <:+: r.uid.toList →
        ∃ b ∈ s.records, b.node = r.node ∧ b.uid < r.uid ∧ b.uid.toList <:+: r.uid.toList := by
  constructor
  · intro hseparate a ha r hr hnode hlt hinfix
    by_cases hearly : ∃ b ∈ s.records, b.uid < r.uid ∧ b.covers r = true
    · obtain ⟨b, hb, hbr, hcov⟩ := hearly
      obtain ⟨hbnode, hbinfix⟩ := MatchRecord.covers_iff.1 hcov
      exact ⟨b, hb, hbnode, hbr, hbinfix⟩
    · have hnone : ∀ b ∈ s.records, b.uid < r.uid → ¬ b.covers r = true :=
        fun b hb hbr hcov => hearly ⟨b, hb, hbr, hcov⟩
      obtain ⟨b, hb, hrb, hcov⟩ :=
        exists_kept_late ha hr hlt (MatchRecord.covers_iff.2 ⟨hnode, hinfix⟩) hnone
      obtain ⟨hbnode, hbinfix⟩ := MatchRecord.covers_iff.1 hcov
      have hne : b ≠ r := by
        rintro rfl
        exact String.lt_irrefl _ hrb
      exact absurd hbinfix
        (hseparate b hb r (mem_removeOverlapping.2 ⟨hr, hnone⟩) hne hbnode)
  · intro hearly a ha r hr hne hnode hinfix
    obtain ⟨ha, -⟩ := mem_removeOverlapping.1 ha
    obtain ⟨hr, hkept⟩ := mem_removeOverlapping.1 hr
    by_cases hlt : r.uid < a.uid
    · obtain ⟨b, hb, hbnode, hbr, hbinfix⟩ := hearly a ha r hr hnode hlt hinfix
      exact hkept b hb hbr (MatchRecord.covers_iff.2 ⟨hbnode, hbinfix⟩)
    · have huid : a.uid ≠ r.uid := fun h => hne (eq_of_uid_eq ha hr h)
      exact hkept a ha (Std.lt_of_le_of_ne (String.not_lt.1 hlt) huid)
        (MatchRecord.covers_iff.2 ⟨hnode, hinfix⟩)

/-- An ancestor that comes after its descendant in uid order stays beside it. -/
theorem removeOverlapping_keeps_late :
    let out := (ofUids "20240101_0" (some ⟨1⟩) ["ab", "b"]).removeOverlapping
    ¬ ∀ a ∈ out.records, ∀ r ∈ out.records, a ≠ r → a.node = r.node →
      ¬ a.uid.toList <:+: r.uid.toList := by
  intro out hseparate
  exact hseparate ⟨"b", some ⟨1⟩⟩ (by decide) ⟨"ab", some ⟨1⟩⟩ (by decide) (by decide) rfl
    ⟨['a'], [], rfl⟩

end MatchSet

end ShardSearch
