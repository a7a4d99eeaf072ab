import Mathlib.Data.List.Basic
import ShardSearch.Proofs.MatchSets

/-!
# Which record of a document is kept

Records of one document are told apart by the node they are credited to only, and a set keeps the
first that it is given.  What it lists is therefore settled by the first record for each uid, in
whatever way the records are handed in, all at once or one by one, and whatever is done in between
to the set as a whole (`records_first_kept`).
-/

namespace ShardSearch

/-- A call that changes a match set. -/
inductive SetCall where
  | insert (r : MatchRecord)
  | markInfinite
  | setNode (node : Option NodeId)
  deriving DecidableEq, Inhabited

/-- The record that a call hands in, if it does. -/
def SetCall.record? : SetCall → Option MatchRecord
  | insert r => some r
  | markInfinite | setNode _ => none

theorem uid_of_find? {uid : String} {rs : List MatchRecord} {r : MatchRecord}
    (h : rs.find? (·.uid = uid) = some r) : r.uid = uid := by
  simpa using List.find?_some h

/-- The first record for a uid is made up of the uid and its credit. -/
theorem find?_uid_eq (uid : String) (rs : List MatchRecord) :
    rs.find? (·.uid = uid) = (creditIn uid rs).map (MatchRecord.mk uid) := by
  unfold creditIn
  cases hfind : rs.find? (·.uid = uid) with
  | none => rfl
  | some r => rw [← uid_of_find? hfind]; rfl

theorem isSome_creditIn {uid : String} {rs : List MatchRecord} :
    (creditIn uid rs).isSome ↔ ∃ r ∈ rs, r.uid = uid := by
  simp [creditIn, List.find?_isSome]

namespace MatchSet

variable {s : MatchSet} {given : List MatchRecord} {shard : String} {node : Option NodeId}

/-- The set after a call. -/
def call (s : MatchSet) : SetCall → MatchSet
  | .insert r => (s.insert r).2
  | .markInfinite => s.markInfinite
  | .setNode node => s.setNode node

/-- The set after some calls. -/
def after (s : MatchSet) (calls : List SetCall) : MatchSet := calls.foldl call s

/-- The set credits each uid as the first record given for it does. -/
def CreditsFirst (s : MatchSet) (given : List MatchRecord) : Prop :=
  ∀ uid, s.credits.get? uid = creditIn uid given

theorem creditsFirst_ofRecords (rs : List MatchRecord) :
    (ofRecords shard node rs).CreditsFirst rs :=
  fun _ => get?_ofRecords rs

theorem CreditsFirst.call (h : s.CreditsFirst given) (c : SetCall) :
    (s.call c).CreditsFirst (given ++ c.record?.toList) := by
  intro uid
  cases c with
  | insert r =>
    show (s.addAll [r]).credits.get? uid = _
    rw [get?_addAll, h uid, creditIn_append]
    rfl
  | markInfinite | setNode node =>
    rw [SetCall.record?, Option.toList_none, List.append_nil]
    exact h uid

theorem CreditsFirst.after (h : s.CreditsFirst given) (calls : List SetCall) :
    (s.after calls).CreditsFirst (given ++ calls.filterMap SetCall.record?) := by
  induction calls generalizing s given with
  | nil =>
    rw [List.filterMap_nil, List.append_nil]
    exact h
  | cons c calls ih =>
    have hgiven : (c :: calls).filterMap SetCall.record? =
        c.record?.toList ++ calls.filterMap SetCall.record? := by
      cases c <;> rfl
    rw [hgiven, ← List.append_assoc]
    exact ih (h.call c)

theorem shard_after (s : MatchSet) (calls : List SetCall) : (s.after calls).shard = s.shard := by
  induction calls generalizing s with
  | nil => rfl
  | cons c calls ih =>
    have hcall : (s.call c).shard = s.shard := by cases c <;> rfl
    exact (ih (s.call c)).trans hcall

/-- A record for a uid that is listed changes nothing. -/
theorem add_eq_self {r : MatchRecord} (h : s.contains r.uid = true) : s.add r = s := by
  have hcredits : s.credits.insertIfNew r.uid r.node = s.credits := by
    apply SortedMap.alter_eq_self
    obtain ⟨credit, hcredit⟩ := Option.isSome_iff_exists.1 h
    rw [hcredit]
    rfl
  rw [add, hcredits]

/-- What a set that keeps the first of the records given for each uid lists and answers. -/
structure KeepsFirst (s : MatchSet) (given : List MatchRecord) : Prop where
  ascending : s.uids.Pairwise (· < ·)
  mem_uids_iff : ∀ uid, uid ∈ s.uids ↔ ∃ r ∈ given, r.uid = uid
  contains_iff : ∀ uid, s.contains uid = true ↔ uid ∈ s.uids
  get?_eq : ∀ uid, s.get? uid = given.find? (·.uid = uid)
  records_eq : s.records = s.uids.filterMap s.get?
  insert_iff : ∀ r, (s.insert r).1 = true ↔ s.contains r.uid = false
  /-- A record that is turned away leaves the set as it is, the earlier record included. -/
  insert_eq_self : ∀ r, (s.insert r).1 = false → (s.insert r).2 = s

theorem CreditsFirst.keepsFirst (h : s.CreditsFirst given) : s.KeepsFirst given := by
  have hcontains : ∀ uid, s.contains uid = true ↔ uid ∈ s.uids :=
    fun uid => SortedMap.contains_iff_mem_keys
  refine ⟨SortedMap.pairwise_keys _, ?_, hcontains, ?_, ?_, ?_, ?_⟩
  · intro uid
    rw [← hcontains, contains_eq, h uid, isSome_creditIn]
  · intro uid
    rw [get?, h uid, find?_uid_eq]
  · have hget : ∀ e ∈ s.credits.entries, s.get? e.1 = some ⟨e.1, e.2⟩ := by
      intro e he
      rw [get?, SortedMap.get?_eq_some_iff.2 he]
      rfl
    rw [records, uids, SortedMap.keys, List.filterMap_map]
    exact (List.filterMap_eq_map_iff_forall_eq_some.2 hget).symm
  · intro r
    simp [insert]
  · intro r hr
    exact add_eq_self (by simpa [insert] using hr)

/-- Two lists of records make the same set, credits included, exactly if they have the same first
    record for each uid. -/
theorem ofRecords_eq_iff {rs rs' : List MatchRecord} :
    ofRecords shard node rs = ofRecords shard node rs' ↔
      ∀ uid, rs.find? (·.uid = uid) = rs'.find? (·.uid = uid) := by
  constructor
  · intro heq uid
    have hcredit := congrArg (fun s => s.credits.get? uid) heq
    simp only [get?_ofRecords] at hcredit
    rw [find?_uid_eq, find?_uid_eq, hcredit]
  · intro hfirst
    refine ext_credits (by simp) (by simp) (by simp) fun uid => ?_
    rw [get?_ofRecords, get?_ofRecords, creditIn, creditIn, hfirst]

/-- Records that are handed in later are inserted one by one. -/
theorem ofRecords_append (rs rs' : List MatchRecord) :
    ofRecords shard node (rs ++ rs') =
      rs'.foldl (fun s r => (s.insert r).2) (ofRecords shard node rs) :=
  List.foldl_append

/-- A set that is made of records and changed by any calls lists the uids of all records given so
    far, in ascending order, each with the first record given for it; and it is the set of all
    these records but for its node and its infinite mark.  So sets of records are the same if the
    first records are, and records may as well be inserted one by one. -/
theorem records_first_kept (shard : String) (node : Option NodeId) (rs : List MatchRecord)
    (calls : List SetCall) :
    let given := rs ++ calls.filterMap SetCall.record?
    let s := (ofRecords shard node rs).after calls
    s.KeepsFirst given ∧
      s = { ofRecords shard node given with node := s.node, infinite := s.infinite } ∧
      (∀ rs', ofRecords shard node rs = ofRecords shard node rs' ↔
        ∀ uid, rs.find? (·.uid = uid) = rs'.find? (·.uid = uid)) ∧
      ∀ rs', ofRecords shard node (rs ++ rs') =
        rs'.foldl (fun s r => (s.insert r).2) (ofRecords shard node rs) := by
  intro given s
  have hcredits : s.CreditsFirst given := (creditsFirst_ofRecords rs).after calls
  refine ⟨hcredits.keepsFirst, ?_, fun rs' => ofRecords_eq_iff, ofRecords_append rs⟩
  refine ext_credits ?_ rfl rfl fun uid => ?_
  · show ((ofRecords shard node rs).after calls).shard = (ofRecords shard node given).shard
    rw [shard_after, shard_ofRecords, shard_ofRecords]
  · exact (hcredits uid).trans (get?_ofRecords given).symm

end MatchSet

end ShardSearch
