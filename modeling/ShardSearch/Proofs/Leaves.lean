import ShardSearch.Proofs.Shards
import ShardSearch.Proofs.StreamTrace

/-!
# The traces of leaves

A scan whose source does not fail and whose shards ascend yields what the source does.
-/

namespace ShardSearch

/-- The sets that a source yields until it first has nothing. -/
def ScanItem.leading : List ScanItem → List MatchSet
  | .found set :: items => set :: leading items
  | _ => []

/-- The item is no failure. -/
def ScanItem.isSound : ScanItem → Bool
  | failure _ => false
  | found _ | pause => true

/-- The shards of some sets ascend strictly. -/
abbrev AscendingSets (sets : List MatchSet) : Prop := sets.Pairwise (·.shard < ·.shard)

/-- A source that does not fail and whose sets ascend yields them until it first has nothing. -/
theorem Scanner.traceFrom_eq {items : List ScanItem} {last : Option String}
    (hsound : items.all (·.isSound)) (hasc : AscendingSets (ScanItem.leading items))
    (hlast : ∀ shard ∈ last, ∀ s ∈ ScanItem.leading items, shard < s.shard) :
    Scanner.traceFrom last items = ⟨(ScanItem.leading items).map (·.entry), none⟩ := by
  induction items generalizing last with
  | nil => rfl
  | cons item items ih =>
    rw [List.all_cons, Bool.and_eq_true] at hsound
    cases item with
    | failure error => cases hsound.1
    | pause => rfl
    | found set =>
      rw [ScanItem.leading] at hasc hlast ⊢
      obtain ⟨hlt, hitems⟩ := List.pairwise_cons.1 hasc
      have hrest : traceFrom (some set.shard) items =
          ⟨(ScanItem.leading items).map (·.entry), none⟩ :=
        ih hsound.2 hitems fun shard hshard s hs => by
          rw [← Option.some.inj hshard]
          exact hlt s hs
      cases last with
      | none =>
        rw [traceFrom, hrest]
        rfl
      | some shard =>
        rw [traceFrom, if_pos (hlast shard rfl set List.mem_cons_self), hrest]
        rfl

theorem clean_map_entry {sets : List MatchSet} (h : AscendingSets sets) :
    Trace.Clean ⟨sets.map (·.entry), none⟩ :=
  ⟨List.pairwise_map.2 h, rfl⟩

end ShardSearch
