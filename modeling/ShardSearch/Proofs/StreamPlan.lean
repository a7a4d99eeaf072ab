import Mathlib.Data.List.Forall2
import ShardSearch.Proofs.Composite
import ShardSearch.Proofs.Cursor
import ShardSearch.Proofs.Leaves
import ShardSearch.Proofs.SetModel
import ShardSearch.Query.LeafTable

/-!
# Streams against plain sets

A `StreamPlan` says how a stream is put together.  `drain_make` is the main result: what is made
by a plan yields exactly the shards of the model of the plan, in ascending order.
-/

namespace ShardSearch

/-- How a stream is put together. -/
inductive StreamPlan where
  | leaf (node : Option NodeId) (plan : LeafPlan)
  | intersection (node : Option NodeId) (parts : List StreamPlan)
  | union (node : Option NodeId) (parts : List StreamPlan)
  | ancestor (parent : Option NodeId) (part : StreamPlan)

/-- The data of a leaf ascends, and no scanner fails. -/
def LeafPlan.WellFormed : LeafPlan → Prop
  | complete sets | varying sets => AscendingSets sets
  | absent | delayed | unindexed => True
  | scan items => items.all (·.isSound) ∧ AscendingSets (ScanItem.leading items)

/-- The model of a leaf: the sets it holds. -/
def LeafPlan.model : LeafPlan → SetModel
  | complete sets => .ofSets sets.isEmpty (!sets.isEmpty) sets
  | varying sets => .ofSets false false sets
  | absent => .ofSets true false []
  | delayed | unindexed => .ofSets false false []
  | scan items => .ofSets false true (ScanItem.leading items)

namespace StreamPlan

mutual

/-- Makes the stream of a plan. -/
def make : StreamPlan → Except Error Stream
  | leaf node plan => plan.stream node
  | intersection node parts => (makeAll parts).bind (Stream.intersect node)
  | union node parts => (makeAll parts).bind (Stream.unite node)
  | ancestor parent part => (make part).map (·.dropDescendants parent)

/-- Makes the streams of some plans. -/
def makeAll : List StreamPlan → Except Error (List Stream)
  | [] => .ok []
  | p :: rest => (make p).bind fun s => (makeAll rest).map (s :: ·)

end

mutual

/-- The model of a plan. -/
def model : StreamPlan → SetModel
  | leaf _ plan => plan.model
  | intersection node parts => .intersection node (modelAll parts)
  | union node parts => .union node (modelAll parts)
  | ancestor _ part => (model part).ancestor

/-- The models of some plans. -/
def modelAll : List StreamPlan → List SetModel
  | [] => []
  | p :: rest => model p :: modelAll rest

end

mutual

/-- All leaves are well-formed, and every composite has two parts at least. -/
def WellFormed : StreamPlan → Prop
  | leaf _ plan => plan.WellFormed
  | intersection _ parts => 2 ≤ parts.length ∧ WellFormedAll parts
  | union _ parts => 2 ≤ parts.length ∧ WellFormedAll parts
  | ancestor _ part => WellFormed part

/-- All of some plans are well-formed. -/
def WellFormedAll : List StreamPlan → Prop
  | [] => True
  | p :: rest => WellFormed p ∧ WellFormedAll rest

end

end StreamPlan

/-! ## Leaves -/

theorem Stream.checkAscending_eq_ok {sets : List MatchSet} (h : AscendingSets sets) :
    Stream.checkAscending sets = .ok () := by
  induction sets with
  | nil => rfl
  | cons s sets ih =>
    obtain ⟨hlt, hsets⟩ := List.pairwise_cons.1 h
    cases sets with
    | nil => rfl
    | cons s' sets =>
      rw [checkAscending, if_pos (hlt s' List.mem_cons_self)]
      exact ih hsets

theorem Stream.leafOf_eq_ok {sets : List MatchSet} (node : Option NodeId) (context : Context)
    (h : AscendingSets sets) :
    Stream.leafOf node context sets =
      .ok (leaf node context (defaultLabel node) (sets.map (·.entry))) := by
  rw [leafOf, checkAscending_eq_ok h]
  rfl

/-! ## Streams and their models -/

/-- The stream holds the sets of the model, and says of itself what the model does. -/
structure Models (s : Stream) (m : SetModel) : Prop where
  clean : s.trace.Clean
  absent : s.context = .absent ↔ m.absent = true
  prunes : s.canPrune = m.prunes
  shards : ∀ x, s.trace.at? x = m.shards.get? x

theorem LeafPlan.models_ofSets {s : Stream} {sets : List MatchSet} {absent prunes : Bool}
    (h : AscendingSets sets) (htrace : s.trace = ⟨sets.map (·.entry), none⟩)
    (habsent : s.context = .absent ↔ absent = true) (hprunes : s.canPrune = prunes) :
    Models s (.ofSets absent prunes sets) := by
  refine ⟨htrace ▸ clean_map_entry h, habsent, hprunes, ?_⟩
  intro x
  rw [htrace, SetModel.get?_ofSets]

/-- The stream of a leaf holds the sets of its plan. -/
theorem LeafPlan.stream_models {plan : LeafPlan} (node : Option NodeId) (h : plan.WellFormed) :
    ∃ s, plan.stream node = .ok s ∧ Models s plan.model := by
  cases plan with
  | complete sets =>
    refine ⟨_, Stream.leafOf_eq_ok node _ h, models_ofSets h ?_ ?_ ?_⟩
    · rw [Stream.trace]
    · cases sets <;> simp [Stream.context]
    · cases sets <;> rfl
  | varying sets =>
    refine ⟨_, Stream.leafOf_eq_ok node _ h, models_ofSets h ?_ ?_ rfl⟩
    · rw [Stream.trace]
    · simp [Stream.context]
  | absent => exact ⟨_, rfl, models_ofSets .nil rfl (by simp [Stream.absent, Stream.context]) rfl⟩
  | delayed => exact ⟨_, rfl, models_ofSets .nil rfl (by simp [Stream.delayed, Stream.context]) rfl⟩
  | unindexed =>
    exact ⟨_, rfl, models_ofSets .nil rfl (by simp [Stream.unindexed, Stream.context]) rfl⟩
  | scan items =>
    refine ⟨_, rfl, models_ofSets h.2 ?_ (by simp [Stream.ofScanner, Stream.context]) rfl⟩
    exact Scanner.traceFrom_eq h.1 h.2 fun shard hshard => absurd hshard (Option.not_mem_none shard)

/-! ## Composites -/

section Composites

variable {node : Option NodeId} {children : List Stream} {parts : List SetModel}

theorem any_absent_eq (h : List.Forall₂ Models children parts) :
    children.any (·.context = .absent) = parts.any (·.absent) := by
  apply h.any_congr
  intro _ _ hs
  rw [Bool.eq_iff_iff, decide_eq_true_iff]
  exact hs.absent

theorem forall₂_pruning (h : List.Forall₂ Models children parts) :
    List.Forall₂ Models (children.filter Stream.canPrune) (parts.filter (·.prunes)) :=
  List.rel_filter (fun _ _ hs => by simp only [hs.prunes]) h

theorem forall₂_present (h : List.Forall₂ Models children parts) :
    List.Forall₂ Models (children.filter (·.context ≠ .absent)) (parts.filter (!·.absent)) := by
  refine List.rel_filter ?_ h
  intro _ _ hs
  simp only [decide_eq_true_iff, Bool.not_eq_true', ← Bool.not_eq_true]
  exact not_congr hs.absent

theorem map_at?_eq (h : List.Forall₂ Models children parts) (x : String) :
    children.map (·.trace.at? x) = parts.map (·.shards.get? x) :=
  h.map_congr fun _ _ hs => hs.shards x

theorem clean_children (h : List.Forall₂ Models children parts) :
    ∀ child ∈ children, child.trace.Clean :=
  Stream.clean_of_forall₂ h.flip fun _ _ hs => hs.clean

theorem intersect_models (hlen : 2 ≤ children.length) (h : List.Forall₂ Models children parts) :
    ∃ s, Stream.intersect node children = .ok s ∧ Models s (.intersection node parts) := by
  obtain ⟨s, hs⟩ := Stream.intersect_isOk node hlen
  refine ⟨s, hs, ?_⟩
  have hcontext := Stream.context_intersect hs
  have hprunes := Stream.canPrune_intersect hs
  have hat? := fun x => Stream.at?_intersect (x := x) hs (clean_children h)
  have hfilters := forall₂_pruning h
  rw [any_absent_eq h] at hprunes
  simp only [any_absent_eq h, map_at?_eq hfilters] at hat?
  have habsent : s.context = .absent ↔ parts.any (·.absent) = true := by
    rw [hcontext, ← any_absent_eq h, List.any_eq_true]
    simp
  refine ⟨Stream.clean_intersect hs (clean_children h), ?_, ?_, ?_⟩
  · rw [habsent, SetModel.intersection]
    split <;> simp_all
  · rw [hprunes, hfilters.isEmpty_congr, SetModel.intersection]
    cases parts.any (·.absent) <;> rfl
  · intro x
    rw [hat?]
    split
    · next hany => rw [SetModel.intersection, if_pos hany]; rfl
    · next hany => rw [SetModel.get?_intersection (by simpa using hany)]

theorem unite_models (hlen : 2 ≤ children.length) (h : List.Forall₂ Models children parts) :
    ∃ s, Stream.unite node children = .ok s ∧ Models s (.union node parts) := by
  refine ⟨_, Stream.unite_eq node hlen, ?_⟩
  have hs := Stream.unite_eq node hlen
  have hsources := forall₂_present h
  refine ⟨Stream.clean_unite hs (clean_children h), ?_, ?_, ?_⟩
  · rw [Stream.context, Stream.contextOf_eq_absent_iff, SetModel.union, ← hsources.isEmpty_congr]
    simp
  · rw [Stream.canPrune, hsources.isEmpty_congr, hsources.all_congr fun _ _ hs => hs.prunes]
    rfl
  · intro x
    rw [SetModel.get?_union, Stream.at?_unite hs (clean_children h), map_at?_eq hsources]

end Composites

theorem dropDescendants_models {s : Stream} {m : SetModel} (parent : Option NodeId)
    (h : Models s m) : Models (s.dropDescendants parent) m.ancestor := by
  have htrace : (s.dropDescendants parent).trace = s.trace.mapSets .removeOverlapping := by
    rw [Stream.dropDescendants, Stream.trace]
  refine ⟨?_, h.absent, h.prunes, ?_⟩
  · rw [htrace]
    exact h.clean.mapSets _
  · intro x
    rw [htrace, Trace.at?_mapSets, h.shards, SetModel.get?_ancestor]
    exact congrArg (Option.map · _) (funext MatchSet.removeOverlapping_eq)

/-! ## Plans and their models -/

namespace StreamPlan

mutual

/-- What is made by a plan holds the sets of the model of the plan. -/
theorem make_models : ∀ {p : StreamPlan}, p.WellFormed → ∃ s, p.make = .ok s ∧ Models s p.model
  | leaf node plan, h => by
    rw [make, model]
    exact plan.stream_models node h
  | intersection node parts, h => by
    obtain ⟨children, hmake, hlen, hmodels⟩ := makeAll_models h.2
    rw [make, model, hmake]
    exact intersect_models (hlen ▸ h.1) hmodels
  | union node parts, h => by
    obtain ⟨children, hmake, hlen, hmodels⟩ := makeAll_models h.2
    rw [make, model, hmake]
    exact unite_models (hlen ▸ h.1) hmodels
  | ancestor parent part, h => by
    obtain ⟨s, hmake, hmodels⟩ := make_models (p := part) h
    rw [make, model, hmake]
    exact ⟨_, rfl, dropDescendants_models parent hmodels⟩

/-- What is made by some plans holds the sets of their models, one by one. -/
theorem makeAll_models : ∀ {ps : List StreamPlan}, WellFormedAll ps →
    ∃ ss, makeAll ps = .ok ss ∧ ss.length = ps.length ∧ List.Forall₂ Models ss (modelAll ps)
  | [], _ => ⟨[], by rw [makeAll], rfl, by rw [modelAll]; exact .nil⟩
  | p :: rest, h => by
    rw [WellFormedAll] at h
    obtain ⟨s, hmake, hmodels⟩ := make_models h.1
    obtain ⟨ss, hmakes, hlen, hall⟩ := makeAll_models h.2
    refine ⟨s :: ss, ?_, congrArg (· + 1) hlen, ?_⟩
    · rw [makeAll, hmake, hmakes]
      rfl
    · rw [modelAll]
      exact .cons hmodels hall

end

/-- A plan whose leaves are well-formed and whose composites have two parts or more can be made,
    and the stream made is read to its end without failure.  Its entries are those of the model of
    the plan. -/
theorem drain_make (p : StreamPlan) (h : p.WellFormed) :
    ∃ s, p.make = .ok s ∧ s.drain.1 = .ok p.model.entries ∧
      (s.context = .absent ↔ p.model.absent = true) ∧ s.canPrune = p.model.prunes := by
  obtain ⟨s, hmake, hmodels⟩ := make_models h
  refine ⟨s, hmake, ?_, hmodels.absent, hmodels.prunes⟩
  rw [Stream.drain_eq, hmodels.clean.sound]
  exact congrArg Except.ok (SetModel.entries_eq hmodels.clean hmodels.shards)

/-- A plan with every kind of composite.  One part of its intersection is infinite in the first
    shard, another one is put off. -/
def sample : StreamPlan :=
  ancestor none <| union none
    [intersection (some ⟨3⟩)
      [leaf (some ⟨1⟩) (.complete
        [MatchSet.ofUids "20240101-a" (some ⟨1⟩) ["x", "x-1"],
          MatchSet.ofUids "20240102-a" (some ⟨1⟩) ["y"]]),
        leaf (some ⟨2⟩) (.complete [MatchSet.everything "20240101-a" (some ⟨2⟩)]),
        leaf (some ⟨5⟩) .delayed],
      leaf (some ⟨4⟩) (.scan
        [.found (MatchSet.ofUids "20240101-a" (some ⟨4⟩) ["x", "z"]),
          .found (MatchSet.ofUids "20240103-a" (some ⟨4⟩) ["w"]), .pause])]

theorem drain_make_sample :
    sample.WellFormed ∧ ∃ s, sample.make = .ok s ∧ s.drain.1 = .ok
      [⟨"20240101-a", "20240101-a", some ⟨3⟩, false, .ofList [("x", some ⟨3⟩), ("z", some ⟨4⟩)]⟩,
        ⟨"20240103-a", "20240103-a", some ⟨4⟩, false, .ofList [("w", some ⟨4⟩)]⟩] := by
  have hsample : sample.WellFormed := by
    have hfirst : AscendingSets [MatchSet.ofUids "20240101-a" (some ⟨1⟩) ["x", "x-1"],
        MatchSet.ofUids "20240102-a" (some ⟨1⟩) ["y"]] := by decide
    have hsecond : AscendingSets [MatchSet.everything "20240101-a" (some ⟨2⟩)] := by decide
    have hthird : AscendingSets [MatchSet.ofUids "20240101-a" (some ⟨4⟩) ["x", "z"],
        MatchSet.ofUids "20240103-a" (some ⟨4⟩) ["w"]] := by decide
    exact ⟨by decide, ⟨by decide, hfirst, hsecond, trivial, trivial⟩, ⟨rfl, hthird⟩, trivial⟩
  obtain ⟨s, hmake, hdrain, -⟩ := drain_make sample hsample
  exact ⟨hsample, s, hmake, hdrain⟩

end StreamPlan

end ShardSearch
