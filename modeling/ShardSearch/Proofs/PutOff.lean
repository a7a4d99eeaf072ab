import ShardSearch.Proofs.Assembly

/-!
# Nodes put off

The nodes put off are all that tells which predicates have still to be checked.  As long as every
part that an intersection puts off has a node of its own, they cover whatever the shards of a
stream say nothing about (`deferredNodes_cover`).  A part without a node that is put off is lost,
with all that lies below it (`deferredNodes_lose_nameless`).
-/

namespace ShardSearch.Stream

/-- The parts that are read to find the entries of a stream. -/
def read : Stream → List Stream
  | leaf .. | scan .. => []
  | intersection _ _ filters _ _ => filters
  | union _ _ _ sources _ => sources
  | ancestor delegate _ _ => [delegate]

/-- The parts that are put off to the reading of documents. -/
def putOff : Stream → List Stream
  | intersection _ _ _ deferred _ => deferred
  | leaf .. | scan .. | union .. | ancestor .. => []

/-- There is a way down from a stream to the stream `bottom`, on which the nodes are those of
    `path`, both ends included. -/
inductive PathTo (bottom : Stream) : Stream → List NodeId → Prop where
  | here : PathTo bottom bottom bottom.node.toList
  | down {s part : Stream} {path : List NodeId} (mem : part ∈ s.read ++ s.putOff)
      (below : PathTo bottom part path) : PathTo bottom s (s.node.toList ++ path)

/-- Every part that is put off has a node, in the stream and in all that is read of it. -/
inductive NamesPutOff : Stream → Prop where
  | intro {s : Stream} (named : ∀ part ∈ s.putOff, part.node ≠ none)
      (read : ∀ part ∈ s.read, NamesPutOff part) : NamesPutOff s

variable {s bottom : Stream} {path : List NodeId}

theorem PathTo.mem_of_node (h : PathTo bottom s path) {id : NodeId} (hnode : s.node = some id) :
    id ∈ path := by
  cases h with
  | here => simp [hnode]
  | down mem below => simp [hnode]

theorem deferredNodes_eq (h : s.context ≠ .absent) :
    s.deferredNodes = s.putOff.filterMap node ++ s.read.flatMap deferredNodes := by
  cases s with
  | leaf node context label entries => rfl
  | scan node label scanner head => rfl
  | intersection node context filters deferred head =>
    rw [Stream.context] at h
    rw [deferredNodes, if_neg h, deferredNodesAll_eq_flatMap]
    rfl
  | union node context prunes sources head =>
    rw [deferredNodes, deferredNodesAll_eq_flatMap]
    rfl
  | ancestor delegate parent slot => simp [deferredNodes, putOff, read]

/-- A stream that prunes reads only such parts as prune. -/
theorem BuiltFrom.read_of_canPrune (h : s.BuiltFrom IsLeaf) (hprunes : s.canPrune = true) :
    s.context ≠ .absent ∧ ∀ part ∈ s.read, part.BuiltFrom IsLeaf ∧ part.canPrune = true := by
  induction h with
  | leaf kind =>
    rcases isLeaf_cases kind with ⟨node, context, label, sets, -, rfl⟩ | ⟨node, label, items, rfl⟩
    · refine ⟨?_, fun part hpart => nomatch hpart⟩
      rintro rfl
      cases hprunes
    · exact ⟨nofun, fun part hpart => nomatch hpart⟩
  | intersection parts made =>
    obtain ⟨-, hcase⟩ := intersect_cases made
    cases hcase with
    | absent child mem absent => cases hprunes
    | present present =>
      constructor
      · intro habsent
        obtain ⟨child, hchild, habsent⟩ := (context_intersect made).1 habsent
        exact present child hchild habsent
      · intro part hpart
        obtain ⟨hchild, hpart⟩ := List.mem_filter.1 hpart
        exact ⟨parts part hchild, hpart⟩
  | union parts made =>
    obtain ⟨-, rfl⟩ := unite_eq_ok made
    rw [canPrune, Bool.and_eq_true, Bool.not_eq_true', List.isEmpty_eq_false_iff] at hprunes
    obtain ⟨hsome, hall⟩ := hprunes
    constructor
    · intro habsent
      obtain ⟨child, hchild⟩ := List.exists_mem_of_ne_nil _ hsome
      obtain ⟨hmem, hpresent⟩ := List.mem_filter.1 hchild
      exact of_decide_eq_true hpresent ((context_unite made).1 habsent child hmem)
    · intro part hpart
      exact ⟨parts part (List.mem_of_mem_filter hpart), List.all_eq_true.1 hall part hpart⟩
  | ancestor parent part ih =>
    refine ⟨(ih hprunes).1, ?_⟩
    intro part' hpart
    obtain rfl := List.mem_singleton.1 hpart
    exact ⟨part, hprunes⟩

/-- A part that is put off and has a node stands for all that lies below it. -/
theorem deferredNodes_cover_putOff {part : Stream} (hpresent : s.context ≠ .absent)
    (hpart : part ∈ s.putOff) (hnode : part.node ≠ none) (hpath : PathTo bottom part path) :
    ∃ id ∈ path, id ∈ s.deferredNodes := by
  obtain ⟨id, hid⟩ := Option.ne_none_iff_exists'.1 hnode
  rw [deferredNodes_eq hpresent]
  exact ⟨id, hpath.mem_of_node hid,
    List.mem_append_left _ (List.mem_filterMap.2 ⟨part, hpart, hid⟩)⟩

/-- Whatever lies below a part of a stream that prunes and cannot prune itself is put off, under its
    own node or under that of a composite on the way down to it, provided that every part that is
    put off has a node. -/
theorem deferredNodes_cover {part : Stream} (hbuilt : s.BuiltFrom IsLeaf) (hnamed : s.NamesPutOff)
    (hprunes : s.canPrune = true) (hpart : part ∈ s.read ++ s.putOff)
    (hpath : PathTo bottom part path) (hbottom : bottom.canPrune = false) :
    ∃ id ∈ path, id ∈ s.deferredNodes := by
  -- the way down keeps to parts that are read, and so prune, until it meets one that is put off
  induction hpath generalizing s with
  | here =>
    obtain ⟨hpresent, hread⟩ := hbuilt.read_of_canPrune hprunes
    obtain ⟨hputOff, -⟩ := hnamed
    rcases List.mem_append.1 hpart with hmem | hmem
    · cases hbottom.symm.trans (hread _ hmem).2
    · exact deferredNodes_cover_putOff hpresent hmem (hputOff _ hmem) .here
  | @down part part' path mem below ih =>
    obtain ⟨hpresent, hread⟩ := hbuilt.read_of_canPrune hprunes
    obtain ⟨hputOff, hnamed⟩ := hnamed
    rcases List.mem_append.1 hpart with hmem | hmem
    · obtain ⟨hbuiltPart, hpartPrunes⟩ := hread part hmem
      obtain ⟨id, hid, hdeferred⟩ := ih hbuiltPart (hnamed part hmem) hpartPrunes mem
      rw [deferredNodes_eq hpresent]
      exact ⟨id, List.mem_append_right _ hid,
        List.mem_append_right _ (List.mem_flatMap.2 ⟨part, hmem, hdeferred⟩)⟩
    · exact deferredNodes_cover_putOff hpresent hmem (hputOff part hmem) (.down mem below)

/-- A leaf that is read. -/
def plain : Stream :=
  leaf (some ⟨1⟩) .present "A:1" [⟨"20240101_0", .ofUids "20240101_0" (some ⟨1⟩) ["a"]⟩]

theorem builtFrom_plain : plain.BuiltFrom IsLeaf :=
  .leaf ⟨some ⟨1⟩, .complete [.ofUids "20240101_0" (some ⟨1⟩) ["a"]], _, "A:1", rfl, rfl⟩

theorem deferredNodes_cover_sample :
    ∃ either s, unite (some ⟨5⟩) [delayed (some ⟨2⟩), delayed (some ⟨3⟩)] = .ok either ∧
      intersect (some ⟨4⟩) [plain, either] = .ok s ∧ s.BuiltFrom IsLeaf ∧ s.NamesPutOff ∧
      s.canPrune = true ∧ either ∈ s.putOff ∧ PathTo (delayed (some ⟨2⟩)) either [⟨5⟩, ⟨2⟩] ∧
      ∃ id ∈ [(⟨5⟩ : NodeId), ⟨2⟩], id ∈ s.deferredNodes := by
  obtain ⟨either, heither⟩ :
      ∃ s, unite (some ⟨5⟩) [delayed (some ⟨2⟩), delayed (some ⟨3⟩)] = .ok s := ⟨_, rfl⟩
  obtain ⟨s, hs⟩ : ∃ s, intersect (some ⟨4⟩) [plain, either] = .ok s :=
    intersect_isOk _ (Nat.le_refl 2)
  have hbuilt : s.BuiltFrom IsLeaf := by
    refine .intersection ?_ hs
    intro child hchild
    rcases List.mem_pair.1 hchild with rfl | rfl
    · exact builtFrom_plain
    · refine .union ?_ heither
      intro child hchild
      rcases List.mem_pair.1 hchild with rfl | rfl <;> exact .leaf (isLeaf_delayed _)
  have hread : s.read = [plain] := by
    cases heither
    cases hs
    rfl
  have hputOff : s.putOff = [either] := by
    cases heither
    cases hs
    rfl
  have hprunes : s.canPrune = true := by
    rw [canPrune_intersect hs]
    cases heither
    rfl
  have hnamed : s.NamesPutOff := by
    refine .intro ?_ ?_
    · rw [hputOff, List.forall_mem_singleton, node_unite heither]
      exact nofun
    · rw [hread, List.forall_mem_singleton]
      exact .intro (fun _ h => nomatch h) fun _ h => nomatch h
  have hmem : either ∈ s.putOff := by
    rw [hputOff]
    exact List.mem_singleton_self either
  have hpath : PathTo (delayed (some ⟨2⟩)) either [⟨5⟩, ⟨2⟩] := by
    cases heither
    exact .down List.mem_cons_self .here
  exact ⟨either, s, heither, hs, hbuilt, hnamed, hprunes, hmem, hpath,
    deferredNodes_cover hbuilt hnamed hprunes (List.mem_append_right _ hmem) hpath rfl⟩

/-- A union without a node that is put off takes the nodes of its leaves with it: none of them is
    put off, although only they can tell whether a document matches. -/
theorem deferredNodes_lose_nameless :
    ∃ nameless s, unite none [delayed (some ⟨2⟩), delayed (some ⟨3⟩)] = .ok nameless ∧
      intersect (some ⟨4⟩) [plain, nameless] = .ok s ∧ s.canPrune = true ∧
      s.context ≠ .absent ∧ nameless ∈ s.putOff ∧
      PathTo (delayed (some ⟨2⟩)) nameless [⟨2⟩] ∧ (delayed (some ⟨2⟩)).canPrune = false ∧
      s.deferredNodes = [] := by
  refine ⟨_, _, rfl, rfl, rfl, nofun, List.mem_cons_self, ?_, rfl, rfl⟩
  exact .down List.mem_cons_self .here

end ShardSearch.Stream
