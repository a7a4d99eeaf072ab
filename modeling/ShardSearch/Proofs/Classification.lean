import ShardSearch.Proofs.Answers
import ShardSearch.Proofs.PartByPart

/-!
# What a stream says of itself

What a stream says of its predicate is settled when it is made: no call changes it
(`steady_sameStanding`).  It is also coherent, although context and pruning are worked out apart
from each other: a stream is absent as its leaves have it, an absent stream holds nothing, and any
other prunes or defers (`classified`).
-/

namespace ShardSearch

theorem Context.isDeferred_weaker (a b : Context) :
    (a.weaker b).isDeferred = (a.isDeferred || b.isDeferred) := by
  cases a <;> cases b <;> rfl

/-- A context that filters is neither absent nor deferred. -/
theorem Context.canFilter_iff (c : Context) :
    c.canFilter = true ↔ c ≠ .absent ∧ c.isDeferred = false := by
  cases c <;> decide

namespace Stream

/-! ## Standing -/

/-- Two streams say the same of their predicate. -/
structure SameStanding (s s' : Stream) : Prop where
  context : s.context = s'.context
  node : s.node = s'.node
  canPrune : s.canPrune = s'.canPrune
  deferredNodes : s.deferredNodes = s'.deferredNodes

/-- Nothing a stream says of its predicate depends on how far it has been read. -/
theorem steady_sameStanding : Steady SameStanding where
  refl _ := ⟨rfl, rfl, rfl, rfl⟩
  trans h h' := ⟨h.context.trans h'.context, h.node.trans h'.node, h.canPrune.trans h'.canPrune,
    h.deferredNodes.trans h'.deferredNodes⟩
  passLeaf _ _ _ _ := ⟨rfl, rfl, rfl, rfl⟩
  passScan _ _ _ _ := ⟨rfl, rfl, rfl, rfl⟩
  pullScan _ _ _ := ⟨rfl, rfl, rfl, rfl⟩
  readFilters _ _ _ _ _ _ _ h := by
    refine ⟨rfl, rfl, ?_, ?_⟩
    · rw [Stream.canPrune, Stream.canPrune, h.isEmpty_congr]
    · rw [Stream.deferredNodes, Stream.deferredNodes, deferredNodesAll_eq_flatMap,
        deferredNodesAll_eq_flatMap, h.flatMap_congr fun _ _ hs => hs.deferredNodes]
  readSources _ _ _ _ _ _ _ h := by
    refine ⟨rfl, rfl, rfl, ?_⟩
    rw [Stream.deferredNodes, Stream.deferredNodes, deferredNodesAll_eq_flatMap,
      deferredNodesAll_eq_flatMap, h.flatMap_congr fun _ _ hs => hs.deferredNodes]
  readDelegate _ h := ⟨h.context, h.node, h.canPrune, h.deferredNodes⟩

/-! ## Absence -/

/-- The stream is put together from leaves, and `absent` is what the absence of these comes to: some
    child of an intersection is absent, or all children of a union. -/
inductive AbsentAs (leaf : Stream → Prop) : Stream → Bool → Prop where
  | leaf {s : Stream} (kind : leaf s) : AbsentAs leaf s (s.context = .absent)
  | intersection {node : Option NodeId} {children : List Stream} {s : Stream}
      {absent : Stream → Bool} (parts : ∀ child ∈ children, AbsentAs leaf child (absent child))
      (made : intersect node children = .ok s) : AbsentAs leaf s (children.any absent)
  | union {node : Option NodeId} {children : List Stream} {s : Stream} {absent : Stream → Bool}
      (parts : ∀ child ∈ children, AbsentAs leaf child (absent child))
      (made : unite node children = .ok s) : AbsentAs leaf s (children.all absent)
  | ancestor {delegate : Stream} {absent : Bool} (parent : Option NodeId)
      (part : AbsentAs leaf delegate absent) :
      AbsentAs leaf (delegate.dropDescendants parent) absent

variable {leaf : Stream → Prop} {s : Stream}

/-- A stream is absent if the absence of its leaves comes to that. -/
theorem AbsentAs.context_eq {absent : Bool} (h : s.AbsentAs leaf absent) :
    s.context = .absent ↔ absent = true := by
  induction h with
  | leaf kind => exact decide_eq_true_iff.symm
  | intersection parts made ih =>
    rw [context_intersect made, List.any_eq_true]
    exact exists_congr fun child => and_congr_right (ih child)
  | union parts made ih =>
    rw [context_unite made, List.all_eq_true]
    exact forall₂_congr ih
  | ancestor parent part ih => exact ih

theorem BuiltFrom.absentAs (h : s.BuiltFrom leaf) :
    s.AbsentAs leaf (decide (s.context = .absent)) := by
  induction h with
  | leaf kind => exact .leaf kind
  | @intersection node children s parts made ih =>
    have hmade := AbsentAs.intersection ih made
    rwa [Bool.eq_iff_iff.2 (hmade.context_eq.symm.trans decide_eq_true_iff.symm)] at hmade
  | @union node children s parts made ih =>
    have hmade := AbsentAs.union ih made
    rwa [Bool.eq_iff_iff.2 (hmade.context_eq.symm.trans decide_eq_true_iff.symm)] at hmade
  | ancestor parent part ih => exact .ancestor parent ih

/-- A stream of the trace without entries hands out nothing, whatever calls are made. -/
theorem yields_nothing (h : s.trace = .stop none) (calls : List Call) :
    s.drain.1 = .ok [] ∧ entriesOf (s.run calls).1 = [] := by
  constructor
  · rw [drain_eq, h]
    rfl
  · refine List.eq_nil_iff_forall_not_mem.2 fun e he => ?_
    have hmem := mem_entries_of_run he
    rw [h] at hmem
    cases hmem

theorem IsLeaf.trace_of_absent (h : s.IsLeaf) (habsent : s.context = .absent) :
    s.trace = .stop none := by
  obtain ⟨node, plan, unlabelled, label, hplan, rfl⟩ := h
  rw [context_withLabel] at habsent
  rw [trace_withLabel]
  cases plan with
  | complete sets =>
    obtain ⟨-, rfl⟩ := of_leafOf_eq_ok hplan
    cases sets with
    | nil => rfl
    | cons set sets => cases habsent
  | varying sets =>
    obtain ⟨-, rfl⟩ := of_leafOf_eq_ok hplan
    cases habsent
  | absent =>
    cases hplan
    rfl
  | delayed | unindexed | scan items =>
    cases hplan
    cases habsent

theorem deferredNodes_of_isLeaf (h : s.IsLeaf) : s.deferredNodes = [] := by
  rcases isLeaf_cases h with ⟨node, context, label, sets, -, rfl⟩ | ⟨node, label, items, rfl⟩ <;>
    rw [deferredNodes]

/-- An absent stream holds nothing, prunes nothing and puts nothing off. -/
theorem BuiltFrom.of_absent (h : s.BuiltFrom IsLeaf) (habsent : s.context = .absent) :
    s.trace = .stop none ∧ s.canPrune = false ∧ s.deferredNodes = [] := by
  induction h with
  | leaf kind =>
    refine ⟨kind.trace_of_absent habsent, ?_, deferredNodes_of_isLeaf kind⟩
    rcases isLeaf_cases kind with ⟨node, context, label, sets, -, rfl⟩ | ⟨node, label, items, rfl⟩
    · cases habsent
      rfl
    · cases habsent
  | @intersection node children s parts made ih =>
    have hany : children.any (·.context = .absent) = true := by
      simpa using (context_intersect made).1 habsent
    refine ⟨?_, ?_, deferredNodes_of_absent made habsent⟩
    · rw [trace_intersect made, if_pos hany]
    · rw [canPrune_intersect made, hany]
      rfl
  | @union node children s parts made ih =>
    have hnone : children.filter (·.context ≠ .absent) = [] := by
      simpa using (context_unite made).1 habsent
    refine ⟨?_, ?_, ?_⟩
    · rw [trace_unite made, hnone]
      rfl
    · rw [canPrune_unite made, hnone]
      rfl
    · rw [deferredNodes_unite made, hnone]
      rfl
  | ancestor parent part ih =>
    obtain ⟨htrace, hprunes, hdeferred⟩ := ih habsent
    refine ⟨?_, hprunes, hdeferred⟩
    rw [dropDescendants, trace, htrace]
    rfl

/-! ## Deferring -/

/-- One deferred part is enough for a composite to be deferred. -/
theorem isDeferred_contextOf {parts : List Stream} {part : Stream} (hmem : part ∈ parts)
    (h : part.context.isDeferred = true) : (contextOf parts).isDeferred = true := by
  induction parts with
  | nil => cases hmem
  | cons part' parts ih =>
    rw [contextOf_cons, Context.isDeferred_weaker, Bool.or_eq_true]
    rcases List.mem_cons.1 hmem with rfl | hmem
    · exact .inl h
    · exact .inr (ih hmem)

/-- A stream that is not absent prunes or defers. -/
theorem BuiltFrom.isDeferred (h : s.BuiltFrom IsLeaf) (hpresent : s.context ≠ .absent)
    (hprunes : s.canPrune = false) : s.context.isDeferred = true := by
  induction h with
  | leaf kind =>
    rcases isLeaf_cases kind with ⟨node, context, label, sets, -, rfl⟩ | ⟨node, label, items, rfl⟩
    · by_contra hdeferred
      have hfilters := (Context.canFilter_iff context).2 ⟨hpresent, Bool.eq_false_iff.2 hdeferred⟩
      cases hfilters.symm.trans hprunes
    · cases hprunes
  | @intersection node children s parts made ih =>
    have hany : ¬ children.any (·.context = .absent) = true := fun hany =>
      hpresent ((context_intersect made).2 (by simpa using hany))
    have hpresents : ∀ child ∈ children, child.context ≠ .absent := by simpa using hany
    obtain ⟨child, hchild⟩ := List.exists_mem_of_length_pos
      (Nat.lt_of_lt_of_le Nat.two_pos (intersect_cases made).1)
    have hprunesChild : child.canPrune = false := by
      refine Bool.eq_false_iff.2 fun hchildPrunes => ?_
      cases hprunes.symm.trans
        ((canPrune_intersect_iff made).2 ⟨hpresents, child, hchild, hchildPrunes⟩)
    rw [context_intersect_eq made, if_neg hany]
    exact isDeferred_contextOf hchild (ih child hchild (hpresents child hchild) hprunesChild)
  | @union node children s parts made ih =>
    have hsome : ∃ child ∈ children, child.context ≠ .absent := by
      simpa [context_unite made] using hpresent
    obtain ⟨child, hchild, hpresentChild, hprunesChild⟩ :
        ∃ child ∈ children, child.context ≠ .absent ∧ child.canPrune = false := by
      by_contra hnone
      cases hprunes.symm.trans ((canPrune_unite_iff made).2 ⟨hsome, by simpa using hnone⟩)
    rw [context_unite_eq made]
    exact isDeferred_contextOf hchild (ih child hchild hpresentChild hprunesChild)
  | ancestor parent part ih => exact ih hpresent hprunes

/-- An intersection that prunes nothing reads nothing. -/
theorem trace_of_canPrune_eq_false {node : Option NodeId} {children : List Stream}
    (made : intersect node children = .ok s) (hprunes : s.canPrune = false) :
    s.trace = .stop none := by
  rw [trace_intersect made]
  split
  · rfl
  · next hany =>
    rw [canPrune_intersect made, Bool.eq_false_iff.2 hany] at hprunes
    rw [show children.filter canPrune = [] by simpa using hprunes]
    rfl

/-- Whatever calls are made on a stream put together from leaves, failing scans included, it goes on
    to say the same of its predicate.  What it says is coherent: if its context filters, it prunes;
    it is absent exactly if the absence of its leaves comes to that, and then it prunes nothing,
    puts nothing off and hands out nothing; an intersection that does not prune hands out nothing
    either; and a stream that is neither absent nor prunes is deferred. -/
theorem classified {s : Stream} (h : s.BuiltFrom IsLeaf) (calls : List Call) :
    SameStanding s (s.run calls).2 ∧
    (s.context.canFilter = true → s.canPrune = true) ∧
    ((∃ absent, s.AbsentAs IsLeaf absent) ∧
      ∀ absent, s.AbsentAs IsLeaf absent → (s.context = .absent ↔ absent = true)) ∧
    (s.context = .absent → s.canPrune = false ∧ s.deferredNodes = [] ∧
      s.drain.1 = .ok [] ∧ entriesOf (s.run calls).1 = []) ∧
    (∀ node children, intersect node children = .ok s → s.context ≠ .absent →
      s.canPrune = false → s.drain.1 = .ok [] ∧ entriesOf (s.run calls).1 = []) ∧
    (s.context ≠ .absent → s.canPrune = false → s.context.isDeferred = true) := by
  refine ⟨steady_sameStanding.run s calls, ?_, ⟨⟨_, h.absentAs⟩, fun _ => AbsentAs.context_eq⟩,
    ?_, ?_, h.isDeferred⟩
  · intro hfilters
    obtain ⟨hpresent, hundeferred⟩ := (Context.canFilter_iff s.context).1 hfilters
    by_contra hprunes
    cases hundeferred.symm.trans (h.isDeferred hpresent (Bool.eq_false_iff.2 hprunes))
  · intro habsent
    obtain ⟨htrace, hprunes, hdeferred⟩ := h.of_absent habsent
    exact ⟨hprunes, hdeferred, yields_nothing htrace calls⟩
  · intro node children made hpresent hprunes
    exact yields_nothing (trace_of_canPrune_eq_false made hprunes) calls

theorem classified_sample :
    (∃ s, intersect (some ⟨4⟩) [unruly, delayed (some ⟨2⟩)] = .ok s ∧ s.canPrune = true ∧
      (s.run sampleCalls).1.map Except.isOk = [true, true, true, true, false] ∧
      SameStanding s (s.run sampleCalls).2) ∧
    (∃ u s, unite (some ⟨3⟩) [absent (some ⟨1⟩), absent (some ⟨2⟩)] = .ok u ∧
      intersect (some ⟨4⟩) [unruly, u] = .ok s ∧ s.context = .absent ∧ s.canPrune = false ∧
      entriesOf (s.run sampleCalls).1 = []) ∧
    ∃ s, intersect (some ⟨4⟩) [delayed (some ⟨1⟩), delayed (some ⟨2⟩)] = .ok s ∧
      s.context.isDeferred = true ∧ entriesOf (s.run sampleCalls).1 = [] := by
  have hdelayed (id : NodeId) : (delayed (some id)).BuiltFrom IsLeaf := .leaf (isLeaf_delayed _)
  have habsent (id : NodeId) : (absent (some id)).BuiltFrom IsLeaf :=
    .leaf ⟨some id, .absent, absent (some id), defaultLabel (some id), rfl, rfl⟩
  refine ⟨?_, ?_, ?_⟩
  · obtain ⟨s, hs⟩ : ∃ s, intersect (some ⟨4⟩) [unruly, delayed (some ⟨2⟩)] = .ok s := ⟨_, rfl⟩
    have hbuilt : s.BuiltFrom IsLeaf := .intersection (by simp [builtFrom_unruly, hdelayed]) hs
    refine ⟨s, hs, ?_, ?_, (classified hbuilt sampleCalls).1⟩ <;> cases hs <;> rfl
  · obtain ⟨u, hu⟩ : ∃ u, unite (some ⟨3⟩) [absent (some ⟨1⟩), absent (some ⟨2⟩)] = .ok u :=
      ⟨_, rfl⟩
    obtain ⟨s, hs⟩ : ∃ s, intersect (some ⟨4⟩) [unruly, u] = .ok s := by
      cases hu
      exact ⟨_, rfl⟩
    have hunion : u.BuiltFrom IsLeaf := .union (by simp [habsent]) hu
    have hbuilt : s.BuiltFrom IsLeaf := .intersection (by simp [builtFrom_unruly, hunion]) hs
    have hcontext : s.context = .absent := by
      cases hu
      cases hs
      rfl
    obtain ⟨-, -, -, hnothing, -⟩ := classified hbuilt sampleCalls
    obtain ⟨hprunes, -, -, hentries⟩ := hnothing hcontext
    exact ⟨u, s, hu, hs, hcontext, hprunes, hentries⟩
  · obtain ⟨s, hs⟩ : ∃ s, intersect (some ⟨4⟩) [delayed (some ⟨1⟩), delayed (some ⟨2⟩)] = .ok s :=
      ⟨_, rfl⟩
    have hbuilt : s.BuiltFrom IsLeaf := .intersection (by simp [hdelayed]) hs
    have hpresent : s.context ≠ .absent := by
      cases hs
      decide
    have hprunes : s.canPrune = false := by
      cases hs
      rfl
    obtain ⟨-, -, -, -, hnothing, hdeferred⟩ := classified hbuilt sampleCalls
    exact ⟨s, hs, hdeferred hpresent hprunes, (hnothing _ _ hs hpresent hprunes).2⟩

end Stream

end ShardSearch
