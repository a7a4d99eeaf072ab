import ShardSearch.Proofs.Composite

/-!
# The weakest of many contexts

Taking the weaker of two contexts is associative, commutative and idempotent, and `absent` is its
neutral element.  So the weakest of many contexts is settled by which of them occur
(`Context.weakest_of_members`): it does not matter in which order, how often, and in which groups.
-/

namespace ShardSearch

namespace Context

variable {c : Context} {cs cs' : List Context}

/-! ## The weaker of two -/

theorem weaker_self (c : Context) : c.weaker c = c := by
  cases c <;> rfl

theorem weaker_absent (c : Context) : c.weaker absent = c := by
  rw [weaker_comm, absent_weaker]

theorem weaker_eq_or (a b : Context) : a.weaker b = a ∨ a.weaker b = b := by
  cases a <;> cases b <;> decide

/-- What yields to a context puts off no more. -/
theorem rank_le_of_weaker_eq {a b : Context} (h : a.weaker b = b) {i : Nat} (ha : a.rank = some i) :
    ∃ j, b.rank = some j ∧ i ≤ j := by
  cases a <;> cases b <;> cases ha <;> cases h <;> exact ⟨_, rfl, by decide⟩

theorem isSome_rank_iff : c.rank.isSome = true ↔ c ≠ absent := by
  cases c <;> decide

/-! ## The weakest of many -/

theorem foldr_weaker_mem (cs : List Context) (h : cs.foldr weaker absent ≠ absent) :
    cs.foldr weaker absent ∈ cs := by
  induction cs with
  | nil => exact absurd rfl h
  | cons c cs ih =>
    rw [List.foldr_cons] at h ⊢
    rcases weaker_eq_or c (cs.foldr weaker absent) with hc | hcs
    · rw [hc]
      exact List.mem_cons_self
    · rw [hcs] at h ⊢
      exact List.mem_cons_of_mem _ (ih h)

/-- Each of the contexts yields to the weakest one. -/
theorem weaker_foldr_of_mem (h : c ∈ cs) :
    c.weaker (cs.foldr weaker absent) = cs.foldr weaker absent := by
  induction cs with
  | nil => cases h
  | cons d cs ih =>
    rw [List.foldr_cons]
    rcases List.mem_cons.1 h with rfl | h
    · rw [← weaker_assoc, weaker_self]
    · rw [← weaker_assoc, weaker_comm c d, weaker_assoc, ih h]

theorem weaker_foldr_of_subset (h : ∀ c ∈ cs, c ≠ absent → c ∈ cs') :
    (cs.foldr weaker absent).weaker (cs'.foldr weaker absent) = cs'.foldr weaker absent := by
  induction cs with
  | nil => rfl
  | cons c cs ih =>
    obtain ⟨hc, hcs⟩ := List.forall_mem_cons.1 h
    rw [List.foldr_cons, weaker_assoc, ih hcs]
    by_cases habsent : c = absent
    · rw [habsent, absent_weaker]
    · exact weaker_foldr_of_mem (hc habsent)

theorem weakest_eq_none_iff : weakest cs = none ↔ ∀ c ∈ cs, c = absent := by
  have hnil : cs.filter (· ≠ absent) = [] ↔ ∀ c ∈ cs, c = absent := by
    simp [List.filter_eq_nil_iff]
  rw [← hnil, weakest]
  cases cs.filter (· ≠ absent) <;> simp

theorem weakest_eq_some_iff :
    weakest cs = some c ↔ c ≠ absent ∧ cs.foldr weaker absent = c := by
  constructor
  · intro h
    have hfold : cs.foldr weaker absent = c := by
      rw [← getD_weakest, h]
      rfl
    refine ⟨fun habsent => ?_, hfold⟩
    have hall := foldr_weaker_eq_absent_iff.1 (hfold.trans habsent)
    rw [weakest_eq_none_iff.2 hall] at h
    cases h
  · rintro ⟨hc, hfold⟩
    rw [← getD_weakest] at hfold
    cases h : weakest cs with
    | none =>
      rw [h] at hfold
      exact absurd hfold.symm hc
    | some d =>
      rw [h] at hfold
      rw [← hfold]
      rfl

theorem weakest_congr (h : cs.foldr weaker absent = cs'.foldr weaker absent) :
    weakest cs = weakest cs' := by
  apply Option.ext
  intro c
  rw [weakest_eq_some_iff, weakest_eq_some_iff, h]

/-- The weakest context is one of them that has the greatest rank. -/
theorem rank_of_weakest (h : weakest cs = some c) :
    c ∈ cs ∧ c ≠ absent ∧ c.rank = (cs.filterMap rank).max? := by
  obtain ⟨hc, hfold⟩ := weakest_eq_some_iff.1 h
  have hmem : c ∈ cs := by
    rw [← hfold] at hc ⊢
    exact foldr_weaker_mem cs hc
  refine ⟨hmem, hc, ?_⟩
  obtain ⟨k, hk⟩ := Option.isSome_iff_exists.1 (isSome_rank_iff.2 hc)
  rw [hk, eq_comm, List.max?_eq_some_iff]
  refine ⟨List.mem_filterMap.2 ⟨c, hmem, hk⟩, fun i hi => ?_⟩
  obtain ⟨d, hd, hrank⟩ := List.mem_filterMap.1 hi
  have hyields : d.weaker c = c := hfold ▸ weaker_foldr_of_mem hd
  obtain ⟨j, hj, hij⟩ := rank_le_of_weaker_eq hyields hrank
  rw [hk] at hj
  cases hj
  exact hij

/-- Contexts may be taken together in groups first; groups of absent ones bring in nothing. -/
theorem weakest_flatten (groups : List (List Context)) :
    weakest groups.flatten = weakest (groups.filterMap weakest) := by
  apply weakest_congr
  induction groups with
  | nil => rfl
  | cons group groups ih =>
    rw [List.flatten_cons, foldr_weaker_append, ih, ← getD_weakest group, List.filterMap_cons]
    cases weakest group <;> rfl

end Context

/-! ## Nested composites -/

namespace Stream

variable {flat : List Stream} {s s' : Stream} {node : Option NodeId}

/-- The stream is put together out of some streams, in their order, by composites of one kind that
    are nested in any way. -/
inductive NestedOf (make : Option NodeId → List Stream → Except Error Stream) :
    List Stream → Stream → Prop where
  | child (s : Stream) : NestedOf make [s] s
  | composite {groups : List (List Stream)} {parts : List Stream} {node : Option NodeId}
      {s : Stream} (nested : List.Forall₂ (NestedOf make) groups parts)
      (made : make node parts = .ok s) : NestedOf make groups.flatten s

/-- Nested composites have the context of the one composite of all their children. -/
def IgnoresNesting (make : Option NodeId → List Stream → Except Error Stream) : Prop :=
  ∀ flat s, NestedOf make flat s → ∀ node s', make node flat = .ok s' → s.context = s'.context

theorem contextOf_singleton (s : Stream) : contextOf [s] = s.context := by
  rw [contextOf_cons, contextOf_nil, Context.weaker_absent]

theorem NestedOf.context_eq_of_unite (h : NestedOf unite flat s) : s.context = contextOf flat := by
  induction h using NestedOf.rec
    (motive_2 := fun groups parts _ => contextOf parts = contextOf groups.flatten) with
  | child s => rw [contextOf_singleton]
  | composite _ made ih => rw [context_unite_eq made, ih]
  | nil => rfl
  | cons _ _ ihpart ihparts =>
    rw [contextOf_cons, List.flatten_cons, contextOf_append, ihpart, ihparts]

theorem context_intersect_of_present (made : intersect node flat = .ok s)
    (hpresent : ∀ child ∈ flat, child.context ≠ .absent) : s.context = contextOf flat := by
  rw [context_intersect_eq made, if_neg]
  simpa using hpresent

theorem NestedOf.context_eq_of_intersect (h : NestedOf intersect flat s) :
    (s.context = .absent ↔ ∃ child ∈ flat, child.context = .absent) ∧
      ((∀ child ∈ flat, child.context ≠ .absent) → s.context = contextOf flat) := by
  induction h using NestedOf.rec
    (motive_2 := fun groups parts _ =>
      ((∃ part ∈ parts, part.context = .absent) ↔
        ∃ child ∈ groups.flatten, child.context = .absent) ∧
      ((∀ child ∈ groups.flatten, child.context ≠ .absent) →
        contextOf parts = contextOf groups.flatten)) with
  | child s => exact ⟨by simp, fun _ => (contextOf_singleton s).symm⟩
  | composite _ made ih =>
    obtain ⟨habsent, hcontext⟩ := ih
    refine ⟨(context_intersect made).trans habsent, fun hpresent => ?_⟩
    rw [context_intersect_of_present made, hcontext hpresent]
    intro part hpart hnot
    obtain ⟨child, hchild, hnot⟩ := habsent.1 ⟨part, hpart, hnot⟩
    exact hpresent child hchild hnot
  | nil => exact ⟨by simp, fun _ => rfl⟩
  | cons _ _ ihpart ihparts =>
    rw [List.flatten_cons]
    refine ⟨?_, fun hpresent => ?_⟩
    · simp only [List.mem_cons, List.mem_append, or_and_right, exists_or, exists_eq_left,
        ihpart.1, ihparts.1]
    · obtain ⟨hgroup, hgroups⟩ := List.forall_mem_append.1 hpresent
      rw [contextOf_cons, contextOf_append, ihpart.2 hgroup, ihparts.2 hgroups]

theorem unite_ignoresNesting : IgnoresNesting unite := by
  intro flat s h node s' made
  rw [h.context_eq_of_unite, context_unite_eq made]

theorem intersect_ignoresNesting : IgnoresNesting intersect := by
  intro flat s h node s' made
  obtain ⟨habsent, hcontext⟩ := h.context_eq_of_intersect
  by_cases hsome : ∃ child ∈ flat, child.context = .absent
  · rw [habsent.2 hsome, (context_intersect made).2 hsome]
  · have hpresent : ∀ child ∈ flat, child.context ≠ .absent :=
      fun child hchild hnot => hsome ⟨child, hchild, hnot⟩
    rw [hcontext hpresent, context_intersect_of_present made hpresent]

end Stream

namespace Context

/-- There is a weakest context unless all are absent, and it is one of them, not absent, and of the
    greatest rank.  It is settled by which contexts occur that are not absent, so neither order nor
    repetition nor absent ones matter; and it is the weakest among those of any groups.  So unions
    and intersections that are nested have the context of a single one of all their children. -/
theorem weakest_of_members (cs : List Context) :
    (weakest cs = none ↔ ∀ c ∈ cs, c = absent) ∧
      (∀ c, weakest cs = some c →
        c ∈ cs ∧ c ≠ absent ∧ c.rank = (cs.filterMap rank).max?) ∧
      (∀ cs', (∀ c, c ≠ absent → (c ∈ cs ↔ c ∈ cs')) → weakest cs = weakest cs') ∧
      (∀ groups : List (List Context), cs = groups.flatten →
        weakest cs = weakest (groups.filterMap weakest)) ∧
      Stream.IgnoresNesting Stream.unite ∧ Stream.IgnoresNesting Stream.intersect := by
  refine ⟨weakest_eq_none_iff, fun c => rank_of_weakest, ?_, ?_, Stream.unite_ignoresNesting,
    Stream.intersect_ignoresNesting⟩
  · intro cs' hmem
    apply weakest_congr
    -- Each of the two yields to the other.
    rw [← weaker_foldr_of_subset fun c hc hpresent => (hmem c hpresent).2 hc, weaker_comm,
      weaker_foldr_of_subset fun c hc hpresent => (hmem c hpresent).1 hc]
  · rintro groups rfl
    exact weakest_flatten groups

theorem weakest_of_members_sample :
    weakest [varying, absent, delayed, varying] = weakest [delayed, varying] ∧
      ∃ group nested flat, Stream.unite none [.delayed none, .absent none] = .ok group ∧
        Stream.unite none [group, .unindexed none] = .ok nested ∧
        Stream.unite none [.delayed none, .absent none, .unindexed none] = .ok flat ∧
        nested.context = flat.context := by
  obtain ⟨-, -, hmembers, -, hunions, -⟩ := weakest_of_members [varying, absent, delayed, varying]
  have hsame : ∀ c, c ≠ absent →
      (c ∈ [varying, absent, delayed, varying] ↔ c ∈ [delayed, varying]) := by
    intro c hc
    cases c <;> simp_all
  obtain ⟨group, hgroup⟩ : ∃ s, Stream.unite none [.delayed none, .absent none] = .ok s :=
    ⟨_, rfl⟩
  obtain ⟨nested, hnested⟩ : ∃ s, Stream.unite none [group, .unindexed none] = .ok s := ⟨_, rfl⟩
  obtain ⟨flat, hflat⟩ : ∃ s,
      Stream.unite none [.delayed none, .absent none, .unindexed none] = .ok s := ⟨_, rfl⟩
  have hpair : Stream.NestedOf Stream.unite [.delayed none, .absent none] group :=
    .composite (.cons (.child _) (.cons (.child _) .nil)) hgroup
  have hall : Stream.NestedOf Stream.unite [.delayed none, .absent none, .unindexed none] nested :=
    .composite (.cons hpair (.cons (.child _) .nil)) hnested
  exact ⟨hmembers _ hsame, group, nested, flat, hgroup, hnested, hflat,
    hunions _ _ hall none flat hflat⟩

end Context

end ShardSearch
